import MipsLab.Assembly.Selection
import MipsLab.Machine.Execute

/-! What pseudo-instructions mean. The meaning of a line is one operation on the machine, without
regard to the basic instructions that carry it out; constants are taken modulo 2^32, and no scratch
register is involved. -/
namespace MipsLab

open Selection (word)

/-- What a line does to a machine, and where control goes afterwards. A fault leaves the machine as
it was. -/
abbrev Meaning := Machine → Except Fault (Machine × Control)

namespace Meaning

def assign (rd : Reg) (value : Machine → Except Fault Word) : Meaning := fun m => do
  let x ← value m
  return (m.setReg rd x, .next)

def branch (condition : Machine → Bool) (address : Word) : Meaning := fun m =>
  .ok (m, if condition m then .jump address else .next)

def divide (unsigned : Bool) (part : Alu.HiLo → Word) (rd rs : Reg) (divisor : Machine → Word) :
    Meaning := fun m => do
  let op : HiLoOp := if unsigned then .divu else .div
  let halves ← Alu.hiLo op (m.regs.read rs) (divisor m) m.hiLo
  return ((m.setHiLo halves).setReg rd (part halves), .next)

def access (op : MemOp) (data : Fin 32) (address : Machine → Word) : Meaning := fun m =>
  match m.executeMem op data (address m) with
  | .ok _ k => .ok (k, .next)
  | .error f _ => .error f

end Meaning

namespace Operand

def value? : Operand → Option (Machine → Word)
  | gpr r => some fun m => m.regs.read r
  | int v => some fun _ => word v
  | _ => none

def labelPlace? (labels : Labels) (name : String) (offset : Int) : Option Word :=
  (labels name).map (· + word offset)

/-- The address that an operand stands for. -/
def place? (labels : Labels) : Operand → Option (Machine → Word)
  | int v => some fun _ => word v
  | label name offset => (labelPlace? labels name offset).map fun a _ => a
  | mem none offset base => some fun m => m.regs.read base + word offset
  | mem (some name) offset base =>
    (labelPlace? labels name offset).map fun a m => a + m.regs.read base
  | _ => none

def target? (labels : Labels) : Operand → Option Word
  | int v => some (word v)
  | label name offset => labelPlace? labels name offset
  | _ => none

def registers : Operand → List Reg
  | gpr r => [r]
  | mem _ _ base => [base]
  | _ => []

end Operand

/-- Words are compared as signed or unsigned numbers. -/
def number (unsigned : Bool) (w : Word) : Int := if unsigned then w.toNat else w.toInt

def Relation.holds (relation : Relation) (a b : Int) : Bool :=
  match relation with
  | lt => a < b
  | gt => b < a
  | le => a ≤ b
  | ge => b ≤ a

def SetRelation.holds (relation : SetRelation) (a b : Word) : Bool :=
  match relation with
  | gt unsigned => number unsigned b < number unsigned a
  | ge unsigned => number unsigned b ≤ number unsigned a
  | le unsigned => number unsigned a ≤ number unsigned b
  | eq => a = b
  | ne => a ≠ b

/-- The operation of an instruction with a constant, on whole words. -/
def ImmOp.operation (op : ImmOp) (a b : Word) : Except Fault Word :=
  match op with
  | addi => Alu.addSigned a b
  | addiu => .ok (a + b)
  | slti => .ok (Alu.bit (a.toInt < b.toInt))
  | sltiu => .ok (Alu.bit (a.toNat < b.toNat))
  | andi => .ok (a &&& b)
  | ori => .ok (a ||| b)
  | xori => .ok (a ^^^ b)
  | sll => .ok (a <<< (b.toNat % 32))
  | srl => .ok (a >>> (b.toNat % 32))
  | sra => .ok (a.sshiftRight (b.toNat % 32))

namespace Meaning

/-- An operation on one source, which is the destination when left out. -/
def unary? (operation : Word → Except Fault Word) : List Operand → Option Meaning
  | [.gpr rd, .gpr rs] => some (assign rd fun m => operation (m.regs.read rs))
  | [.gpr rd] => some (assign rd fun m => operation (m.regs.read rd))
  | _ => none

/-- An operation on two sources; the first is the destination when left out. -/
def binary? (operation : Word → Word → Except Fault Word) : List Operand → Option Meaning
  | [.gpr rd, .gpr rs, right] =>
    right.value?.map fun value => assign rd fun m => operation (m.regs.read rs) (value m)
  | [.gpr rd, right] =>
    right.value?.map fun value => assign rd fun m => operation (m.regs.read rd) (value m)
  | _ => none

def divide? (unsigned : Bool) (part : Alu.HiLo → Word) : List Operand → Option Meaning
  | [.gpr rd, .gpr rs, right] => right.value?.map (divide unsigned part rd rs)
  | _ => none

def access? (labels : Labels) (op : MemOp) : List Operand → Option Meaning
  | [.gpr data, place] | [.fpr data, place] => (place.place? labels).map (access op data)
  | _ => none

def branch? (labels : Labels) (condition : Word → Word → Bool) : List Operand → Option Meaning
  | [.gpr rs, right, place] => do
    let value ← right.value?
    let address ← place.target? labels
    return branch (fun m => condition (m.regs.read rs) (value m)) address
  | _ => none

def branchOn? (labels : Labels) (condition : Word → Bool) : List Operand → Option Meaning
  | [.gpr rs, place] => (place.target? labels).map (branch fun m => condition (m.regs.read rs))
  | _ => none

def goto? (labels : Labels) : List Operand → Option Meaning
  | [place] => (place.target? labels).map (branch fun _ => true)
  | _ => none

def loadConstant? : List Operand → Option Meaning
  | [.gpr rd, .int v] => some (assign rd fun _ => .ok (word v))
  | _ => none

def loadAddress? (labels : Labels) : List Operand → Option Meaning
  | [.gpr rd, place] => (place.place? labels).map fun address => assign rd (.ok ∘ address)
  | _ => none

end Meaning

open Meaning

/-- The meaning of a pseudo-instruction. -/
def Mnemonic.meaning? (m : Mnemonic) (ops : List Operand) (labels : Labels) : Option Meaning :=
  match m with
  | li => loadConstant? ops
  | la => loadAddress? labels ops
  | move => unary? .ok ops
  | neg => unary? (Alu.subSigned 0) ops
  | negu => unary? (fun a => .ok (-a)) ops
  | not => unary? (fun a => .ok (~~~a)) ops
  | abs => unary? (fun a => .ok (BitVec.ofInt 32 a.toInt.natAbs)) ops
  | reg .movn | reg .movz => none
  | reg op => binary? (Alu.reg op) ops
  | imm op => binary? op.operation ops
  | subi unsigned => binary? (if unsigned then fun a b => .ok (a - b) else Alu.subSigned) ops
  | setRelation relation => binary? (fun a b => .ok (Alu.bit (relation.holds a b))) ops
  | hiLo .div => divide? false (·.lo) ops
  | hiLo .divu => divide? true (·.lo) ops
  | rem unsigned => divide? unsigned (·.hi) ops
  | mem op | dottedMem op => access? labels op ops
  | b => goto? labels ops
  | branchZero equal => branchOn? labels (fun a => decide (a = 0) = equal) ops
  | branch .beq => branch? labels (fun a b => a = b) ops
  | branch .bne => branch? labels (fun a b => a ≠ b) ops
  | branchRelation relation unsigned =>
    branch? labels (fun a b => relation.holds (number unsigned a) (number unsigned b)) ops
  | _ => none

/-- The meaning of a line with a pseudo-instruction. -/
def meaning? (name : String) (ops : List Operand) (labels : Labels) : Option Meaning :=
  (Mnemonic.ofName? name.toLower).bind fun m => m.meaning? ops labels

end MipsLab
