import MipsLab.Machine.Basic

/-! The effect of one instruction on the machine, in place. Operands are read before anything is
written. The program counter is moved by the caller, as the returned control says. -/
namespace MipsLab.Machine

open Exec (onlyIf require update)

def executeReg (op : RegOp) (rd rs rt : Reg) : Exec Machine Unit := do
  let m ← get
  let a := m.regs.read rs
  let b := m.regs.read rt
  let value ← require (Alu.reg op a b)
  let written : Bool := match op with
    | .movn => b != 0
    | .movz => b == 0
    | _ => true
  onlyIf written (modify (·.setReg rd value))

def executeHiLoMove (op : HiLoMove) (r : Reg) : Exec Machine Unit :=
  match op with
  | .mfhi => modify fun m => m.setReg r m.regs.hi
  | .mflo => modify fun m => m.setReg r m.regs.lo
  | .mthi => modify fun m => m.setHiLo { m.hiLo with hi := m.regs.read r }
  | .mtlo => modify fun m => m.setHiLo { m.hiLo with lo := m.regs.read r }

/-- The number in a float register as the pattern of a double. -/
def asDouble (m : Machine) (format : NumberFormat) (r : FReg) : Except Fault Nat :=
  match format with
  | .word => .ok (Ieee.ofInt Ieee.double (m.regs.readFloat r).toInt)
  | .single => .ok (Ieee.convert Ieee.single Ieee.double (m.regs.readFloat r).toNat)
  | .double => (m.regs.readDouble r).map BitVec.toNat

def executeArith (op : FloatOp) (fmt : Precision) (fd fs ft : FReg) : Exec Machine Unit := do
  let m ← get
  match fmt with
  | .single =>
    let value := Fpu.arith Ieee.single op (m.regs.readFloat fs).toNat (m.regs.readFloat ft).toNat
    modify (·.setFloat fd (BitVec.ofNat 32 value))
  | .double =>
    let a ← require (m.regs.readDouble fs)
    let b ← require (m.regs.readDouble ft)
    update (·.setDouble fd (BitVec.ofNat 64 (Fpu.arith Ieee.double op a.toNat b.toNat)))

def executeUnary (op : FloatUnary) (fmt : Precision) (fd fs : FReg) : Exec Machine Unit := do
  let m ← get
  match fmt with
  | .single =>
    let value := Fpu.unary Ieee.single op (m.regs.readFloat fs).toNat
    modify (·.setFloat fd (BitVec.ofNat 32 value))
  | .double =>
    let a ← require (m.regs.readDouble fs)
    update (·.setDouble fd (BitVec.ofNat 64 (Fpu.unary Ieee.double op a.toNat)))

/-- Conversions go through the double format. -/
def executeConvert (target source : NumberFormat) (fd fs : FReg) : Exec Machine Unit := do
  let m ← get
  let x ← require (m.asDouble source fs)
  match target with
  | .word => modify (·.setFloat fd (Fpu.toWord Ieee.double .round x))
  | .single => modify (·.setFloat fd (BitVec.ofNat 32 (Ieee.convert Ieee.double Ieee.single x)))
  | .double => update (·.setDouble fd (BitVec.ofNat 64 x))

def compareFloats (m : Machine) (cond : Cond) (fmt : Precision) (fs ft : FReg) :
    Except Fault Bool :=
  match fmt with
  | .single =>
    .ok (Fpu.compare Ieee.single cond (m.regs.readFloat fs).toNat (m.regs.readFloat ft).toNat)
  | .double => do
    let a ← m.regs.readDouble fs
    let b ← m.regs.readDouble ft
    return Fpu.compare Ieee.double cond a.toNat b.toNat

def moveFloat (fmt : Precision) (fd fs : FReg) : Exec Machine Unit := do
  let m ← get
  match fmt with
  | .single => modify (·.setFloat fd (m.regs.readFloat fs))
  | .double =>
    let bits ← require (m.regs.readDouble fs)
    update (·.setDouble fd bits)

def executeMem (op : MemOp) (data : Fin 32) (a : Word) : Exec Machine Unit := do
  let m ← get
  match op with
  | .lw =>
    let v ← require (m.mem.readWord a)
    modify (·.setReg data v)
  | .lh =>
    let v ← require (m.mem.readHalf a)
    modify (·.setReg data (v.signExtend 32))
  | .lhu =>
    let v ← require (m.mem.readHalf a)
    modify (·.setReg data (v.setWidth 32))
  | .lb =>
    let v ← require (m.mem.readByte a)
    modify (·.setReg data (v.signExtend 32))
  | .lbu =>
    let v ← require (m.mem.readByte a)
    modify (·.setReg data (v.setWidth 32))
  | .sw => update (·.store a .word (m.regs.read data).toNat)
  | .sh => update (·.store a .half (m.regs.read data).toNat)
  | .sb => update (·.store a .byte (m.regs.read data).toNat)
  | .lwc1 =>
    let v ← require (m.mem.readWord a)
    modify (·.setFloat data v)
  | .swc1 => update (·.store a .word (m.regs.readFloat data).toNat)
  | .ldc1 =>
    require (Registers.checkPair data)
    let bits ← require (m.mem.readDouble a)
    update (·.setDouble data bits)
  | .sdc1 =>
    let bits ← require (m.regs.readDouble data)
    update (·.store a .double bits.toNat)

def effectiveAddress (m : Machine) (base : Reg) (offset : Int) : Word :=
  m.regs.read base + BitVec.ofInt 32 offset

/-- Writes the return address of the instruction at `pc`, if a register is named for it. -/
def writeLink (pc : Word) : Option Reg → Exec Machine Unit
  | some r => modify (·.setReg r (pc + 4))
  | none => pure ()

/-- Executes the instruction at `pc`. System calls and breakpoints reach beyond the machine; here
they change nothing. -/
def execute (pc : Word) : Instruction → Exec Machine Control
  | .reg op rd rs rt => do
    executeReg op rd rs rt
    return .next
  | .imm op rt rs value => do
    let m ← get
    let result ← require (Alu.imm op (m.regs.read rs) (BitVec.ofInt 32 value))
    modify (·.setReg rt result)
    return .next
  | .lui rt upper => do
    modify (·.setReg rt (upper.setWidth 32 <<< 16))
    return .next
  | .hiLo op rs rt => do
    let m ← get
    let result ← require (Alu.hiLo op (m.regs.read rs) (m.regs.read rt) m.hiLo)
    modify (·.setHiLo result)
    return .next
  | .count op rd rs => do
    modify fun m => m.setReg rd (Alu.count op (m.regs.read rs))
    return .next
  | .hiLoMove op r => do
    executeHiLoMove op r
    return .next
  | .jump link target => do
    writeLink pc (if link then some Register.ra else none)
    return .jump target.address
  | .jumpReg link rs => do
    let m ← get
    let address := m.regs.read rs
    writeLink pc link
    return .jump address
  | .branch op rs rt target => do
    let m ← get
    let taken := Alu.taken op (m.regs.read rs) (m.regs.read rt)
    writeLink pc (if op.links then some Register.ra else none)
    return if taken then .jump target.address else .next
  | .floatArith op fmt fd fs ft => do
    executeArith op fmt fd fs ft
    return .next
  | .floatUnary op fmt fd fs => do
    executeUnary op fmt fd fs
    return .next
  | .floatToWord mode fmt fd fs => do
    let m ← get
    let x ← require (m.asDouble (match fmt with | .single => .single | .double => .double) fs)
    modify (·.setFloat fd (Fpu.toWord Ieee.double mode x))
    return .next
  | .convert target source fd fs => do
    executeConvert target source fd fs
    return .next
  | .compare cond fmt flag fs ft => do
    let m ← get
    let result ← require (m.compareFloats cond fmt fs ft)
    modify (·.setFlag flag result)
    return .next
  | .branchFlag expected flag target => do
    let m ← get
    return if m.regs.flag flag = expected then .jump target.address else .next
  | .moveWord true rt fs => do
    modify fun m => m.setFloat fs (m.regs.read rt)
    return .next
  | .moveWord false rt fs => do
    modify fun m => m.setReg rt (m.regs.readFloat fs)
    return .next
  | .floatMoveIf nonzero fmt fd fs rt => do
    let m ← get
    onlyIf ((m.regs.read rt != 0) = nonzero) (moveFloat fmt fd fs)
    return .next
  | .moveOnFlag expected rd rs flag => do
    let m ← get
    onlyIf (m.regs.flag flag = expected) (modify (·.setReg rd (m.regs.read rs)))
    return .next
  | .floatMoveOnFlag expected fmt fd fs flag => do
    let m ← get
    onlyIf (m.regs.flag flag = expected) (moveFloat fmt fd fs)
    return .next
  | .mem op data base offset => do
    let m ← get
    executeMem op data (m.effectiveAddress base offset)
    return .next
  | .nop | .syscall | .breakpoint _ => return .next

end MipsLab.Machine
