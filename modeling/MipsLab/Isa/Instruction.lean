import MipsLab.Isa.Register
import MipsLab.Ieee.Arithmetic

/-! Basic instructions, grouped by the shape of their operands. Branch and jump targets are
absolute addresses. -/
namespace MipsLab

open Ieee (RoundMode)

/-- Three-register integer operations. -/
inductive RegOp where
  | add | addu | sub | subu | and | or | xor | nor | slt | sltu | sllv | srlv | srav | mul
  | movn | movz
  deriving DecidableEq, Inhabited

/-- Operations with a constant, the constant shifts among them. -/
inductive ImmOp where
  | addi | addiu | slti | sltiu | andi | ori | xori | sll | srl | sra
  deriving DecidableEq, Inhabited

/-- Multiplications and divisions into `hi` and `lo`. -/
inductive HiLoOp where
  | mult | multu | div | divu | madd | maddu | msub | msubu
  deriving DecidableEq, Inhabited

inductive CountOp where
  | clo | clz
  deriving DecidableEq, Inhabited

inductive HiLoMove where
  | mfhi | mflo | mthi | mtlo
  deriving DecidableEq, Inhabited

inductive BranchOp where
  | beq | bne | bgez | bgtz | blez | bltz | bgezal | bltzal
  deriving DecidableEq, Inhabited

inductive MemOp where
  | lw | lh | lhu | lb | lbu | sw | sh | sb | lwc1 | swc1 | ldc1 | sdc1
  deriving DecidableEq, Inhabited

/-- Single, or double in an even register and the next one. -/
inductive Precision where
  | single | double
  deriving DecidableEq, Inhabited

/-- The formats between which numbers are converted; a word is an integer in a float register. -/
inductive NumberFormat where
  | single | double | word
  deriving DecidableEq, Inhabited

inductive FloatOp where
  | add | sub | mul | div
  deriving DecidableEq, Inhabited

inductive FloatUnary where
  | abs | neg | sqrt | mov
  deriving DecidableEq, Inhabited

inductive Cond where
  | eq | lt | le
  deriving DecidableEq, Inhabited

/-- Where control may go, and the label it was written as; numeric targets have none. -/
structure Target where
  address : Word
  label : Option String
  deriving DecidableEq, Inhabited

inductive Instruction where
  | reg (op : RegOp) (rd rs rt : Reg)
  | imm (op : ImmOp) (rt rs : Reg) (value : Int)
  | lui (rt : Reg) (upper : BitVec 16)
  | hiLo (op : HiLoOp) (rs rt : Reg)
  | count (op : CountOp) (rd rs : Reg)
  | hiLoMove (op : HiLoMove) (reg : Reg)
  | jump (link : Bool) (target : Target)
  | jumpReg (link : Option Reg) (rs : Reg)
  | branch (op : BranchOp) (rs rt : Reg) (target : Target)
  | floatArith (op : FloatOp) (fmt : Precision) (fd fs ft : FReg)
  | floatUnary (op : FloatUnary) (fmt : Precision) (fd fs : FReg)
  | floatToWord (mode : RoundMode) (fmt : Precision) (fd fs : FReg)
  | convert (target source : NumberFormat) (fd fs : FReg)
  | compare (cond : Cond) (fmt : Precision) (flag : Flag) (fs ft : FReg)
  | branchFlag (expected : Bool) (flag : Flag) (target : Target)
  | moveWord (toFloat : Bool) (rt : Reg) (fs : FReg)
  | floatMoveIf (nonzero : Bool) (fmt : Precision) (fd fs : FReg) (rt : Reg)
  | moveOnFlag (expected : Bool) (rd rs : Reg) (flag : Flag)
  | floatMoveOnFlag (expected : Bool) (fmt : Precision) (fd fs : FReg) (flag : Flag)
  | mem (op : MemOp) (reg : Fin 32) (base : Reg) (offset : Int)
  | nop
  | syscall
  | breakpoint (code : Word)
  deriving DecidableEq, Inhabited

inductive InstrClass where
  | alu | load | store | branch | jump | float | syscall | other
  deriving DecidableEq, Inhabited

namespace ImmOp

/-- The logical operations take the constant without a sign. -/
def isLogical : ImmOp → Bool
  | andi | ori | xori => true
  | _ => false

def isShift : ImmOp → Bool
  | sll | srl | sra => true
  | _ => false

end ImmOp

namespace BranchOp

def comparesRegisters : BranchOp → Bool
  | beq | bne => true
  | _ => false

/-- The branches that also write the return address. -/
def links : BranchOp → Bool
  | bgezal | bltzal => true
  | _ => false

end BranchOp

namespace MemOp

def isStore : MemOp → Bool
  | sw | sh | sb | swc1 | sdc1 => true
  | _ => false

/-- Whether the data register is a float register. -/
def isFloat : MemOp → Bool
  | lwc1 | swc1 | ldc1 | sdc1 => true
  | _ => false

end MemOp

def Instruction.category : Instruction → InstrClass
  | reg .. | imm .. | lui .. | hiLo .. | count .. | hiLoMove .. | moveOnFlag .. => .alu
  | jump .. | jumpReg .. => .jump
  | branch .. | branchFlag .. => .branch
  | floatArith .. | floatUnary .. | floatToWord .. | convert .. | compare .. | moveWord ..
  | floatMoveIf .. | floatMoveOnFlag .. => .float
  | mem op .. => if op.isStore then .store else .load
  | syscall => .syscall
  | nop | breakpoint _ => .other

end MipsLab
