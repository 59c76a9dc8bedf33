import MipsLab.Isa.Instruction

/-! Mnemonics: every name that an instruction line may start with, basic and pseudo. A name is
recognized by looking it up in the finite list of all mnemonics. -/
namespace MipsLab

open Ieee (RoundMode)

namespace RegOp

def all : List RegOp :=
  [add, addu, sub, subu, and, or, xor, nor, slt, sltu, sllv, srlv, srav, mul, movn, movz]

def name : RegOp → String
  | add => "add"
  | addu => "addu"
  | sub => "sub"
  | subu => "subu"
  | and => "and"
  | or => "or"
  | xor => "xor"
  | nor => "nor"
  | slt => "slt"
  | sltu => "sltu"
  | sllv => "sllv"
  | srlv => "srlv"
  | srav => "srav"
  | mul => "mul"
  | movn => "movn"
  | movz => "movz"

end RegOp

namespace ImmOp

def all : List ImmOp := [addi, addiu, slti, sltiu, andi, ori, xori, sll, srl, sra]

def name : ImmOp → String
  | addi => "addi"
  | addiu => "addiu"
  | slti => "slti"
  | sltiu => "sltiu"
  | andi => "andi"
  | ori => "ori"
  | xori => "xori"
  | sll => "sll"
  | srl => "srl"
  | sra => "sra"

end ImmOp

namespace HiLoOp

def all : List HiLoOp := [mult, multu, div, divu, madd, maddu, msub, msubu]

def name : HiLoOp → String
  | mult => "mult"
  | multu => "multu"
  | div => "div"
  | divu => "divu"
  | madd => "madd"
  | maddu => "maddu"
  | msub => "msub"
  | msubu => "msubu"

end HiLoOp

namespace CountOp

def all : List CountOp := [clo, clz]

def name : CountOp → String
  | clo => "clo"
  | clz => "clz"

end CountOp

namespace HiLoMove

def all : List HiLoMove := [mfhi, mflo, mthi, mtlo]

def name : HiLoMove → String
  | mfhi => "mfhi"
  | mflo => "mflo"
  | mthi => "mthi"
  | mtlo => "mtlo"

end HiLoMove

namespace BranchOp

def all : List BranchOp := [beq, bne, bgez, bgtz, blez, bltz, bgezal, bltzal]

def name : BranchOp → String
  | beq => "beq"
  | bne => "bne"
  | bgez => "bgez"
  | bgtz => "bgtz"
  | blez => "blez"
  | bltz => "bltz"
  | bgezal => "bgezal"
  | bltzal => "bltzal"

end BranchOp

namespace MemOp

def all : List MemOp := [lw, lh, lhu, lb, lbu, sw, sh, sb, lwc1, swc1, ldc1, sdc1]

def name : MemOp → String
  | lw => "lw"
  | lh => "lh"
  | lhu => "lhu"
  | lb => "lb"
  | lbu => "lbu"
  | sw => "sw"
  | sh => "sh"
  | sb => "sb"
  | lwc1 => "lwc1"
  | swc1 => "swc1"
  | ldc1 => "ldc1"
  | sdc1 => "sdc1"

def dottedName? : MemOp → Option String
  | lwc1 => some "l.s"
  | swc1 => some "s.s"
  | ldc1 => some "l.d"
  | sdc1 => some "s.d"
  | _ => none

end MemOp

namespace Precision

def all : List Precision := [single, double]

def suffix : Precision → String
  | single => "s"
  | double => "d"

end Precision

namespace NumberFormat

def all : List NumberFormat := [single, double, word]

def suffix : NumberFormat → String
  | single => "s"
  | double => "d"
  | word => "w"

end NumberFormat

namespace FloatOp

def all : List FloatOp := [add, sub, mul, div]

def stem : FloatOp → String
  | add => "add"
  | sub => "sub"
  | mul => "mul"
  | div => "div"

end FloatOp

namespace FloatUnary

def all : List FloatUnary := [abs, neg, sqrt, mov]

def stem : FloatUnary → String
  | abs => "abs"
  | neg => "neg"
  | sqrt => "sqrt"
  | mov => "mov"

end FloatUnary

namespace Cond

def all : List Cond := [eq, lt, le]

def stem : Cond → String
  | eq => "c.eq"
  | lt => "c.lt"
  | le => "c.le"

end Cond

def roundModes : List RoundMode := [.ceil, .floor, .round, .trunc]

def roundStem : RoundMode → String
  | .ceil => "ceil"
  | .floor => "floor"
  | .round => "round"
  | .trunc => "trunc"

inductive Relation where
  | lt | gt | le | ge
  deriving DecidableEq

inductive SetRelation where
  | gt (unsigned : Bool)
  | ge (unsigned : Bool)
  | le (unsigned : Bool)
  | eq
  | ne
  deriving DecidableEq

inductive Mnemonic where
  | reg (op : RegOp)
  | imm (op : ImmOp)
  | hiLo (op : HiLoOp)
  | mem (op : MemOp)
  | dottedMem (op : MemOp)
  | branch (op : BranchOp)
  | compare (cond : Cond) (fmt : Precision)
  | convert (target source : NumberFormat)
  | floatToWord (mode : RoundMode) (fmt : Precision)
  | floatArith (op : FloatOp) (fmt : Precision)
  | floatUnary (op : FloatUnary) (fmt : Precision)
  | floatMoveIf (nonzero : Bool) (fmt : Precision)
  | floatMoveOnFlag (expected : Bool) (fmt : Precision)
  | nop
  | syscall
  | breakpoint
  | lui
  | count (op : CountOp)
  | hiLoMove (op : HiLoMove)
  | jump (link : Bool)
  | jr
  | jalr
  | branchFlag (expected : Bool)
  | moveWord (toFloat : Bool)
  | moveOnFlag (expected : Bool)
  | li
  | la
  | move
  | neg
  | negu
  | not
  | abs
  | b
  | branchZero (equal : Bool)
  | branchRelation (relation : Relation) (unsigned : Bool)
  | setRelation (relation : SetRelation)
  | rem (unsigned : Bool)
  | subi (unsigned : Bool)
  deriving DecidableEq

namespace Mnemonic

def unsignedMark (unsigned : Bool) : String := if unsigned then "u" else ""

def name : Mnemonic → String
  | reg op => op.name
  | imm op => op.name
  | hiLo op => op.name
  | mem op => op.name
  | dottedMem op => op.dottedName?.getD op.name
  | branch op => op.name
  | compare cond fmt => cond.stem ++ "." ++ fmt.suffix
  | convert target source => "cvt." ++ target.suffix ++ "." ++ source.suffix
  | floatToWord mode fmt => roundStem mode ++ ".w." ++ fmt.suffix
  | floatArith op fmt => op.stem ++ "." ++ fmt.suffix
  | floatUnary op fmt => op.stem ++ "." ++ fmt.suffix
  | floatMoveIf nonzero fmt => (if nonzero then "movn." else "movz.") ++ fmt.suffix
  | floatMoveOnFlag expected fmt => (if expected then "movt." else "movf.") ++ fmt.suffix
  | nop => "nop"
  | syscall => "syscall"
  | breakpoint => "break"
  | lui => "lui"
  | count op => op.name
  | hiLoMove op => op.name
  | jump link => if link then "jal" else "j"
  | jr => "jr"
  | jalr => "jalr"
  | branchFlag expected => if expected then "bc1t" else "bc1f"
  | moveWord toFloat => if toFloat then "mtc1" else "mfc1"
  | moveOnFlag expected => if expected then "movt" else "movf"
  | li => "li"
  | la => "la"
  | move => "move"
  | neg => "neg"
  | negu => "negu"
  | not => "not"
  | abs => "abs"
  | b => "b"
  | branchZero equal => if equal then "beqz" else "bnez"
  | branchRelation .lt unsigned => "blt" ++ unsignedMark unsigned
  | branchRelation .gt unsigned => "bgt" ++ unsignedMark unsigned
  | branchRelation .le unsigned => "ble" ++ unsignedMark unsigned
  | branchRelation .ge unsigned => "bge" ++ unsignedMark unsigned
  | setRelation (.gt unsigned) => "sgt" ++ unsignedMark unsigned
  | setRelation (.ge unsigned) => "sge" ++ unsignedMark unsigned
  | setRelation (.le unsigned) => "sle" ++ unsignedMark unsigned
  | setRelation .eq => "seq"
  | setRelation .ne => "sne"
  | rem unsigned => "rem" ++ unsignedMark unsigned
  | subi unsigned => if unsigned then "subiu" else "subi"

def bools : List Bool := [false, true]

def all : List Mnemonic :=
  RegOp.all.map reg ++ ImmOp.all.map imm ++ HiLoOp.all.map hiLo ++ MemOp.all.map mem ++
  (MemOp.all.filter MemOp.isFloat).map dottedMem ++ BranchOp.all.map branch ++
  Cond.all.flatMap (fun c => Precision.all.map (compare c)) ++
  NumberFormat.all.flatMap (fun t =>
    (NumberFormat.all.filter (· ≠ t)).map (convert t)) ++
  roundModes.flatMap (fun m => Precision.all.map (floatToWord m)) ++
  FloatOp.all.flatMap (fun op => Precision.all.map (floatArith op)) ++
  FloatUnary.all.flatMap (fun op => Precision.all.map (floatUnary op)) ++
  bools.flatMap (fun n => Precision.all.map (floatMoveIf n)) ++
  bools.flatMap (fun w => Precision.all.map (floatMoveOnFlag w)) ++
  [nop, syscall, breakpoint, lui] ++ CountOp.all.map count ++ HiLoMove.all.map hiLoMove ++
  bools.map jump ++ [jr, jalr] ++ bools.map branchFlag ++ bools.map moveWord ++
  bools.map moveOnFlag ++ [li, la, move, neg, negu, not, abs, b] ++ bools.map branchZero ++
  [Relation.lt, .gt, .le, .ge].flatMap (fun r => bools.map (branchRelation r)) ++
  bools.flatMap (fun u => [.gt u, .ge u, .le u].map setRelation) ++
  [setRelation .eq, setRelation .ne] ++ bools.map rem ++ bools.map subi

def ofName? (name : String) : Option Mnemonic := all.find? (·.name = name)

end Mnemonic

end MipsLab
