import MipsLab.Machine.Fault

/-! Integer operations on 32-bit words. Addition and subtraction of signed numbers fault on
overflow, division faults on zero; everything else wraps. -/
namespace MipsLab.Alu

def addSigned (a b : Word) : Except Fault Word :=
  if a.saddOverflow b then .error .arithmeticOverflow else .ok (a + b)

def subSigned (a b : Word) : Except Fault Word :=
  if a.ssubOverflow b then .error .arithmeticOverflow else .ok (a - b)

def bit (b : Bool) : Word := if b then 1 else 0

/-- Shift amounts count modulo 32. -/
def amount (w : Word) : Nat := w.toNat % 32

/-- The value of a three-register operation. A conditional move delivers its first source; whether
it is written is the caller's decision. -/
def reg (op : RegOp) (a b : Word) : Except Fault Word :=
  match op with
  | .add => addSigned a b
  | .addu => .ok (a + b)
  | .sub => subSigned a b
  | .subu => .ok (a - b)
  | .and => .ok (a &&& b)
  | .or => .ok (a ||| b)
  | .xor => .ok (a ^^^ b)
  | .nor => .ok (~~~(a ||| b))
  | .slt => .ok (bit (a.slt b))
  | .sltu => .ok (bit (a.ult b))
  | .sllv => .ok (a <<< amount b)
  | .srlv => .ok (a >>> amount b)
  | .srav => .ok (a.sshiftRight (amount b))
  | .mul => .ok (a * b)
  | .movn | .movz => .ok a

/-- The value of an operation with a constant. Logical operations use its low half without a
sign. -/
def imm (op : ImmOp) (a value : Word) : Except Fault Word :=
  let low := value &&& 0xFFFF
  match op with
  | .addi => addSigned a value
  | .addiu => .ok (a + value)
  | .slti => .ok (bit (a.slt value))
  | .sltiu => .ok (bit (a.ult value))
  | .andi => .ok (a &&& low)
  | .ori => .ok (a ||| low)
  | .xori => .ok (a ^^^ low)
  | .sll => .ok (a <<< amount value)
  | .srl => .ok (a >>> amount value)
  | .sra => .ok (a.sshiftRight (amount value))

structure HiLo where
  hi : Word
  lo : Word
  deriving DecidableEq, Inhabited

def HiLo.join (h : HiLo) : BitVec 64 := h.hi ++ h.lo

def HiLo.split (acc : BitVec 64) : HiLo := ⟨acc.extractLsb' 32 32, acc.setWidth 32⟩

/-- The new halves after a multiplication or division. The accumulating forms read the old ones;
division leaves the remainder in `hi` and the quotient in `lo`. -/
def hiLo (op : HiLoOp) (a b : Word) (old : HiLo) : Except Fault HiLo :=
  let signed := a.signExtend 64 * b.signExtend 64
  let unsigned := a.setWidth 64 * b.setWidth 64
  match op with
  | .mult => .ok (HiLo.split signed)
  | .multu => .ok (HiLo.split unsigned)
  | .madd => .ok (HiLo.split (old.join + signed))
  | .maddu => .ok (HiLo.split (old.join + unsigned))
  | .msub => .ok (HiLo.split (old.join - signed))
  | .msubu => .ok (HiLo.split (old.join - unsigned))
  | .div => if b = 0 then .error .divideByZero else .ok ⟨a.srem b, a.sdiv b⟩
  | .divu => if b = 0 then .error .divideByZero else .ok ⟨a.umod b, a.udiv b⟩

def count (op : CountOp) (a : Word) : Word :=
  match op with
  | .clo => (~~~a).clz
  | .clz => a.clz

def taken (op : BranchOp) (a b : Word) : Bool :=
  match op with
  | .beq => a == b
  | .bne => a != b
  | .bgez | .bgezal => !a.slt 0
  | .bgtz => (0 : Word).slt a
  | .blez => !(0 : Word).slt a
  | .bltz | .bltzal => a.slt 0

end MipsLab.Alu
