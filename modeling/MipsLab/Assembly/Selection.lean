import MipsLab.Assembly.Error

/-! Selection of the basic instructions for a mnemonic and its operands. A line in the native
shape of a basic instruction stands for that instruction; any other accepted line expands to a
fixed sequence that uses `$at` for intermediate values. How many instructions a line expands to
never depends on the address of a label. -/
namespace MipsLab

open Register (zero at1 ra)

abbrev Labels := String → Option Word

/-- Every label at address zero, for measuring lines before labels are placed. -/
def unplaced : Labels := fun _ => some 0

structure Expansion where
  instrs : List Instruction
  pseudo : Bool
  deriving DecidableEq

abbrev Selected := Except AssemblyError Expansion

namespace Selection

def basic (i : Instruction) : Selected := .ok ⟨[i], false⟩

def pseudo (is : List Instruction) : Selected := .ok ⟨is, true⟩

def wrong {α : Type} (m : Mnemonic) (expected : String) : Except AssemblyError α :=
  .error (.wrongOperands m.name expected)

def outOfRange {α : Type} (m : Mnemonic) (v : Int) : Except AssemblyError α :=
  .error (.immediateOutOfRange m.name v)

abbrev fitsSigned16 (v : Int) : Prop := -0x8000 ≤ v ∧ v < 0x8000

abbrev fitsUnsigned16 (v : Int) : Prop := 0 ≤ v ∧ v < 0x10000

/-- The integers that a 32-bit word can hold, signed or unsigned. -/
abbrev fitsWord (v : Int) : Prop := -0x80000000 ≤ v ∧ v < 0x100000000

abbrev fitsShift (v : Int) : Prop := 0 ≤ v ∧ v < 32

def word (v : Int) : Word := BitVec.ofInt 32 v

def upperHalf (w : Word) : BitVec 16 := w.extractLsb' 16 16

def lowerHalf (w : Word) : BitVec 16 := w.setWidth 16

/-- Loads a constant: one instruction if sixteen bits suffice, two otherwise. -/
def loadConstant (m : Mnemonic) (rd : Reg) (v : Int) : Except AssemblyError (List Instruction) :=
  if ¬ fitsWord v then outOfRange m v
  else if fitsUnsigned16 v then .ok [.imm .ori rd zero v]
  else if fitsSigned16 v then .ok [.imm .addiu rd zero v]
  else .ok [.lui at1 (upperHalf (word v)), .imm .ori rd at1 (lowerHalf (word v)).toNat]

def labelAddress (labels : Labels) (name : String) (offset : Int) : Except AssemblyError Word :=
  match labels name with
  | some address => .ok (address + word offset)
  | none => .error (.undefinedLabel name)

def target (m : Mnemonic) (labels : Labels) : Operand → Except AssemblyError Target
  | .label name offset => do
    let address ← labelAddress labels name offset
    return ⟨address, some name⟩
  | .int v => if fitsWord v then .ok ⟨word v, none⟩ else wrong m "a label or address target"
  | _ => wrong m "a label or address target"

def flag (m : Mnemonic) (v : Int) : Except AssemblyError Flag :=
  if h : v.toNat < 8 ∧ 0 ≤ v then .ok ⟨v.toNat, h.1⟩ else outOfRange m v

/-- The register that holds the right-hand operand of a comparison, and the instructions that put
a constant there. -/
def rightHand (m : Mnemonic) : Operand → Except AssemblyError (List Instruction × Reg)
  | .gpr rt => .ok ([], rt)
  | .int v => do
    let load ← loadConstant m at1 v
    return (load, at1)
  | _ => wrong m "rd, rs, rt or rd, rs, imm"

/-- The instruction with a constant that does the work of a three-register operation. -/
def immediateForm (op : RegOp) (v : Int) : Option ImmOp :=
  match op with
  | .add => if fitsSigned16 v then some .addi else none
  | .addu => if fitsSigned16 v then some .addiu else none
  | .and => if fitsUnsigned16 v then some .andi else none
  | .or => if fitsUnsigned16 v then some .ori else none
  | .xor => if fitsUnsigned16 v then some .xori else none
  | .slt => if fitsSigned16 v then some .slti else none
  | .sltu => if fitsSigned16 v then some .sltiu else none
  | .sllv => if fitsShift v then some .sll else none
  | .srlv => if fitsShift v then some .srl else none
  | .srav => if fitsShift v then some .sra else none
  | _ => none

def selectReg (op : RegOp) (ops : List Operand) : Selected :=
  let m := Mnemonic.reg op
  match ops with
  | [.gpr rd, .gpr rs, .gpr rt] => basic (.reg op rd rs rt)
  | [.gpr rd, .gpr rs, .int v] =>
    if op = .movn ∨ op = .movz then wrong m "rd, rs, rt"
    else
      match immediateForm op v with
      | some imm => pseudo [.imm imm rd rs v]
      | none => do
        let load ← loadConstant m at1 v
        pseudo (load ++ [.reg op rd rs at1])
  | _ => wrong m "rd, rs, rt"

/-- The three-register operation that does the work of an instruction with a constant. -/
def registerForm : ImmOp → RegOp
  | .addi => .add
  | .addiu => .addu
  | .slti => .slt
  | .sltiu => .sltu
  | .andi => .and
  | .ori => .or
  | .xori => .xor
  | .sll => .sllv
  | .srl => .srlv
  | .sra => .srav

def immediateFits (op : ImmOp) (v : Int) : Bool :=
  if op.isLogical then fitsUnsigned16 v else fitsSigned16 v

def selectConstant (op : ImmOp) (rt rs : Reg) (v : Int) : Selected :=
  let m := Mnemonic.imm op
  if immediateFits op v then basic (.imm op rt rs v)
  else do
    let load ← loadConstant m at1 v
    pseudo (load ++ [.reg (registerForm op) rt rs at1])

def selectImm (op : ImmOp) (ops : List Operand) : Selected :=
  let m := Mnemonic.imm op
  match ops with
  | [.gpr rt, .gpr rs, .int v] => selectConstant op rt rs v
  | [.gpr rt, .int v] => do
    let e ← selectConstant op rt rt v
    return { e with pseudo := true }
  | _ => wrong m "rt, rs, imm"

def selectShift (op : ImmOp) (ops : List Operand) : Selected :=
  let m := Mnemonic.imm op
  match ops with
  | [.gpr rd, .gpr rt, .int v] =>
    if fitsShift v then basic (.imm op rd rt v) else outOfRange m v
  | [.gpr rd, .gpr rt, .gpr rs] => pseudo [.reg (registerForm op) rd rt rs]
  | _ => wrong m "rd, rt, shamt"

def selectHiLo (op : HiLoOp) (ops : List Operand) : Selected :=
  let m := Mnemonic.hiLo op
  let divides := op = .div ∨ op = .divu
  match ops with
  | [.gpr rs, .gpr rt] => basic (.hiLo op rs rt)
  | [.gpr rd, .gpr rs, right] =>
    if divides then do
      let (load, rt) ← rightHand m right
      pseudo (load ++ [.hiLo op rs rt, .hiLoMove .mflo rd])
    else wrong m "rs, rt"
  | _ => wrong m (if divides then "rs, rt or rd, rs, rt" else "rs, rt")

/-- An access at an absolute address, or at an address above a base register. The lower half of
the address becomes a signed displacement, so that a carry moves into the upper half. -/
def wideAccess (op : MemOp) (data : Fin 32) (address : Word) (base : Option Reg) :
    List Instruction :=
  let upper := Instruction.lui at1 (upperHalf (address + 0x8000))
  let access := Instruction.mem op data at1 (lowerHalf address).toInt
  match base with
  | some b => [upper, .reg .addu at1 at1 b, access]
  | none => [upper, access]

def selectAccess (m : Mnemonic) (op : MemOp) (data : Fin 32) (place : Operand) (labels : Labels) :
    Selected :=
  match place with
  | .mem none offset base =>
    if fitsSigned16 offset then basic (.mem op data base offset)
    else if fitsWord offset then pseudo (wideAccess op data (word offset) (some base))
    else outOfRange m offset
  | .mem (some name) offset base => do
    let address ← labelAddress labels name offset
    pseudo (wideAccess op data address (some base))
  | .label name offset => do
    let address ← labelAddress labels name offset
    pseudo (wideAccess op data address none)
  | .int v =>
    if fitsSigned16 v then pseudo [.mem op data zero v]
    else if fitsWord v then pseudo (wideAccess op data (word v) none)
    else outOfRange m v
  | .gpr _ | .fpr _ => wrong m "reg, offset(base)"

def selectMem (m : Mnemonic) (op : MemOp) (ops : List Operand) (labels : Labels) : Selected :=
  match ops with
  | [.fpr f, place] =>
    if op.isFloat then selectAccess m op f place labels
    else wrong m "rt, offset(base) or rt, label"
  | [.gpr r, place] =>
    if op.isFloat then wrong m "ft, offset(base) or ft, label"
    else selectAccess m op r place labels
  | _ =>
    wrong m
      (if op.isFloat then "ft, offset(base) or ft, label" else "rt, offset(base) or rt, label")

def selectBranch (op : BranchOp) (ops : List Operand) (labels : Labels) : Selected :=
  let m := Mnemonic.branch op
  if op.comparesRegisters then
    match ops with
    | [.gpr rs, .gpr rt, place] => do
      let t ← target m labels place
      basic (.branch op rs rt t)
    | [.gpr rs, .int v, place] => do
      let load ← loadConstant m at1 v
      let t ← target m labels place
      pseudo (load ++ [.branch op rs at1 t])
    | _ => wrong m "rs, rt, label"
  else
    match ops with
    | [.gpr rs, place] => do
      let t ← target m labels place
      basic (.branch op rs zero t)
    | _ => wrong m "rs, label"

def selectCompare (cond : Cond) (fmt : Precision) (ops : List Operand) : Selected :=
  let m := Mnemonic.compare cond fmt
  match ops with
  | [.fpr fs, .fpr ft] => basic (.compare cond fmt Flag.unnamed fs ft)
  | [.int c, .fpr fs, .fpr ft] => do
    let i ← flag m c
    basic (.compare cond fmt i fs ft)
  | _ => wrong m "[flag,] fs, ft"

def selectFloatPair (m : Mnemonic) (make : FReg → FReg → Instruction) (ops : List Operand) :
    Selected :=
  match ops with
  | [.fpr fd, .fpr fs] => basic (make fd fs)
  | _ => wrong m "fd, fs"

def selectFloatArith (op : FloatOp) (fmt : Precision) (ops : List Operand) : Selected :=
  match ops with
  | [.fpr fd, .fpr fs, .fpr ft] => basic (.floatArith op fmt fd fs ft)
  | _ => wrong (.floatArith op fmt) "fd, fs, ft"

def selectFloatMoveIf (nonzero : Bool) (fmt : Precision) (ops : List Operand) : Selected :=
  match ops with
  | [.fpr fd, .fpr fs, .gpr rt] => basic (.floatMoveIf nonzero fmt fd fs rt)
  | _ => wrong (.floatMoveIf nonzero fmt) "fd, fs, rt"

def selectFloatMoveOnFlag (expected : Bool) (fmt : Precision) (ops : List Operand) : Selected :=
  let m := Mnemonic.floatMoveOnFlag expected fmt
  match ops with
  | [.fpr fd, .fpr fs] => basic (.floatMoveOnFlag expected fmt fd fs Flag.unnamed)
  | [.fpr fd, .fpr fs, .int c] => do
    let i ← flag m c
    basic (.floatMoveOnFlag expected fmt fd fs i)
  | _ => wrong m "fd, fs[, flag]"

def selectBare (m : Mnemonic) (i : Instruction) (ops : List Operand) : Selected :=
  match ops with
  | [] => basic i
  | _ => wrong m "no operands"

def selectBreakpoint (ops : List Operand) : Selected :=
  match ops with
  | [] => basic (.breakpoint 0)
  | [.int code] =>
    if fitsWord code then basic (.breakpoint (word code)) else wrong .breakpoint "[code]"
  | _ => wrong .breakpoint "[code]"

def selectLui (ops : List Operand) : Selected :=
  match ops with
  | [.gpr rt, .int v] =>
    if fitsUnsigned16 v ∨ fitsSigned16 v then basic (.lui rt (lowerHalf (word v)))
    else outOfRange .lui v
  | _ => wrong .lui "rt, imm"

def selectPair (m : Mnemonic) (make : Reg → Reg → Selected) (ops : List Operand) : Selected :=
  match ops with
  | [.gpr rd, .gpr rs] => make rd rs
  | _ => wrong m "rd, rs"

def selectHiLoMove (op : HiLoMove) (ops : List Operand) : Selected :=
  match ops with
  | [.gpr r] => basic (.hiLoMove op r)
  | _ => wrong (.hiLoMove op) "rd"

def selectGoto (m : Mnemonic) (make : Target → Selected) (ops : List Operand) (labels : Labels) :
    Selected :=
  match ops with
  | [place] => do
    let t ← target m labels place
    make t
  | _ => wrong m "label"

def selectJumpReg (ops : List Operand) : Selected :=
  match ops with
  | [.gpr rs] => basic (.jumpReg none rs)
  | _ => wrong .jr "rs"

def selectCallReg (ops : List Operand) : Selected :=
  match ops with
  | [.gpr rs] => basic (.jumpReg (some ra) rs)
  | [.gpr rd, .gpr rs] => basic (.jumpReg (some rd) rs)
  | _ => wrong .jalr "[rd,] rs"

def selectBranchFlag (expected : Bool) (ops : List Operand) (labels : Labels) : Selected :=
  let m := Mnemonic.branchFlag expected
  match ops with
  | [place] => do
    let t ← target m labels place
    basic (.branchFlag expected Flag.unnamed t)
  | [.int c, place] => do
    let i ← flag m c
    let t ← target m labels place
    basic (.branchFlag expected i t)
  | _ => wrong m "[flag,] label"

def selectMoveWord (toFloat : Bool) (ops : List Operand) : Selected :=
  match ops with
  | [.gpr rt, .fpr fs] => basic (.moveWord toFloat rt fs)
  | _ => wrong (.moveWord toFloat) "rt, fs"

def selectMoveOnFlag (expected : Bool) (ops : List Operand) : Selected :=
  let m := Mnemonic.moveOnFlag expected
  match ops with
  | [.gpr rd, .gpr rs] => basic (.moveOnFlag expected rd rs Flag.unnamed)
  | [.gpr rd, .gpr rs, .int c] => do
    let i ← flag m c
    basic (.moveOnFlag expected rd rs i)
  | _ => wrong m "rd, rs[, flag]"

def selectLi (ops : List Operand) : Selected :=
  match ops with
  | [.gpr rd, .int v] => do
    let load ← loadConstant .li rd v
    pseudo load
  | _ => wrong .li "rd, imm"

/-- Puts an address into a register: both halves without a sign. -/
def loadAddress (rd : Reg) (address : Word) : List Instruction :=
  [.lui at1 (upperHalf address), .imm .ori rd at1 (lowerHalf address).toNat]

def selectLa (ops : List Operand) (labels : Labels) : Selected :=
  match ops with
  | [.gpr rd, .label name offset] => do
    let address ← labelAddress labels name offset
    pseudo (loadAddress rd address)
  | [.gpr rd, .int v] => do
    let load ← loadConstant .la rd v
    pseudo load
  | [.gpr rd, .mem none offset base] =>
    if fitsSigned16 offset then pseudo [.imm .addi rd base offset]
    else if fitsWord offset then
      pseudo (loadAddress at1 (word offset) ++ [.reg .addu rd at1 base])
    else outOfRange .la offset
  | [.gpr rd, .mem (some name) offset base] => do
    let address ← labelAddress labels name offset
    pseudo (loadAddress at1 address ++ [.reg .addu rd at1 base])
  | _ => wrong .la "rd, label"

/-- A pseudo-instruction with one source, which is the destination when left out. -/
def selectUnary (m : Mnemonic) (make : Reg → Reg → Instruction) (ops : List Operand) : Selected :=
  match ops with
  | [.gpr rd, .gpr rs] => pseudo [make rd rs]
  | [.gpr rd] => pseudo [make rd rd]
  | _ => wrong m "rd, rs"

def selectBranchZero (equal : Bool) (ops : List Operand) (labels : Labels) : Selected :=
  let m := Mnemonic.branchZero equal
  match ops with
  | [.gpr rs, place] => do
    let t ← target m labels place
    pseudo [.branch (if equal then .beq else .bne) rs zero t]
  | _ => wrong m "rs, label"

def lessThan (unsigned : Bool) : RegOp := if unsigned then .sltu else .slt

/-- A branch on a comparison: less-than into `$at`, then a branch on `$at`. -/
def selectBranchRelation (relation : Relation) (unsigned : Bool) (ops : List Operand)
    (labels : Labels) : Selected :=
  let m := Mnemonic.branchRelation relation unsigned
  match ops with
  | [.gpr rs, right, place] => do
    let (load, rt) ← rightHand m right
    let t ← target m labels place
    let (a, b, whenSet) := match relation with
      | .lt => (rs, rt, true)
      | .gt => (rt, rs, true)
      | .le => (rt, rs, false)
      | .ge => (rs, rt, false)
    pseudo (load ++ [.reg (lessThan unsigned) at1 a b,
      .branch (if whenSet then .bne else .beq) at1 zero t])
  | _ => wrong m "rs, rt, label"

def selectSetRelation (relation : SetRelation) (ops : List Operand) : Selected :=
  let m := Mnemonic.setRelation relation
  match ops with
  | [.gpr rd, .gpr rs, right] => do
    let (load, rt) ← rightHand m right
    pseudo (load ++ match relation with
      | .gt unsigned => [.reg (lessThan unsigned) rd rt rs]
      | .ge unsigned => [.reg (lessThan unsigned) rd rs rt, .imm .xori rd rd 1]
      | .le unsigned => [.reg (lessThan unsigned) rd rt rs, .imm .xori rd rd 1]
      | .eq => [.reg .subu rd rs rt, .imm .sltiu rd rd 1]
      | .ne => [.reg .subu rd rs rt, .reg .sltu rd zero rd])
  | _ => wrong m "rd, rs, rt"

def selectRem (unsigned : Bool) (ops : List Operand) : Selected :=
  let m := Mnemonic.rem unsigned
  match ops with
  | [.gpr rd, .gpr rs, right] => do
    let (load, rt) ← rightHand m right
    pseudo (load ++ [.hiLo (if unsigned then .divu else .div) rs rt, .hiLoMove .mfhi rd])
  | _ => wrong m "rd, rs, rt"

def selectSubi (unsigned : Bool) (ops : List Operand) : Selected :=
  let m := Mnemonic.subi unsigned
  match ops with
  | [.gpr rd, .gpr rs, .int v] =>
    if fitsSigned16 (-v) then pseudo [.imm (if unsigned then .addiu else .addi) rd rs (-v)]
    else do
      let load ← loadConstant m at1 v
      pseudo (load ++ [.reg (if unsigned then .subu else .sub) rd rs at1])
  | _ => wrong m "rd, rs, imm"

def select (m : Mnemonic) (ops : List Operand) (labels : Labels) : Selected :=
  match m with
  | .reg op => selectReg op ops
  | .imm op => if op.isShift then selectShift op ops else selectImm op ops
  | .hiLo op => selectHiLo op ops
  | .mem op => selectMem m op ops labels
  | .dottedMem op => do
    let e ← selectMem m op ops labels
    return { e with pseudo := true }
  | .branch op => selectBranch op ops labels
  | .compare cond fmt => selectCompare cond fmt ops
  | .convert target source => selectFloatPair m (.convert target source) ops
  | .floatToWord mode fmt => selectFloatPair m (.floatToWord mode fmt) ops
  | .floatArith op fmt => selectFloatArith op fmt ops
  | .floatUnary op fmt => selectFloatPair m (.floatUnary op fmt) ops
  | .floatMoveIf nonzero fmt => selectFloatMoveIf nonzero fmt ops
  | .floatMoveOnFlag expected fmt => selectFloatMoveOnFlag expected fmt ops
  | .nop => selectBare m .nop ops
  | .syscall => selectBare m .syscall ops
  | .breakpoint => selectBreakpoint ops
  | .lui => selectLui ops
  | .count op => selectPair m (fun rd rs => basic (.count op rd rs)) ops
  | .hiLoMove op => selectHiLoMove op ops
  | .jump link => selectGoto m (fun t => basic (.jump link t)) ops labels
  | .jr => selectJumpReg ops
  | .jalr => selectCallReg ops
  | .branchFlag expected => selectBranchFlag expected ops labels
  | .moveWord toFloat => selectMoveWord toFloat ops
  | .moveOnFlag expected => selectMoveOnFlag expected ops
  | .li => selectLi ops
  | .la => selectLa ops labels
  | .move => selectPair m (fun rd rs => pseudo [.reg .addu rd zero rs]) ops
  | .neg => selectUnary m (fun rd rs => .reg .sub rd zero rs) ops
  | .negu => selectUnary m (fun rd rs => .reg .subu rd zero rs) ops
  | .not => selectUnary m (fun rd rs => .reg .nor rd rs zero) ops
  | .abs =>
    selectPair m
      (fun rd rs => pseudo [.imm .sra at1 rs 31, .reg .xor rd at1 rs, .reg .subu rd rd at1]) ops
  | .b => selectGoto m (fun t => pseudo [.branch .beq zero zero t]) ops labels
  | .branchZero equal => selectBranchZero equal ops labels
  | .branchRelation relation unsigned => selectBranchRelation relation unsigned ops labels
  | .setRelation relation => selectSetRelation relation ops
  | .rem unsigned => selectRem unsigned ops
  | .subi unsigned => selectSubi unsigned ops

end Selection

/-- The operands that tokens stand for, or the error of the first token that is none. -/
def operands (args : List String) : Except AssemblyError (List Operand) :=
  args.mapM fun token => (Operand.ofToken token.toList).mapError AssemblyError.ofOperand

/-- The basic instructions for an instruction name, in any case, and its operand tokens. All
operands are classified before the name is looked up. -/
def expand (name : String) (args : List String) (labels : Labels) : Selected := do
  let ops ← operands args
  match Mnemonic.ofName? name.toLower with
  | none => .error (.unknownInstruction name.toLower)
  | some m => Selection.select m ops labels

end MipsLab
