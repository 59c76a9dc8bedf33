import MipsLab.Proofs.Assembly.Expansion
import MipsLab.Proofs.Assembly.Fields
import MipsLab.Proofs.Source.Spelling
import Mathlib

/-! Instructions that are read back. The text of an instruction is a mnemonic and operands; from
these the same instruction is selected again. -/
namespace MipsLab

open Selection (fitsSigned16)

namespace Target

/-- The operand that a target is written as. -/
def operand (t : Target) : Operand :=
  match t.label with
  | some name => .label name 0
  | none => .int t.address.toNat

end Target

namespace Instruction

/-- The mnemonic that an instruction is written with. -/
def mnemonic : Instruction → Mnemonic
  | reg op .. => .reg op
  | imm op .. => .imm op
  | lui .. => .lui
  | hiLo op .. => .hiLo op
  | count op .. => .count op
  | hiLoMove op _ => .hiLoMove op
  | jump link _ => .jump link
  | jumpReg none _ => .jr
  | jumpReg (some _) _ => .jalr
  | branch op .. => .branch op
  | floatArith op fmt .. => .floatArith op fmt
  | floatUnary op fmt .. => .floatUnary op fmt
  | floatToWord mode fmt .. => .floatToWord mode fmt
  | convert target source .. => .convert target source
  | compare cond fmt .. => .compare cond fmt
  | branchFlag expected .. => .branchFlag expected
  | moveWord toFloat .. => .moveWord toFloat
  | floatMoveIf nonzero fmt .. => .floatMoveIf nonzero fmt
  | moveOnFlag expected .. => .moveOnFlag expected
  | floatMoveOnFlag expected fmt .. => .floatMoveOnFlag expected fmt
  | mem op .. => .mem op
  | nop => .nop
  | syscall => .syscall
  | breakpoint _ => .breakpoint

/-- The operands that an instruction is written with. -/
def operands : Instruction → List Operand
  | reg _ rd rs rt => [.gpr rd, .gpr rs, .gpr rt]
  | imm _ rt rs value => [.gpr rt, .gpr rs, .int value]
  | lui rt upper => [.gpr rt, .int upper.toNat]
  | hiLo _ rs rt => [.gpr rs, .gpr rt]
  | count _ rd rs => [.gpr rd, .gpr rs]
  | hiLoMove _ r => [.gpr r]
  | jump _ t => [t.operand]
  | jumpReg none rs => [.gpr rs]
  | jumpReg (some rd) rs => if rd = Register.ra then [.gpr rs] else [.gpr rd, .gpr rs]
  | branch op rs rt t =>
    if op.comparesRegisters then [.gpr rs, .gpr rt, t.operand] else [.gpr rs, t.operand]
  | floatArith _ _ fd fs ft => [.fpr fd, .fpr fs, .fpr ft]
  | floatUnary _ _ fd fs | floatToWord _ _ fd fs | convert _ _ fd fs => [.fpr fd, .fpr fs]
  | compare _ _ flag fs ft => [.int flag.val, .fpr fs, .fpr ft]
  | branchFlag _ flag t => [.int flag.val, t.operand]
  | moveWord _ rt fs => [.gpr rt, .fpr fs]
  | floatMoveIf _ _ fd fs rt => [.fpr fd, .fpr fs, .gpr rt]
  | moveOnFlag _ rd rs flag => [.gpr rd, .gpr rs, .int flag.val]
  | floatMoveOnFlag _ _ fd fs flag => [.fpr fd, .fpr fs, .int flag.val]
  | mem op data base offset =>
    [if op.isFloat then .fpr data else .gpr data, .mem none offset base]
  | nop | syscall => []
  | breakpoint code => if code = 0 then [] else [.int code.toNat]

/-- The tokens that these operands are written as. -/
def tokens (i : Instruction) : List String :=
  let r (i : Reg) := Register.text i.val
  let f (i : FReg) := Register.floatText i.val
  match i with
  | reg _ rd rs rt => [r rd, r rs, r rt]
  | imm op rt rs value =>
    [r rt, r rs, if op.isLogical then hexWord (BitVec.ofInt 32 value) else toString value]
  | lui rt upper => [r rt, hexWord (upper.setWidth 32)]
  | hiLo _ rs rt => [r rs, r rt]
  | count _ rd rs => [r rd, r rs]
  | hiLoMove _ rd => [r rd]
  | jump _ t => [t.text]
  | jumpReg none rs => [r rs]
  | jumpReg (some rd) rs => if rd = Register.ra then [r rs] else [r rd, r rs]
  | branch op rs rt t => if op.comparesRegisters then [r rs, r rt, t.text] else [r rs, t.text]
  | floatArith _ _ fd fs ft => [f fd, f fs, f ft]
  | floatUnary _ _ fd fs | floatToWord _ _ fd fs | convert _ _ fd fs => [f fd, f fs]
  | compare _ _ flag fs ft => [toString flag.val, f fs, f ft]
  | branchFlag _ flag t => [toString flag.val, t.text]
  | moveWord _ rt fs => [r rt, f fs]
  | floatMoveIf _ _ fd fs rt => [f fd, f fs, r rt]
  | moveOnFlag _ rd rs flag => [r rd, r rs, toString flag.val]
  | floatMoveOnFlag _ _ fd fs flag => [f fd, f fs, toString flag.val]
  | mem op data base offset =>
    [if op.isFloat then f data else r data,
      hexWord (BitVec.ofInt 32 offset) ++ "(" ++ r base ++ ")"]
  | nop | syscall => []
  | breakpoint code => if code = 0 then [] else [toString code.toNat]

theorem text_eq (i : Instruction) : i.text = line i.mnemonic.name i.tokens := by
  cases i with
  | jumpReg link rs =>
    cases link with
    | none => rfl
    | some rd =>
      simp only [text, tokens]
      split <;> rfl
  | branch op rs rt t =>
    simp only [text, tokens]
    split <;> rfl
  | breakpoint code =>
    simp only [text, tokens]
    split <;> rfl
  | mem op data base offset =>
    simp only [text, tokens]
    rw [String.append_assoc, String.append_assoc]
    rfl
  | _ => rfl

/-- The last token of an instruction with a target shows the target. -/
theorem getLast?_tokens {i : Instruction} {t : Target} (goes : i.target? = some t) :
    i.tokens.getLast? = some t.text := by
  cases i with
  | jump | branchFlag =>
    cases goes
    rfl
  | branch op rs rt target =>
    cases goes
    simp only [tokens]
    split <;> rfl
  | _ => cases goes

/-- Displacements below zero are written as words, which displacements are not. -/
def Displayed : Instruction → Prop
  | mem _ _ _ offset => 0 ≤ offset
  | _ => True

theorem displayed_of_target {i : Instruction} {t : Target} (goes : i.target? = some t) :
    i.Displayed := by
  cases i with
  | mem => cases goes
  | _ => trivial

end Instruction

/-- A label is written as a label can be. -/
def Target.Named (t : Target) : Prop :=
  ∀ name, t.label = some name → isIdentifier name.toList = true

theorem spells_target {t : Target} (named : t.Named) : Spells t.text t.operand := by
  unfold Target.text Target.operand
  cases label : t.label with
  | none => exact spells_hexWord t.address
  | some name => exact spells_label (named name label)

theorem spells_flag (f : Flag) : Spells (toString f.val) (.int f.val) :=
  spells_natural (Nat.lt_trans f.isLt (by decide))

theorem toNat_word {v : Int} (nonneg : 0 ≤ v) (room : v < 0x100000000) :
    ((BitVec.ofInt 32 v).toNat : Int) = v := by
  rw [BitVec.toNat_ofInt]
  omega

/-- A constant is written as the operation takes it, with a sign or without. -/
theorem spells_constant {op : ImmOp} {v : Int} (holds : op.Holds v) :
    Spells (if op.isLogical then hexWord (BitVec.ofInt 32 v) else toString v) (.int v) := by
  unfold ImmOp.Holds at holds
  split
  · next logical =>
    rw [if_pos logical] at holds
    have same := toNat_word holds.1 (by omega)
    have spelled := spells_hexWord (BitVec.ofInt 32 v)
    rwa [same] at spelled
  · next arithmetic =>
    rw [if_neg arithmetic] at holds
    refine spells_int ?_
    rw [Literal.ceiling]
    split at holds <;> omega

theorem spells_displacement {offset : Int} (nonneg : 0 ≤ offset) (fits : fitsSigned16 offset)
    (base : Reg) : Spells (hexWord (BitVec.ofInt 32 offset) ++ "(" ++ Register.text base ++ ")")
      (.mem none offset base) := by
  have same := toNat_word nonneg (by omega)
  have spelled := spells_mem (BitVec.ofInt 32 offset) base
  rwa [same] at spelled

theorem spells_tokens {i : Instruction} (fits : i.Fits) (displayed : i.Displayed)
    (named : ∀ t, i.target? = some t → t.Named) : List.Forall₂ Spells i.tokens i.operands := by
  have r := spells_register
  have f := spells_floatRegister
  cases i with
  | reg op rd rs rt => exact .cons (r rd) (.cons (r rs) (.cons (r rt) .nil))
  | imm op rt rs value => exact .cons (r rt) (.cons (r rs) (.cons (spells_constant fits) .nil))
  | lui rt upper =>
    have wide : (upper.setWidth 32).toNat = upper.toNat :=
      BitVec.toNat_setWidth_of_le (by decide)
    have spelled := spells_hexWord (upper.setWidth 32)
    rw [wide] at spelled
    exact .cons (r rt) (.cons spelled .nil)
  | hiLo op rs rt => exact .cons (r rs) (.cons (r rt) .nil)
  | count op rd rs => exact .cons (r rd) (.cons (r rs) .nil)
  | hiLoMove op rd => exact .cons (r rd) .nil
  | jump link t => exact .cons (spells_target (named t rfl)) .nil
  | jumpReg link rs =>
    cases link with
    | none => exact .cons (r rs) .nil
    | some rd =>
      simp only [Instruction.tokens, Instruction.operands]
      split
      · exact .cons (r rs) .nil
      · exact .cons (r rd) (.cons (r rs) .nil)
  | branch op rs rt t =>
    have target := spells_target (named t rfl)
    simp only [Instruction.tokens, Instruction.operands]
    split
    · exact .cons (r rs) (.cons (r rt) (.cons target .nil))
    · exact .cons (r rs) (.cons target .nil)
  | floatArith op fmt fd fs ft => exact .cons (f fd) (.cons (f fs) (.cons (f ft) .nil))
  | floatUnary op fmt fd fs => exact .cons (f fd) (.cons (f fs) .nil)
  | floatToWord mode fmt fd fs => exact .cons (f fd) (.cons (f fs) .nil)
  | convert target source fd fs => exact .cons (f fd) (.cons (f fs) .nil)
  | compare cond fmt flag fs ft =>
    exact .cons (spells_flag flag) (.cons (f fs) (.cons (f ft) .nil))
  | branchFlag expected flag t =>
    exact .cons (spells_flag flag) (.cons (spells_target (named t rfl)) .nil)
  | moveWord toFloat rt fs => exact .cons (r rt) (.cons (f fs) .nil)
  | floatMoveIf nonzero fmt fd fs rt => exact .cons (f fd) (.cons (f fs) (.cons (r rt) .nil))
  | moveOnFlag expected rd rs flag =>
    exact .cons (r rd) (.cons (r rs) (.cons (spells_flag flag) .nil))
  | floatMoveOnFlag expected fmt fd fs flag =>
    exact .cons (f fd) (.cons (f fs) (.cons (spells_flag flag) .nil))
  | mem op data base offset =>
    refine .cons ?_ (.cons (spells_displacement displayed fits base) .nil)
    split
    · exact f data
    · exact r data
  | nop | syscall => exact .nil
  | breakpoint code =>
    simp only [Instruction.tokens, Instruction.operands]
    split
    · exact .nil
    · exact .cons (spells_natural (Nat.lt_trans code.isLt (by decide))) .nil

namespace Selection

variable {labels : Labels}

theorem fitsWord_natural {n : Nat} (below : n < 2 ^ 32) : fitsWord (n : Int) := by
  omega

theorem word_toNat (w : Word) : word (w.toNat : Int) = w := by
  simp [word]

/-- A label that is bound to the address of the target, and a number, are that target again. -/
theorem target_operand {t : Target} (m : Mnemonic)
    (bound : ∀ name, t.label = some name → labels name = some t.address) :
    target m labels t.operand = .ok t := by
  obtain ⟨address, label⟩ := t
  cases label with
  | none =>
    rw [Target.operand, target, if_pos (fitsWord_natural address.isLt), word_toNat]
  | some name =>
    have known := bound name rfl
    simp only [Target.operand, target, labelAddress, known]
    simp [word]

theorem flag_val (m : Mnemonic) (f : Flag) : flag m (f.val : Int) = .ok f := by
  simp [flag]

theorem select_constant {op : ImmOp} {v : Int} (holds : op.Holds v) (rt rs : Reg) :
    select (.imm op) [.gpr rt, .gpr rs, .int v] labels = basic (.imm op rt rs v) := by
  unfold ImmOp.Holds at holds
  unfold select
  dsimp only
  split
  · next shift =>
    have arithmetic : op.isLogical = false := by cases op <;> first | rfl | cases shift
    rw [arithmetic, if_neg Bool.false_ne_true, if_pos shift] at holds
    exact if_pos holds
  · next unshifted =>
    rw [if_neg unshifted] at holds
    have direct : immediateFits op v = true := by
      unfold immediateFits
      split at holds
      · next logical => simpa [logical] using holds
      · next arithmetic => simpa [arithmetic] using holds
    exact if_pos direct

theorem select_upper (rt : Reg) (upper : BitVec 16) :
    select .lui [.gpr rt, .int upper.toNat] labels = basic (.lui rt upper) := by
  have below := upper.isLt
  have fits : fitsUnsigned16 (upper.toNat : Int) ∨ fitsSigned16 (upper.toNat : Int) :=
    .inl ⟨by omega, by omega⟩
  have same : lowerHalf (word (upper.toNat : Int)) = upper := by
    apply BitVec.eq_of_toNat_eq
    simp only [lowerHalf, word, BitVec.toNat_setWidth, BitVec.toNat_ofInt]
    omega
  rw [select, selectLui, if_pos fits, same]

theorem select_access {op : MemOp} {offset : Int} (fits : fitsSigned16 offset) (data : Fin 32)
    (base : Reg) :
    select (.mem op) [if op.isFloat then .fpr data else .gpr data, .mem none offset base] labels =
      basic (.mem op data base offset) := by
  have direct : selectAccess (.mem op) op data (.mem none offset base) labels =
      basic (.mem op data base offset) := if_pos fits
  rw [select]
  split
  · next float => rw [selectMem, if_pos float, direct]
  · next integer => rw [selectMem, if_neg integer, direct]

/-- From the operands that it is written with, an instruction is selected again. -/
theorem select_operands {i : Instruction} (fits : i.Fits)
    (bound : ∀ t, i.target? = some t → ∀ name, t.label = some name → labels name = some t.address) :
    select i.mnemonic i.operands labels = basic i := by
  cases i with
  | reg | hiLo | count | hiLoMove | floatArith | floatUnary | floatToWord | convert | moveWord
  | floatMoveIf | nop | syscall => rfl
  | imm op rt rs value => exact select_constant fits rt rs
  | lui rt upper => exact select_upper rt upper
  | jump link t =>
    have found := target_operand (.jump link) (bound t rfl)
    simp only [Instruction.mnemonic, Instruction.operands, select, selectGoto, found]
    rfl
  | jumpReg link rs =>
    cases link with
    | none => rfl
    | some rd =>
      simp only [Instruction.mnemonic, Instruction.operands]
      split
      · next same =>
        cases same
        rfl
      · rfl
  | branch op rs rt t =>
    have found := target_operand (.branch op) (bound t rfl)
    simp only [Instruction.mnemonic, Instruction.operands, select, selectBranch]
    split
    · simp only [found]
      rfl
    · next single =>
      have zero : rt = Register.zero := fits (Bool.not_eq_true _ ▸ single)
      simp only [found, zero]
      rfl
  | compare cond fmt f fs ft =>
    simp only [Instruction.mnemonic, Instruction.operands, select, selectCompare, flag_val]
    rfl
  | branchFlag expected f t =>
    have found := target_operand (.branchFlag expected) (bound t rfl)
    simp only [Instruction.mnemonic, Instruction.operands, select, selectBranchFlag, flag_val,
      found]
    rfl
  | moveOnFlag expected rd rs f =>
    simp only [Instruction.mnemonic, Instruction.operands, select, selectMoveOnFlag, flag_val]
    rfl
  | floatMoveOnFlag expected fmt fd fs f =>
    simp only [Instruction.mnemonic, Instruction.operands, select, selectFloatMoveOnFlag, flag_val]
    rfl
  | mem op data base offset => exact select_access fits data base
  | breakpoint code =>
    simp only [Instruction.mnemonic, Instruction.operands]
    split
    · next zero =>
      rw [zero]
      rfl
    · rw [select, selectBreakpoint, if_pos (fitsWord_natural code.isLt), word_toNat]

end Selection

section Names

/-- Names are written in small letters, and no two mnemonics share one. -/
theorem ofName?_name {m : Mnemonic} (known : m ∈ Mnemonic.all) :
    Mnemonic.ofName? m.name.toLower = some m := by
  have small : (Mnemonic.all.all fun m => m.name.toLower = m.name) = true := by decide +kernel
  have found : (Mnemonic.all.all fun m => Mnemonic.ofName? m.name = some m) = true := by
    decide +kernel
  rw [of_decide_eq_true (List.all_eq_true.mp small m known)]
  exact of_decide_eq_true (List.all_eq_true.mp found m known)

theorem isToken_name {m : Mnemonic} (known : m ∈ Mnemonic.all) : IsToken m.name := by
  have tokens : (Mnemonic.all.all fun m => IsToken m.name) = true := by decide +kernel
  exact of_decide_eq_true (List.all_eq_true.mp tokens m known)

open Mnemonic in
theorem Mnemonic.mem_all {m : Mnemonic} : m ∈ Mnemonic.all ↔
    m ∈ RegOp.all.map reg ∨ m ∈ ImmOp.all.map imm ∨ m ∈ HiLoOp.all.map hiLo ∨
    m ∈ MemOp.all.map mem ∨ m ∈ (MemOp.all.filter MemOp.isFloat).map dottedMem ∨
    m ∈ BranchOp.all.map branch ∨
    m ∈ Cond.all.flatMap (fun c => Precision.all.map (compare c)) ∨
    m ∈ NumberFormat.all.flatMap (fun t => (NumberFormat.all.filter (· ≠ t)).map (convert t)) ∨
    m ∈ roundModes.flatMap (fun mode => Precision.all.map (floatToWord mode)) ∨
    m ∈ FloatOp.all.flatMap (fun op => Precision.all.map (floatArith op)) ∨
    m ∈ FloatUnary.all.flatMap (fun op => Precision.all.map (floatUnary op)) ∨
    m ∈ bools.flatMap (fun n => Precision.all.map (floatMoveIf n)) ∨
    m ∈ bools.flatMap (fun w => Precision.all.map (floatMoveOnFlag w)) ∨
    m ∈ [nop, syscall, breakpoint, lui] ∨ m ∈ CountOp.all.map count ∨
    m ∈ HiLoMove.all.map hiLoMove ∨ m ∈ bools.map jump ∨ m ∈ [jr, jalr] ∨
    m ∈ bools.map branchFlag ∨ m ∈ bools.map moveWord ∨ m ∈ bools.map moveOnFlag ∨
    m ∈ [li, la, move, neg, negu, not, abs, b] ∨ m ∈ bools.map branchZero ∨
    m ∈ [Relation.lt, .gt, .le, .ge].flatMap (fun r => bools.map (branchRelation r)) ∨
    m ∈ bools.flatMap (fun u => [.gt u, .ge u, .le u].map setRelation) ∨
    m ∈ [setRelation .eq, setRelation .ne] ∨ m ∈ bools.map rem ∨ m ∈ bools.map subi := by
  delta Mnemonic.all
  simp only [List.mem_append, or_assoc]

@[simp] theorem RegOp.mem_all (op : RegOp) : op ∈ RegOp.all := by cases op <;> decide

@[simp] theorem ImmOp.mem_all (op : ImmOp) : op ∈ ImmOp.all := by cases op <;> decide

@[simp] theorem HiLoOp.mem_all (op : HiLoOp) : op ∈ HiLoOp.all := by cases op <;> decide

@[simp] theorem CountOp.mem_all (op : CountOp) : op ∈ CountOp.all := by cases op <;> decide

@[simp] theorem HiLoMove.mem_all (op : HiLoMove) : op ∈ HiLoMove.all := by cases op <;> decide

@[simp] theorem BranchOp.mem_all (op : BranchOp) : op ∈ BranchOp.all := by cases op <;> decide

@[simp] theorem MemOp.mem_all (op : MemOp) : op ∈ MemOp.all := by cases op <;> decide

@[simp] theorem FloatOp.mem_all (op : FloatOp) : op ∈ FloatOp.all := by cases op <;> decide

@[simp] theorem FloatUnary.mem_all (op : FloatUnary) : op ∈ FloatUnary.all := by cases op <;> decide

@[simp] theorem Cond.mem_all (cond : Cond) : cond ∈ Cond.all := by cases cond <;> decide

@[simp] theorem Precision.mem_all (fmt : Precision) : fmt ∈ Precision.all := by cases fmt <;> decide

@[simp] theorem NumberFormat.mem_all (fmt : NumberFormat) : fmt ∈ NumberFormat.all := by
  cases fmt <;> decide

@[simp] theorem mem_roundModes (mode : Ieee.RoundMode) : mode ∈ roundModes := by
  cases mode <;> decide

@[simp] theorem mem_bools (b : Bool) : b ∈ Mnemonic.bools := by cases b <;> decide

/-- Instructions have names. A conversion within one format is the only one that would not. -/
theorem mnemonic_known {i : Instruction} (fits : i.Fits) : i.mnemonic ∈ Mnemonic.all := by
  cases i with
  | convert target source =>
    have apart : source ≠ target := Ne.symm fits
    simp [Instruction.mnemonic, Mnemonic.mem_all, apart]
  | jumpReg link => cases link <;> simp [Instruction.mnemonic, Mnemonic.mem_all]
  | _ => simp [Instruction.mnemonic, Mnemonic.mem_all]

end Names

theorem operands_of_spells {tokens : List String} {ops : List Operand}
    (spelled : List.Forall₂ Spells tokens ops) : operands tokens = .ok ops := by
  unfold operands
  induction spelled with
  | nil => rfl
  | cons spells _ ih =>
    rw [List.mapM_cons, ih, spells.read]
    rfl

/-- The text of an instruction is read as its mnemonic and its tokens. -/
theorem lex_text {i : Instruction} (fits : i.Fits) (displayed : i.Displayed)
    (named : ∀ t, i.target? = some t → t.Named) :
    lex i.text.toList = .ok ⟨[], some i.mnemonic.name, i.tokens⟩ := by
  rw [i.text_eq]
  refine lex_line (isToken_name (mnemonic_known fits)) fun token member => ?_
  obtain ⟨op, -, spells⟩ := exists_of_forall₂ (spells_tokens fits displayed named).flip member
  exact spells.isToken

theorem forall₂_of_operands {tokens : List String} {ops : List Operand}
    (read : operands tokens = .ok ops) :
    List.Forall₂ (fun token op => Operand.ofToken token.toList = .ok op) tokens ops := by
  induction tokens generalizing ops with
  | nil =>
    cases read
    exact .nil
  | cons token tokens ih =>
    rw [operands, List.mapM_cons] at read
    obtain ⟨op, first, read⟩ := except_bind_ok read
    obtain ⟨others, rest, made⟩ := except_bind_ok read
    cases made
    exact .cons (except_mapError_ok first) (ih rest)

/-- A target has the label of the last operand, and labels are identifiers. -/
theorem named_of_made {labels : Labels} {tokens : List String} {ops : List Operand}
    {i : Instruction} (read : operands tokens = .ok ops) (made : Selection.Made labels ops i)
    {t : Target} (goes : i.target? = some t) : t.Named := by
  intro name label
  obtain ⟨place, last, resolves⟩ := made.goes t goes
  obtain ⟨token, -, spelled⟩ :=
    exists_of_forall₂ (forall₂_of_operands read) (List.mem_of_getLast? last)
  cases place with
  | label written offset =>
    obtain ⟨base, -, rfl⟩ := resolves
    cases label
    exact identifier_of_ofToken spelled
  | int v =>
    obtain ⟨-, rfl⟩ := resolves
    cases label
  | _ => exact absurd resolves id

/-- Where an instruction has been selected, its text is the line of this instruction alone, label
included. Displacements below zero are left out, and labels whose address is not the target. -/
theorem expand_text {name : String} {args : List String} {labels : Labels} {e : Expansion}
    (expanded : expand name args labels = .ok e) {i : Instruction} (member : i ∈ e.instrs)
    (displayed : i.Displayed)
    (bound : ∀ t, i.target? = some t → ∀ name, t.label = some name → labels name = some t.address) :
    ∃ head tokens, lex i.text.toList = .ok ⟨[], some head, tokens⟩ ∧
      expand head tokens labels = .ok ⟨[i], false⟩ := by
  obtain ⟨ops, read, made⟩ := made_of_expand expanded
  have made := made i member
  have named : ∀ t, i.target? = some t → t.Named := fun t goes => named_of_made read made goes
  have spelled := spells_tokens made.fits displayed named
  refine ⟨i.mnemonic.name, i.tokens, lex_text made.fits displayed named, ?_⟩
  rw [expand_eq_select (operands_of_spells spelled) (ofName?_name (mnemonic_known made.fits))]
  exact Selection.select_operands made.fits bound

def loopLabels : Labels := fun name => if name = "loop" then some 0x400008 else none

/-- The branch that a comparison ends in is written by itself as a branch to the label. -/
theorem expand_text_loop : ∃ head tokens,
    expand "blt" ["$t0", "-5", "loop"] loopLabels =
      .ok ⟨[.imm .addiu 1 0 (-5), .reg .slt 1 8 1,
        .branch .bne 1 0 ⟨0x400008, some "loop"⟩], true⟩ ∧
    lex (Instruction.branch .bne 1 0 ⟨0x400008, some "loop"⟩).text.toList =
      .ok ⟨[], some head, tokens⟩ ∧
    expand head tokens loopLabels = .ok ⟨[.branch .bne 1 0 ⟨0x400008, some "loop"⟩], false⟩ := by
  have expanded : expand "blt" ["$t0", "-5", "loop"] loopLabels = .ok ⟨[.imm .addiu 1 0 (-5),
      .reg .slt 1 8 1, .branch .bne 1 0 ⟨0x400008, some "loop"⟩], true⟩ :=
    except_ok_of_toOption (by decide +kernel)
  obtain ⟨head, tokens, read, again⟩ := expand_text expanded
    (i := .branch .bne 1 0 ⟨0x400008, some "loop"⟩) (by simp) trivial (by
      rintro t goes name label
      cases goes
      cases label
      rfl)
  exact ⟨head, tokens, expanded, read, again⟩

end MipsLab
