import MipsLab.Proofs.Assembly.Reassembly
import MipsLab.Source.Include

/-! Which names are recognized as instructions. A name is looked up before its operands are judged,
so operands that are wrong for it never make it unknown, and no operands make an unknown name known.
The names that cannot be defined because they are mnemonics are therefore the same ones that an
instruction line can start with. -/
namespace MipsLab

/-- What an instruction that has been recognized may have against its operands: they are not of the
shape that it expects, a constant does not fit, or there is no such label. -/
inductive Refusal (m : Mnemonic) (labels : Labels) : AssemblyError → Prop
  | shape (expected : String) : Refusal m labels (.wrongOperands m.name expected)
  | range (v : Int) : Refusal m labels (.immediateOutOfRange m.name v)
  | label {name : String} (missing : labels name = none) : Refusal m labels (.undefinedLabel name)

namespace Selection

def Judges {α : Type} (m : Mnemonic) (labels : Labels) (x : Except AssemblyError α) : Prop :=
  ∀ e, x = .error e → Refusal m labels e

section Judges

variable {α β : Type} {m : Mnemonic} {labels : Labels}

@[simp] theorem judges_ok (a : α) : Judges m labels (.ok a) := fun _ => nofun

@[simp] theorem judges_pure (a : α) : Judges m labels (pure a) := fun _ => nofun

@[simp] theorem judges_basic (i : Instruction) : Judges m labels (basic i) := fun _ => nofun

@[simp] theorem judges_pseudo (is : List Instruction) : Judges m labels (pseudo is) :=
  fun _ => nofun

@[simp] theorem judges_wrong (expected : String) :
    Judges m labels (wrong m expected : Except AssemblyError α) := by
  rintro e ⟨⟩
  exact .shape expected

@[simp] theorem judges_outOfRange (v : Int) :
    Judges m labels (outOfRange m v : Except AssemblyError α) := by
  rintro e ⟨⟩
  exact .range v

@[simp] theorem judges_bind {x : Except AssemblyError β} {f : β → Except AssemblyError α}
    (first : Judges m labels x) :
    Judges m labels (x >>= f) ↔ ∀ b, x = .ok b → Judges m labels (f b) := by
  cases x with
  | error e =>
    refine ⟨fun _ => nofun, fun _ other same => ?_⟩
    cases same
    exact first e rfl
  | ok b => exact ⟨fun later c same => Except.ok.inj same ▸ later, fun later => later b rfl⟩

@[simp] theorem judges_map {x : Except AssemblyError β} {f : β → α} :
    Judges m labels (f <$> x) ↔ Judges m labels x := by
  cases x with
  | error e =>
    constructor
    · rintro judges other ⟨⟩
      exact judges e rfl
    · rintro judges other ⟨⟩
      exact judges e rfl
  | ok b => exact ⟨fun _ => judges_ok b, fun _ => judges_ok (f b)⟩

end Judges

section Operands

variable {m : Mnemonic} {labels : Labels}

@[simp] theorem judges_loadConstant (rd : Reg) (v : Int) :
    Judges m labels (loadConstant m rd v) := by
  fun_cases loadConstant m rd v <;> simp +zetaDelta

@[simp] theorem judges_labelAddress (name : String) (offset : Int) :
    Judges m labels (labelAddress labels name offset) := by
  fun_cases labelAddress labels name offset with
  | case1 address found => exact judges_ok _
  | case2 missing =>
    rintro e ⟨⟩
    exact .label missing

@[simp] theorem judges_target (place : Operand) : Judges m labels (target m labels place) := by
  fun_cases target m labels place <;> simp +zetaDelta

@[simp] theorem judges_flag (v : Int) : Judges m labels (flag m v) := by
  fun_cases flag m v <;> simp +zetaDelta

@[simp] theorem judges_rightHand (right : Operand) : Judges m labels (rightHand m right) := by
  fun_cases rightHand m right <;> simp +zetaDelta

end Operands

variable {ops : List Operand} {labels : Labels}

theorem judges_selectReg (op : RegOp) : Judges (.reg op) labels (selectReg op ops) := by
  fun_cases selectReg op ops <;> simp +zetaDelta

theorem judges_selectConstant (op : ImmOp) (rt rs : Reg) (v : Int) :
    Judges (.imm op) labels (selectConstant op rt rs v) := by
  fun_cases selectConstant op rt rs v <;> simp +zetaDelta

theorem judges_selectImm (op : ImmOp) : Judges (.imm op) labels (selectImm op ops) := by
  fun_cases selectImm op ops
  · exact judges_selectConstant op _ _ _
  · exact judges_map.mpr (judges_selectConstant op _ _ _)
  · exact judges_wrong _

theorem judges_selectShift (op : ImmOp) : Judges (.imm op) labels (selectShift op ops) := by
  fun_cases selectShift op ops <;> simp +zetaDelta

theorem judges_selectHiLo (op : HiLoOp) : Judges (.hiLo op) labels (selectHiLo op ops) := by
  fun_cases selectHiLo op ops <;> simp +zetaDelta

theorem judges_selectAccess (m : Mnemonic) (op : MemOp) (data : Fin 32) (place : Operand) :
    Judges m labels (selectAccess m op data place labels) := by
  fun_cases selectAccess m op data place labels <;> simp +zetaDelta

theorem judges_selectMem (m : Mnemonic) (op : MemOp) :
    Judges m labels (selectMem m op ops labels) := by
  fun_cases selectMem m op ops labels <;> simp +zetaDelta [judges_selectAccess]

theorem judges_selectBranch (op : BranchOp) :
    Judges (.branch op) labels (selectBranch op ops labels) := by
  fun_cases selectBranch op ops labels <;> simp +zetaDelta

theorem judges_selectCompare (cond : Cond) (fmt : Precision) :
    Judges (.compare cond fmt) labels (selectCompare cond fmt ops) := by
  fun_cases selectCompare cond fmt ops <;> simp +zetaDelta

theorem judges_selectFloatPair (m : Mnemonic) (make : FReg → FReg → Instruction) :
    Judges m labels (selectFloatPair m make ops) := by
  fun_cases selectFloatPair m make ops <;> simp +zetaDelta

theorem judges_selectFloatArith (op : FloatOp) (fmt : Precision) :
    Judges (.floatArith op fmt) labels (selectFloatArith op fmt ops) := by
  fun_cases selectFloatArith op fmt ops <;> simp +zetaDelta

theorem judges_selectFloatMoveIf (nonzero : Bool) (fmt : Precision) :
    Judges (.floatMoveIf nonzero fmt) labels (selectFloatMoveIf nonzero fmt ops) := by
  fun_cases selectFloatMoveIf nonzero fmt ops <;> simp +zetaDelta

theorem judges_selectFloatMoveOnFlag (expected : Bool) (fmt : Precision) :
    Judges (.floatMoveOnFlag expected fmt) labels (selectFloatMoveOnFlag expected fmt ops) := by
  fun_cases selectFloatMoveOnFlag expected fmt ops <;> simp +zetaDelta

theorem judges_selectBare (m : Mnemonic) (i : Instruction) :
    Judges m labels (selectBare m i ops) := by
  fun_cases selectBare m i ops <;> simp +zetaDelta

theorem judges_selectBreakpoint : Judges .breakpoint labels (selectBreakpoint ops) := by
  fun_cases selectBreakpoint ops <;> simp +zetaDelta

theorem judges_selectLui : Judges .lui labels (selectLui ops) := by
  fun_cases selectLui ops <;> simp +zetaDelta

theorem judges_selectPair (m : Mnemonic) {make : Reg → Reg → Selected}
    (made : ∀ rd rs, Judges m labels (make rd rs)) : Judges m labels (selectPair m make ops) := by
  fun_cases selectPair m make ops <;> simp +zetaDelta [made]

theorem judges_selectHiLoMove (op : HiLoMove) :
    Judges (.hiLoMove op) labels (selectHiLoMove op ops) := by
  fun_cases selectHiLoMove op ops <;> simp +zetaDelta

theorem judges_selectGoto (m : Mnemonic) {make : Target → Selected}
    (made : ∀ t, Judges m labels (make t)) : Judges m labels (selectGoto m make ops labels) := by
  fun_cases selectGoto m make ops labels <;> simp +zetaDelta [made]

theorem judges_selectJumpReg : Judges .jr labels (selectJumpReg ops) := by
  fun_cases selectJumpReg ops <;> simp +zetaDelta

theorem judges_selectCallReg : Judges .jalr labels (selectCallReg ops) := by
  fun_cases selectCallReg ops <;> simp +zetaDelta

theorem judges_selectBranchFlag (expected : Bool) :
    Judges (.branchFlag expected) labels (selectBranchFlag expected ops labels) := by
  fun_cases selectBranchFlag expected ops labels <;> simp +zetaDelta

theorem judges_selectMoveWord (toFloat : Bool) :
    Judges (.moveWord toFloat) labels (selectMoveWord toFloat ops) := by
  fun_cases selectMoveWord toFloat ops <;> simp +zetaDelta

theorem judges_selectMoveOnFlag (expected : Bool) :
    Judges (.moveOnFlag expected) labels (selectMoveOnFlag expected ops) := by
  fun_cases selectMoveOnFlag expected ops <;> simp +zetaDelta

theorem judges_selectLi : Judges .li labels (selectLi ops) := by
  fun_cases selectLi ops <;> simp +zetaDelta

theorem judges_selectLa : Judges .la labels (selectLa ops labels) := by
  fun_cases selectLa ops labels <;> simp +zetaDelta

theorem judges_selectUnary (m : Mnemonic) (make : Reg → Reg → Instruction) :
    Judges m labels (selectUnary m make ops) := by
  fun_cases selectUnary m make ops <;> simp +zetaDelta

theorem judges_selectBranchZero (equal : Bool) :
    Judges (.branchZero equal) labels (selectBranchZero equal ops labels) := by
  fun_cases selectBranchZero equal ops labels <;> simp +zetaDelta

theorem judges_selectBranchRelation (relation : Relation) (unsigned : Bool) :
    Judges (.branchRelation relation unsigned) labels
      (selectBranchRelation relation unsigned ops labels) := by
  fun_cases selectBranchRelation relation unsigned ops labels <;> simp +zetaDelta

theorem judges_selectSetRelation (relation : SetRelation) :
    Judges (.setRelation relation) labels (selectSetRelation relation ops) := by
  fun_cases selectSetRelation relation ops <;> simp +zetaDelta

theorem judges_selectRem (unsigned : Bool) :
    Judges (.rem unsigned) labels (selectRem unsigned ops) := by
  fun_cases selectRem unsigned ops <;> simp +zetaDelta

theorem judges_selectSubi (unsigned : Bool) :
    Judges (.subi unsigned) labels (selectSubi unsigned ops) := by
  fun_cases selectSubi unsigned ops <;> simp +zetaDelta

/-- No mnemonic makes itself unknown, whatever its operands are. -/
theorem judges_select (m : Mnemonic) : Judges m labels (select m ops labels) := by
  cases m with
  | reg op => exact judges_selectReg op
  | imm op =>
    unfold select
    dsimp only
    split
    · exact judges_selectShift op
    · exact judges_selectImm op
  | hiLo op => exact judges_selectHiLo op
  | mem op => exact judges_selectMem _ op
  | dottedMem op => exact judges_map.mpr (judges_selectMem _ op)
  | branch op => exact judges_selectBranch op
  | compare cond fmt => exact judges_selectCompare cond fmt
  | convert | floatToWord | floatUnary => exact judges_selectFloatPair _ _
  | floatArith op fmt => exact judges_selectFloatArith op fmt
  | floatMoveIf nonzero fmt => exact judges_selectFloatMoveIf nonzero fmt
  | floatMoveOnFlag expected fmt => exact judges_selectFloatMoveOnFlag expected fmt
  | nop | syscall => exact judges_selectBare _ _
  | breakpoint => exact judges_selectBreakpoint
  | lui => exact judges_selectLui
  | count op => exact judges_selectPair _ fun _ _ => judges_basic _
  | hiLoMove op => exact judges_selectHiLoMove op
  | jump link => exact judges_selectGoto _ fun _ => judges_basic _
  | jr => exact judges_selectJumpReg
  | jalr => exact judges_selectCallReg
  | branchFlag expected => exact judges_selectBranchFlag expected
  | moveWord toFloat => exact judges_selectMoveWord toFloat
  | moveOnFlag expected => exact judges_selectMoveOnFlag expected
  | li => exact judges_selectLi
  | la => exact judges_selectLa
  | neg | negu | not => exact judges_selectUnary _ _
  | move | abs => exact judges_selectPair _ fun _ _ => judges_pseudo _
  | b => exact judges_selectGoto _ fun _ => judges_pseudo _
  | branchZero equal => exact judges_selectBranchZero equal
  | branchRelation relation unsigned => exact judges_selectBranchRelation relation unsigned
  | setRelation relation => exact judges_selectSetRelation relation
  | rem unsigned => exact judges_selectRem unsigned
  | subi unsigned => exact judges_selectSubi unsigned

end Selection

/-- Operands for every mnemonic: registers of both kinds, a number and a place in memory, in the
combinations that some mnemonic expects. -/
def sampleTokens : List (List String) :=
  [[], ["$t0"], ["0"], ["$t0", "$t0"], ["$t0", "0"], ["$t0", "$f0"], ["$f0", "$f0"],
    ["$t0", "0($t0)"], ["$f0", "0($t0)"], ["$t0", "$t0", "$t0"], ["$t0", "$t0", "0"],
    ["$f0", "$f0", "$f0"], ["$f0", "$f0", "$t0"]]

theorem select_sample {m : Mnemonic} (known : m ∈ Mnemonic.all) : ∃ args ∈ sampleTokens,
    ∃ ops e, operands args = .ok ops ∧ Selection.select m ops unplaced = .ok e := by
  have all : (Mnemonic.all.all fun m => sampleTokens.any fun args =>
      (operands args >>= fun ops => Selection.select m ops unplaced).toBool) = true := by
    decide +kernel
  obtain ⟨args, member, selected⟩ := List.any_eq_true.mp (List.all_eq_true.mp all m known)
  cases found : operands args >>= fun ops => Selection.select m ops unplaced with
  | error e =>
    rw [found] at selected
    cases selected
  | ok e =>
    obtain ⟨ops, read, chosen⟩ := except_bind_ok found
    exact ⟨args, member, ops, e, read, chosen⟩

/-- Operand tokens of which each is of some form. -/
def Classified (args : List String) : Prop :=
  ∀ token ∈ args, ∃ op, Operand.ofToken token.toList = .ok op

theorem classified_iff {args : List String} : Classified args ↔ ∃ ops, operands args = .ok ops := by
  constructor
  · intro classified
    induction args with
    | nil => exact ⟨[], rfl⟩
    | cons token args ih =>
      obtain ⟨⟨op, first⟩, rest⟩ := List.forall_mem_cons.mp classified
      obtain ⟨ops, read⟩ := ih rest
      refine ⟨op :: ops, ?_⟩
      unfold operands at read ⊢
      rw [List.mapM_cons, first, read]
      rfl
  · rintro ⟨ops, read⟩ token member
    obtain ⟨op, -, same⟩ := exists_of_forall₂ (forall₂_of_operands read).flip member
    exact ⟨op, same⟩

section Names

variable {name : String} {args : List String} {labels : Labels}

theorem expand_unrecognized (unknown : isMnemonic name = false) (classified : Classified args) :
    expand name args labels = .error (.unknownInstruction name.toLower) := by
  obtain ⟨ops, read⟩ := classified_iff.mp classified
  have missing : Mnemonic.ofName? name.toLower = none := by
    simpa [isMnemonic] using unknown
  unfold expand
  rw [read, missing]
  rfl

/-- A name that is recognized is expanded, or there is something wrong with its operands. -/
theorem expand_recognized {m : Mnemonic} (found : Mnemonic.ofName? name.toLower = some m)
    (classified : Classified args) {e : AssemblyError}
    (failed : expand name args labels = .error e) : Refusal m labels e := by
  obtain ⟨ops, read⟩ := classified_iff.mp classified
  rw [expand_eq_select read found] at failed
  exact Selection.judges_select m e failed

theorem expand_unknown_iff (classified : Classified args) :
    (∃ other, expand name args labels = .error (.unknownInstruction other)) ↔
      isMnemonic name = false := by
  constructor
  · rintro ⟨other, failed⟩
    cases found : Mnemonic.ofName? name.toLower with
    | none => rw [isMnemonic, found]; rfl
    | some m => cases expand_recognized found classified failed
  · intro unknown
    exact ⟨_, expand_unrecognized unknown classified⟩

/-- A mnemonic of the list that a name is recognized as. -/
theorem mnemonic_of_ofName? {m : Mnemonic} (found : Mnemonic.ofName? name = some m) :
    m ∈ Mnemonic.all ∧ m.name = name :=
  ⟨List.mem_of_find?_eq_some found, by simpa using List.find?_some found⟩

theorem toLower_of_isDigit {c : Char} (digit : c.isDigit = true) : c.toLower = c := by
  have bound := Char.isDigit_iff_toNat.mp digit
  unfold Char.toLower
  rw [dif_neg]
  rintro ⟨above, -⟩
  have above : 65 ≤ c.toNat := above
  have below : c.toNat ≤ 57 := bound.2
  omega

/-- Registers are written with digits and small letters. -/
theorem small_of_isToken {text : List Char} (token : Register.isToken text = true) :
    ∀ c ∈ text, c.toLower = c := by
  have digits {body : List Char} {n : Nat} (read : Text.natural? 10 body = some n) :
      ∀ c ∈ body, c.toLower = c := fun c member =>
    toLower_of_isDigit ((Text.digits_of_natural? read).2 c member)
  have names : (Register.names.all fun name => name.toList.all fun c => c.toLower = c) = true := by
    decide +kernel
  have named {body : List Char} (known : (Register.named? body).isSome = true) :
      ∀ c ∈ body, c.toLower = c := by
    unfold Register.named? at known
    split at known
    · next n read => exact digits read
    · split at known
      · next same =>
        rw [same, List.forall_mem_cons, List.forall_mem_singleton]
        exact ⟨by decide, by decide⟩
      · obtain ⟨r, found⟩ := Option.isSome_iff_exists.mp known
        have listed := List.find?_some found
        obtain ⟨name, member, same⟩ := Option.map_eq_some_iff.mp (beq_iff_eq.mp listed)
        have small := List.all_eq_true.mp names name (List.mem_of_getElem? member)
        rw [← same]
        simpa using small
  have floatNamed {body : List Char} (known : (Register.floatNamed? body).isSome = true) :
      ∀ c ∈ body, c.toLower = c := by
    unfold Register.floatNamed? at known
    split at known
    · next rest =>
      obtain ⟨r, found⟩ := Option.isSome_iff_exists.mp known
      obtain ⟨n, read, -⟩ := Option.bind_eq_some_iff.mp found
      exact List.forall_mem_cons.mpr ⟨by decide, digits read⟩
    · cases known
  have either {body : List Char}
      (known : ((Register.named? body).isSome || (Register.floatNamed? body).isSome) = true) :
      ∀ c ∈ body, c.toLower = c := ((Bool.or_eq_true _ _).mp known).elim named floatNamed
  unfold Register.isToken at token
  cases dropped : Text.dropStart? ['$'] text with
  | none =>
    rw [dropped] at token
    exact either token
  | some body =>
    rw [dropped] at token
    rw [Text.eq_append_of_dropStart? dropped]
    exact List.forall_mem_cons.mpr ⟨by decide, either token⟩

/-- A name in small letters is a mnemonic only as it stands. -/
theorem mnemonic_of_small (small : ∀ c ∈ name.toList, c.toLower = c)
    (known : isMnemonic name = true) : ∃ m ∈ Mnemonic.all, m.name = name := by
  obtain ⟨m, found⟩ := Option.isSome_iff_exists.mp known
  obtain ⟨member, same⟩ := mnemonic_of_ofName? found
  refine ⟨m, member, same.trans (String.toList_inj.mp ?_)⟩
  rw [String.toLower, String.toList_map, List.map_congr_left small]
  exact List.map_id' _

/-- No mnemonic is the name of a register or of a directive. -/
theorem reserved?_mnemonic_iff : reserved? name = some .mnemonic ↔ isMnemonic name = true := by
  have apart : (Mnemonic.all.all fun m =>
      !Register.isToken m.name.toList && (Directive.ofName? m.name).isNone) = true := by
    decide +kernel
  have directives : (Directive.table.all fun entry =>
      entry.1.toList.all fun c => c.toLower = c) = true := by decide +kernel
  unfold reserved?
  split
  · next token =>
    refine ⟨nofun, fun known => ?_⟩
    obtain ⟨m, member, rfl⟩ := mnemonic_of_small (small_of_isToken token) known
    simpa [token] using List.all_eq_true.mp apart m member
  · split
    · next directive =>
      refine ⟨nofun, fun known => ?_⟩
      obtain ⟨d, found⟩ := Option.isSome_iff_exists.mp directive
      obtain ⟨before, after, listed, -⟩ := List.lookup_eq_some_iff.mp found
      have small := List.all_eq_true.mp directives (name, d) (by simp [listed])
      obtain ⟨m, member, rfl⟩ := mnemonic_of_small (by simpa using small) known
      simpa [found] using List.all_eq_true.mp apart m member
    · split
      · next known => exact ⟨fun _ => known, fun _ => rfl⟩
      · next unknown => exact ⟨nofun, fun known => absurd known unknown⟩

/-- The parts of a name between its dots. -/
def dottedParts (name : String) : List String :=
  (Text.pieces (· = '.') name.toList).map String.ofList

theorem joined_dottedParts (name : String) :
    String.ofList (['.'].intercalate ((dottedParts name).map String.toList)) = name := by
  have cut : Text.pieces (· = '.') name.toList = name.toList.splitOn '.' := by
    rw [Text.pieces_eq_splitOnP, List.splitOn]
    congr 1
  simp only [dottedParts, List.map_map, Function.comp_def, String.toList_ofList, List.map_id']
  rw [cut, List.intercalate_splitOn, String.ofList_toList]

/-- What the mnemonics with dots consist of: comparisons, conversions between two formats, roundings
to words, and operations in one of the two precisions. -/
def dottedForms : List (List String) :=
  let precisions := ["s", "d"]
  let formats := ["s", "d", "w"]
  (["eq", "lt", "le"].flatMap fun cond => precisions.map fun fmt => ["c", cond, fmt]) ++
  (formats.flatMap fun target =>
    (formats.filter (· ≠ target)).map fun source => ["cvt", target, source]) ++
  (["ceil", "floor", "round", "trunc"].flatMap fun stem =>
    precisions.map fun fmt => [stem, "w", fmt]) ++
  (["add", "sub", "mul", "div", "abs", "neg", "sqrt", "mov", "movn", "movz", "movt", "movf", "l",
    "s"].flatMap fun stem => precisions.map fun fmt => [stem, fmt])

/-- A name with a dot is a mnemonic just where its parts go together. -/
theorem isMnemonic_dotted_iff (dotted : '.' ∈ name.toList) :
    isMnemonic name = true ↔ dottedParts name.toLower ∈ dottedForms := by
  have listed : (Mnemonic.all.all fun m =>
      !m.name.toList.contains '.' || dottedForms.contains (dottedParts m.name)) = true := by
    decide +kernel
  have forms : (dottedForms.all fun parts => (Mnemonic.ofName?
      (String.ofList (['.'].intercalate (parts.map String.toList)))).isSome) = true := by
    decide +kernel
  constructor
  · intro known
    obtain ⟨m, found⟩ := Option.isSome_iff_exists.mp known
    obtain ⟨member, same⟩ := mnemonic_of_ofName? found
    have inside : '.' ∈ m.name.toList := by
      rw [same, String.toLower, String.toList_map]
      exact List.mem_map.mpr ⟨'.', dotted, rfl⟩
    have either := List.all_eq_true.mp listed m member
    rw [← same]
    simpa [inside] using either
  · intro form
    have found := List.all_eq_true.mp forms _ form
    rwa [joined_dottedParts] at found

/-- Whether a name is recognized does not depend on operands: it is unknown beside any operands that
are classified just where it is unknown without any, and otherwise nothing but the operands can be
wrong. A definition is refused as a mnemonic for just the names that some operands are accepted or
refused for; for each of them there are operands that are accepted, and letter case makes no
difference. -/
theorem recognition_without_operands (name : String) :
    (∀ args labels, Classified args →
      ((∃ other, expand name args labels = .error (.unknownInstruction other)) ↔
        isMnemonic name = false)) ∧
    (isMnemonic name = false ↔
      ∃ other, expand name [] unplaced = .error (.unknownInstruction other)) ∧
    (∀ m args labels e, Mnemonic.ofName? name.toLower = some m → Classified args →
      expand name args labels = .error e → Refusal m labels e) ∧
    (reserved? name = some .mnemonic ↔ ∃ args labels, Classified args ∧
      ∀ other, expand name args labels ≠ .error (.unknownInstruction other)) ∧
    (reserved? name = some .mnemonic → ∃ args e, Classified args ∧
      expand name args unplaced = .ok e) ∧
    (∀ other : String, other.toLower = name.toLower →
      (reserved? other = some .mnemonic ↔ reserved? name = some .mnemonic)) ∧
    (∀ (walk : Walk) (operand : List Char) (value : String) (tag : SourceTag),
      Walk.definition? operand = some (name, value) →
        (walk.define operand tag = .error (.restrictedName name .mnemonic tag) ↔
          reserved? name = some .mnemonic)) := by
  have bare : Classified [] := nofun
  refine ⟨fun args labels => expand_unknown_iff, (expand_unknown_iff bare).symm,
    fun m args labels e found classified => expand_recognized found classified, ?_, ?_, ?_, ?_⟩
  · rw [reserved?_mnemonic_iff]
    constructor
    · intro known
      refine ⟨[], unplaced, bare, fun other failed => ?_⟩
      have unknown := (expand_unknown_iff bare).mp ⟨other, failed⟩
      exact Bool.false_ne_true (unknown.symm.trans known)
    · rintro ⟨args, labels, classified, judged⟩
      rw [← Bool.not_eq_false, ← @expand_unknown_iff name args labels classified]
      rintro ⟨other, failed⟩
      exact judged other failed
  · intro restricted
    obtain ⟨m, found⟩ := Option.isSome_iff_exists.mp (reserved?_mnemonic_iff.mp restricted)
    obtain ⟨args, -, ops, e, read, selected⟩ := select_sample (mnemonic_of_ofName? found).1
    exact ⟨args, e, classified_iff.mpr ⟨ops, read⟩, (expand_eq_select read found).trans selected⟩
  · intro other same
    rw [reserved?_mnemonic_iff, reserved?_mnemonic_iff, isMnemonic, isMnemonic, same]
  · intro walk operand value tag written
    unfold Walk.define
    rw [written]
    dsimp only
    cases reserved? name with
    | some reason => simp
    | none =>
      refine ⟨fun refused => ?_, nofun⟩
      dsimp only at refused
      split at refused <;> cases refused

/-- A number stands where an addition expects a register; the name is known and cannot be
defined. -/
theorem recognition_without_operands_addition : Classified ["$f2", "0"] ∧
    Walk.definition? "ADD.S 10".toList = some ("ADD.S", "10") ∧
    (¬ ∃ other, expand "ADD.S" ["$f2", "0"] unplaced = .error (.unknownInstruction other)) ∧
    ∀ (walk : Walk) (tag : SourceTag), walk.define "ADD.S 10".toList tag =
      .error (.restrictedName "ADD.S" .mnemonic tag) := by
  have classified : Classified ["$f2", "0"] :=
    classified_iff.mpr ⟨[.fpr 2, .int 0], by decide +kernel⟩
  have written : Walk.definition? "ADD.S 10".toList = some ("ADD.S", "10") := by decide +kernel
  have known : isMnemonic "ADD.S" = true := by decide +kernel
  obtain ⟨unknown, -, -, -, -, -, refused⟩ := recognition_without_operands "ADD.S"
  refine ⟨classified, written, ?_, fun walk tag => ?_⟩
  · rw [unknown _ _ classified, known]
    exact Bool.noConfusion
  · exact (refused walk _ _ tag written).mpr (reserved?_mnemonic_iff.mpr known)

end Names

end MipsLab
