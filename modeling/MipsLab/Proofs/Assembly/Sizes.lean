import MipsLab.Proofs.Assembly.Passes
import Mathlib

/-! How many instructions a line makes. An accepted line makes between one and four, and the final
pass makes as many as the sizing pass has counted. -/
namespace MipsLab

namespace Selection

/-- Whatever is selected has at least one instruction and at most four: two that load a constant,
and two that use it. -/
def Measured (selected : Selected) : Prop :=
  ∀ e, selected = .ok e → 0 < e.instrs.length ∧ e.instrs.length ≤ 4

@[simp] theorem measured_error (e : AssemblyError) : Measured (.error e) := nofun

@[simp] theorem measured_wrong (m : Mnemonic) (expected : String) : Measured (wrong m expected) :=
  nofun

@[simp] theorem measured_outOfRange (m : Mnemonic) (v : Int) : Measured (outOfRange m v) := nofun

@[simp] theorem measured_pseudo (is : List Instruction) :
    Measured (pseudo is) ↔ 0 < is.length ∧ is.length ≤ 4 := by
  refine ⟨fun measured => measured _ rfl, ?_⟩
  rintro bounds e ⟨⟩
  exact bounds

@[simp] theorem measured_basic (i : Instruction) : Measured (basic i) := by
  rintro e ⟨⟩
  exact ⟨Nat.zero_lt_one, Nat.le_add_left 1 3⟩

@[simp] theorem measured_bind {α : Type} (x : Except AssemblyError α) (f : α → Selected) :
    Measured (x >>= f) ↔ ∀ a, x = .ok a → Measured (f a) := by
  cases x with
  | error e => exact ⟨fun _ => nofun, fun _ => measured_error e⟩
  | ok a =>
    exact ⟨fun measured b same => Except.ok.inj same ▸ measured, fun next => next a rfl⟩

theorem Measured.map {x : Selected} {f : Expansion → Expansion} (measured : Measured x)
    (same : ∀ e, (f e).instrs = e.instrs) : Measured (f <$> x) := by
  cases x with
  | error e => exact measured_error e
  | ok e =>
    rintro _ ⟨⟩
    exact same e ▸ measured e rfl

theorem length_loadConstant {m : Mnemonic} {rd : Reg} {v : Int} {load : List Instruction}
    (loaded : loadConstant m rd v = .ok load) : 0 < load.length ∧ load.length ≤ 2 := by
  unfold loadConstant at loaded
  repeat' split at loaded
  all_goals cases loaded
  all_goals simp

theorem length_rightHand {m : Mnemonic} {right : Operand} {load : List Instruction} {rt : Reg}
    (loaded : rightHand m right = .ok (load, rt)) : load.length ≤ 2 := by
  cases right with
  | gpr r =>
    cases loaded
    exact Nat.zero_le 2
  | int v =>
    rw [rightHand] at loaded
    cases constant : loadConstant m Register.at1 v with
    | error e =>
      rw [constant] at loaded
      cases loaded
    | ok load' =>
      rw [constant] at loaded
      cases loaded
      exact (length_loadConstant constant).2
  | _ => cases loaded

variable {ops : List Operand} {labels : Labels}

theorem measured_selectReg (op : RegOp) : Measured (selectReg op ops) := by
  fun_cases selectReg op ops <;> simp
  all_goals grind [length_loadConstant]

theorem measured_selectConstant (op : ImmOp) (rt rs : Reg) (v : Int) :
    Measured (selectConstant op rt rs v) := by
  fun_cases selectConstant op rt rs v <;> simp
  all_goals grind [length_loadConstant]

theorem measured_selectImm (op : ImmOp) : Measured (selectImm op ops) := by
  fun_cases selectImm op ops
  · exact measured_selectConstant op _ _ _
  · exact (measured_selectConstant op _ _ _).map fun _ => rfl
  · exact measured_wrong _ _

theorem measured_selectShift (op : ImmOp) : Measured (selectShift op ops) := by
  fun_cases selectShift op ops <;> simp

theorem measured_selectHiLo (op : HiLoOp) : Measured (selectHiLo op ops) := by
  fun_cases selectHiLo op ops <;> simp
  all_goals grind [length_rightHand]

theorem length_wideAccess (op : MemOp) (data : Fin 32) (a : Word) (base : Option Reg) :
    0 < (wideAccess op data a base).length ∧ (wideAccess op data a base).length ≤ 4 := by
  cases base <;> simp [wideAccess]

theorem measured_selectAccess (m : Mnemonic) (op : MemOp) (data : Fin 32) (place : Operand) :
    Measured (selectAccess m op data place labels) := by
  fun_cases selectAccess m op data place labels <;> simp [length_wideAccess]

theorem measured_selectMem (m : Mnemonic) (op : MemOp) : Measured (selectMem m op ops labels) := by
  fun_cases selectMem m op ops labels <;> simp [measured_selectAccess]

theorem measured_selectBranch (op : BranchOp) : Measured (selectBranch op ops labels) := by
  fun_cases selectBranch op ops labels <;> simp
  all_goals grind [length_loadConstant]

theorem measured_selectLi : Measured (selectLi ops) := by
  fun_cases selectLi ops <;> simp
  all_goals grind [length_loadConstant]

theorem measured_selectLa : Measured (selectLa ops labels) := by
  fun_cases selectLa ops labels <;> simp [loadAddress]
  all_goals grind [length_loadConstant]

theorem measured_selectUnary (m : Mnemonic) (make : Reg → Reg → Instruction) :
    Measured (selectUnary m make ops) := by
  fun_cases selectUnary m make ops <;> simp

theorem measured_selectPair (m : Mnemonic) {make : Reg → Reg → Selected}
    (measured : ∀ rd rs, Measured (make rd rs)) : Measured (selectPair m make ops) := by
  fun_cases selectPair m make ops <;> simp [measured]

theorem measured_selectFloatPair (m : Mnemonic) (make : FReg → FReg → Instruction) :
    Measured (selectFloatPair m make ops) := by
  fun_cases selectFloatPair m make ops <;> simp

theorem measured_selectGoto (m : Mnemonic) {make : Target → Selected}
    (measured : ∀ t, Measured (make t)) : Measured (selectGoto m make ops labels) := by
  fun_cases selectGoto m make ops labels <;> simp [measured]

theorem measured_selectBranchZero (equal : Bool) :
    Measured (selectBranchZero equal ops labels) := by
  fun_cases selectBranchZero equal ops labels <;> simp

theorem measured_selectBranchRelation (relation : Relation) (unsigned : Bool) :
    Measured (selectBranchRelation relation unsigned ops labels) := by
  fun_cases selectBranchRelation relation unsigned ops labels <;> simp
  all_goals grind [length_rightHand]

theorem measured_selectSetRelation (relation : SetRelation) :
    Measured (selectSetRelation relation ops) := by
  fun_cases selectSetRelation relation ops
  · cases relation <;> simp
    all_goals grind [length_rightHand]
  · simp

theorem measured_selectRem (unsigned : Bool) : Measured (selectRem unsigned ops) := by
  fun_cases selectRem unsigned ops <;> simp
  all_goals grind [length_rightHand]

theorem measured_selectSubi (unsigned : Bool) : Measured (selectSubi unsigned ops) := by
  fun_cases selectSubi unsigned ops <;> simp
  all_goals grind [length_loadConstant]

theorem measured_selectCompare (cond : Cond) (fmt : Precision) :
    Measured (selectCompare cond fmt ops) := by
  fun_cases selectCompare cond fmt ops <;> simp

theorem measured_selectFloatArith (op : FloatOp) (fmt : Precision) :
    Measured (selectFloatArith op fmt ops) := by
  fun_cases selectFloatArith op fmt ops <;> simp

theorem measured_selectFloatMoveIf (nonzero : Bool) (fmt : Precision) :
    Measured (selectFloatMoveIf nonzero fmt ops) := by
  fun_cases selectFloatMoveIf nonzero fmt ops <;> simp

theorem measured_selectFloatMoveOnFlag (expected : Bool) (fmt : Precision) :
    Measured (selectFloatMoveOnFlag expected fmt ops) := by
  fun_cases selectFloatMoveOnFlag expected fmt ops <;> simp

theorem measured_selectBare (m : Mnemonic) (i : Instruction) : Measured (selectBare m i ops) := by
  fun_cases selectBare m i ops <;> simp

theorem measured_selectBreakpoint : Measured (selectBreakpoint ops) := by
  fun_cases selectBreakpoint ops <;> simp

theorem measured_selectLui : Measured (selectLui ops) := by
  fun_cases selectLui ops <;> simp

theorem measured_selectHiLoMove (op : HiLoMove) : Measured (selectHiLoMove op ops) := by
  fun_cases selectHiLoMove op ops <;> simp

theorem measured_selectJumpReg : Measured (selectJumpReg ops) := by
  fun_cases selectJumpReg ops <;> simp

theorem measured_selectCallReg : Measured (selectCallReg ops) := by
  fun_cases selectCallReg ops <;> simp

theorem measured_selectBranchFlag (expected : Bool) :
    Measured (selectBranchFlag expected ops labels) := by
  fun_cases selectBranchFlag expected ops labels <;> simp

theorem measured_selectMoveWord (toFloat : Bool) : Measured (selectMoveWord toFloat ops) := by
  fun_cases selectMoveWord toFloat ops <;> simp

theorem measured_selectMoveOnFlag (expected : Bool) : Measured (selectMoveOnFlag expected ops) := by
  fun_cases selectMoveOnFlag expected ops <;> simp

theorem measured_select (m : Mnemonic) : Measured (select m ops labels) := by
  cases m with
  | reg op => exact measured_selectReg op
  | imm op =>
    unfold select
    dsimp only
    split
    · exact measured_selectShift op
    · exact measured_selectImm op
  | hiLo op => exact measured_selectHiLo op
  | mem op => exact measured_selectMem _ op
  | dottedMem op => exact (measured_selectMem _ op).map fun _ => rfl
  | branch op => exact measured_selectBranch op
  | compare cond fmt => exact measured_selectCompare cond fmt
  | convert | floatToWord | floatUnary => exact measured_selectFloatPair _ _
  | floatArith op fmt => exact measured_selectFloatArith op fmt
  | floatMoveIf nonzero fmt => exact measured_selectFloatMoveIf nonzero fmt
  | floatMoveOnFlag expected fmt => exact measured_selectFloatMoveOnFlag expected fmt
  | nop | syscall => exact measured_selectBare _ _
  | breakpoint => exact measured_selectBreakpoint
  | lui => exact measured_selectLui
  | count op => exact measured_selectPair _ fun _ _ => measured_basic _
  | hiLoMove op => exact measured_selectHiLoMove op
  | jump link => exact measured_selectGoto _ fun _ => measured_basic _
  | jr => exact measured_selectJumpReg
  | jalr => exact measured_selectCallReg
  | branchFlag expected => exact measured_selectBranchFlag expected
  | moveWord toFloat => exact measured_selectMoveWord toFloat
  | moveOnFlag expected => exact measured_selectMoveOnFlag expected
  | li => exact measured_selectLi
  | la => exact measured_selectLa
  | neg | negu | not => exact measured_selectUnary _ _
  | move | abs => exact measured_selectPair _ fun _ _ => by simp
  | b => exact measured_selectGoto _ fun _ => by simp
  | branchZero equal => exact measured_selectBranchZero equal
  | branchRelation relation unsigned => exact measured_selectBranchRelation relation unsigned
  | setRelation relation => exact measured_selectSetRelation relation
  | rem unsigned => exact measured_selectRem unsigned
  | subi unsigned => exact measured_selectSubi unsigned

end Selection

theorem measured_expand (name : String) (args : List String) (labels : Labels) :
    Selection.Measured (expand name args labels) := by
  refine (Selection.measured_bind _ _).mpr fun ops _ => ?_
  split
  · exact Selection.measured_error _
  · exact Selection.measured_select _

theorem expand_ne_nil {name : String} {args : List String} {labels : Labels} {e : Expansion}
    (expanded : expand name args labels = .ok e) : e.instrs ≠ [] :=
  List.ne_nil_of_length_pos (measured_expand name args labels e expanded).1

theorem length_expand_le {name : String} {args : List String} {labels : Labels} {e : Expansion}
    (expanded : expand name args labels = .ok e) : e.instrs.length ≤ 4 :=
  (measured_expand name args labels e expanded).2

/-- A line that makes instructions in both passes makes as many in the second as in the first. -/
theorem length_expand {name : String} {args : List String} {labels : Labels} {sized e : Expansion}
    (sizing : expand name args unplaced = .ok sized) (expanded : expand name args labels = .ok e) :
    e.instrs.length = sized.instrs.length := by
  have agrees := agrees_expand labels name args
  rw [sizing, expanded] at agrees
  obtain ⟨label, -, missing⟩ | ⟨bound, selected, same⟩ := agrees
  · cases missing
  · cases selected
    have lengths := congrArg List.length same.instrs
    rw [List.length_map, List.length_map] at lengths
    exact lengths.symm

end MipsLab
