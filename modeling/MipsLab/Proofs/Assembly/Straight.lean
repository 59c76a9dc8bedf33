import MipsLab.Assembly.Selection

/-! What expansions are made of. A pseudo-instruction expands to instructions on integer registers,
loads and stores, and branches; there is no system call among them, and no jump. -/
namespace MipsLab

def Instruction.isStraight : Instruction → Bool
  | .reg .. | .imm .. | .lui .. | .hiLo .. | .hiLoMove .. | .branch .. | .mem .. => true
  | _ => false

/-- Mnemonics that only name basic instructions. -/
def Mnemonic.isBasic : Mnemonic → Bool
  | compare .. | convert .. | floatToWord .. | floatArith .. | floatUnary .. | floatMoveIf ..
  | floatMoveOnFlag .. | nop | syscall | breakpoint | lui | count _ | hiLoMove _ | jump _ | jr
  | jalr | branchFlag _ | moveWord _ | moveOnFlag _ => true
  | _ => false

namespace Selection

/-- Whatever is selected is made of straight instructions. -/
def Straight (selected : Selected) : Prop :=
  ∀ e, selected = .ok e → e.instrs.all Instruction.isStraight = true

theorem straight_error {e : AssemblyError} : Straight (.error e) := by
  intro e selected
  exact absurd selected nofun

theorem straight_ok {e : Expansion} (straight : e.instrs.all Instruction.isStraight = true) :
    Straight (.ok e) := by
  intro f selected
  obtain rfl := Except.ok.inj selected
  exact straight

theorem straight_bind {α : Type} {x : Except AssemblyError α} {f : α → Selected}
    (next : ∀ a, x = .ok a → Straight (f a)) : Straight (x >>= f) := by
  cases x with
  | error e => exact straight_error
  | ok a => exact next a rfl

theorem straight_append {load tail : List Instruction}
    (before : load.all Instruction.isStraight = true)
    (behind : tail.all Instruction.isStraight = true) : Straight (pseudo (load ++ tail)) := by
  refine straight_ok ?_
  rw [List.all_append, before, behind]
  rfl

theorem straight_loadConstant {m : Mnemonic} {rd : Reg} {v : Int} {load : List Instruction}
    (loaded : loadConstant m rd v = .ok load) : load.all Instruction.isStraight = true := by
  unfold loadConstant at loaded
  split at loaded
  · exact absurd loaded nofun
  · split at loaded
    · obtain rfl := Except.ok.inj loaded
      rfl
    · split at loaded <;> obtain rfl := Except.ok.inj loaded <;> rfl

theorem straight_rightHand {m : Mnemonic} {right : Operand} {load : List Instruction} {rt : Reg}
    (held : rightHand m right = .ok (load, rt)) : load.all Instruction.isStraight = true := by
  cases right with
  | gpr r =>
    obtain ⟨rfl, rfl⟩ := Prod.mk.inj (Except.ok.inj held)
    rfl
  | int v =>
    cases loaded : loadConstant m Register.at1 v with
    | error e => simp [rightHand, loaded, bind, Except.bind] at held
    | ok is =>
      simp only [rightHand, loaded, bind, Except.bind, pure, Except.pure, Except.ok.injEq,
        Prod.mk.injEq] at held
      obtain ⟨rfl, rfl⟩ := held
      exact straight_loadConstant loaded
  | _ => exact absurd held nofun

section Families

variable {ops : List Operand} {labels : Labels}

theorem straight_selectReg (op : RegOp) : Straight (selectReg op ops) := by
  unfold selectReg
  dsimp only
  split
  · exact straight_ok rfl
  · split
    · exact straight_error
    · split
      · exact straight_ok rfl
      · refine straight_bind ?_
        intro load loaded
        exact straight_append (straight_loadConstant loaded) rfl
  · exact straight_error

theorem straight_selectConstant (op : ImmOp) (rt rs : Reg) (v : Int) :
    Straight (selectConstant op rt rs v) := by
  unfold selectConstant
  dsimp only
  split
  · exact straight_ok rfl
  · refine straight_bind ?_
    intro load loaded
    exact straight_append (straight_loadConstant loaded) rfl

theorem straight_selectImm (op : ImmOp) : Straight (selectImm op ops) := by
  unfold selectImm
  dsimp only
  split
  · exact straight_selectConstant op _ _ _
  · refine straight_bind ?_
    intro e selected
    exact straight_ok (straight_selectConstant op _ _ _ e selected)
  · exact straight_error

theorem straight_selectShift (op : ImmOp) : Straight (selectShift op ops) := by
  unfold selectShift
  dsimp only
  split
  · split
    · exact straight_ok rfl
    · exact straight_error
  · exact straight_ok rfl
  · exact straight_error

theorem straight_selectHiLo (op : HiLoOp) : Straight (selectHiLo op ops) := by
  unfold selectHiLo
  dsimp only
  split
  · exact straight_ok rfl
  · split
    · refine straight_bind ?_
      intro (load, rt) held
      exact straight_append (straight_rightHand held) rfl
    · exact straight_error
  · exact straight_error

theorem straight_wideAccess (op : MemOp) (data : Fin 32) (a : Word) (base : Option Reg) :
    Straight (pseudo (wideAccess op data a base)) := by
  cases base <;> exact straight_ok rfl

theorem straight_selectAccess (m : Mnemonic) (op : MemOp) (data : Fin 32) (place : Operand) :
    Straight (selectAccess m op data place labels) := by
  unfold selectAccess
  split
  · split
    · exact straight_ok rfl
    · split
      · exact straight_wideAccess op data _ _
      · exact straight_error
  · exact straight_bind fun a _ => straight_wideAccess op data a _
  · exact straight_bind fun a _ => straight_wideAccess op data a _
  · split
    · exact straight_ok rfl
    · split
      · exact straight_wideAccess op data _ _
      · exact straight_error
  · exact straight_error
  · exact straight_error

theorem straight_selectMem (m : Mnemonic) (op : MemOp) : Straight (selectMem m op ops labels) := by
  unfold selectMem
  split
  · split
    · exact straight_selectAccess m op _ _
    · exact straight_error
  · split
    · exact straight_error
    · exact straight_selectAccess m op _ _
  · exact straight_error

theorem straight_selectBranch (op : BranchOp) : Straight (selectBranch op ops labels) := by
  unfold selectBranch
  dsimp only
  split
  · split
    · exact straight_bind fun t _ => straight_ok rfl
    · refine straight_bind ?_
      intro load loaded
      refine straight_bind ?_
      intro t _
      exact straight_append (straight_loadConstant loaded) rfl
    · exact straight_error
  · split
    · exact straight_bind fun t _ => straight_ok rfl
    · exact straight_error

theorem straight_selectBranchZero (equal : Bool) :
    Straight (selectBranchZero equal ops labels) := by
  unfold selectBranchZero
  split
  · exact straight_bind fun t _ => straight_ok rfl
  · exact straight_error

theorem straight_selectBranchRelation (relation : Relation) (unsigned : Bool) :
    Straight (selectBranchRelation relation unsigned ops labels) := by
  unfold selectBranchRelation
  split
  · refine straight_bind ?_
    intro (load, rt) held
    refine straight_bind ?_
    intro t _
    exact straight_append (straight_rightHand held) rfl
  · exact straight_error

theorem straight_selectLi : Straight (selectLi ops) := by
  unfold selectLi
  split
  · refine straight_bind ?_
    intro load loaded
    exact straight_ok (straight_loadConstant loaded)
  · exact straight_error

theorem straight_selectLa : Straight (selectLa ops labels) := by
  unfold selectLa
  split
  · exact straight_bind fun a _ => straight_ok rfl
  · refine straight_bind ?_
    intro load loaded
    exact straight_ok (straight_loadConstant loaded)
  · split
    · exact straight_ok rfl
    · split
      · exact straight_ok rfl
      · exact straight_error
  · exact straight_bind fun a _ => straight_ok rfl
  · exact straight_error

theorem straight_selectUnary (m : Mnemonic) {make : Reg → Reg → Instruction}
    (straight : ∀ rd rs, (make rd rs).isStraight = true) :
    Straight (selectUnary m make ops) := by
  unfold selectUnary
  split
  · exact straight_ok (by simp [straight])
  · exact straight_ok (by simp [straight])
  · exact straight_error

theorem straight_selectPair (m : Mnemonic) {make : Reg → Reg → Selected}
    (straight : ∀ rd rs, Straight (make rd rs)) : Straight (selectPair m make ops) := by
  unfold selectPair
  split
  · exact straight _ _
  · exact straight_error

theorem straight_selectGoto (m : Mnemonic) {make : Target → Selected}
    (straight : ∀ t, Straight (make t)) : Straight (selectGoto m make ops labels) := by
  unfold selectGoto
  split
  · exact straight_bind fun t _ => straight t
  · exact straight_error

theorem straight_selectSetRelation (relation : SetRelation) :
    Straight (selectSetRelation relation ops) := by
  unfold selectSetRelation
  split
  · refine straight_bind ?_
    intro (load, rt) held
    refine straight_append (straight_rightHand held) ?_
    cases relation <;> rfl
  · exact straight_error

theorem straight_selectRem (unsigned : Bool) : Straight (selectRem unsigned ops) := by
  unfold selectRem
  split
  · refine straight_bind ?_
    intro (load, rt) held
    exact straight_append (straight_rightHand held) rfl
  · exact straight_error

theorem straight_selectSubi (unsigned : Bool) : Straight (selectSubi unsigned ops) := by
  unfold selectSubi
  split
  · split
    · exact straight_ok rfl
    · refine straight_bind ?_
      intro load loaded
      exact straight_append (straight_loadConstant loaded) rfl
  · exact straight_error

theorem straight_select {m : Mnemonic} (compound : m.isBasic = false) :
    Straight (select m ops labels) := by
  cases m with
  | reg op => exact straight_selectReg op
  | imm op =>
    unfold select
    dsimp only
    split
    · exact straight_selectShift op
    · exact straight_selectImm op
  | hiLo op => exact straight_selectHiLo op
  | mem op => exact straight_selectMem _ op
  | dottedMem op =>
    refine straight_bind ?_
    intro e selected
    exact straight_ok (straight_selectMem _ op e selected)
  | branch op => exact straight_selectBranch op
  | li => exact straight_selectLi
  | la => exact straight_selectLa
  | move => exact straight_selectPair _ fun _ _ => straight_ok rfl
  | neg | negu | not => exact straight_selectUnary _ fun _ _ => rfl
  | abs => exact straight_selectPair _ fun _ _ => straight_ok rfl
  | b => exact straight_selectGoto _ fun _ => straight_ok rfl
  | branchZero equal => exact straight_selectBranchZero equal
  | branchRelation relation unsigned => exact straight_selectBranchRelation relation unsigned
  | setRelation relation => exact straight_selectSetRelation relation
  | rem unsigned => exact straight_selectRem unsigned
  | subi unsigned => exact straight_selectSubi unsigned
  | _ => exact absurd compound Bool.true_eq_false.mp

end Families

end Selection

end MipsLab
