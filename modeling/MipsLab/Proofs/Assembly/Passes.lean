import MipsLab.Assembly.Selection

/-! The two passes over a line agree. Before labels are placed a line is selected with every label
at address zero, and afterwards with the addresses as they are. Both selections make the same
choices, since an address only ever fills in a field of an instruction that was chosen before. -/
namespace MipsLab

/-- An instruction without its constant, displacement or target address. -/
def Instruction.skeleton : Instruction → Instruction
  | .imm op rt rs _ => .imm op rt rs 0
  | .lui rt _ => .lui rt 0
  | .jump link target => .jump link { target with address := 0 }
  | .branch op rs rt target => .branch op rs rt { target with address := 0 }
  | .branchFlag expected flag target => .branchFlag expected flag { target with address := 0 }
  | .mem op data base _ => .mem op data base 0
  | i => i

structure Expansion.SameShape (e f : Expansion) : Prop where
  pseudo : e.pseudo = f.pseudo
  instrs : e.instrs.map Instruction.skeleton = f.instrs.map Instruction.skeleton

theorem Expansion.SameShape.refl (e : Expansion) : e.SameShape e := ⟨rfl, rfl⟩

namespace Selection

open Register (zero at1)

variable {α β : Type} {labels : Labels}

/-- The outcome of a pass with placed labels fits that of the sizing pass: what fails there fails
here, and what succeeds there leads here to a related value or to a label that is not defined. -/
def Agrees (labels : Labels) (related : α → α → Prop) (sized bound : Except AssemblyError α) :
    Prop :=
  match sized with
  | .error _ => ∃ e, bound = .error e
  | .ok a => (∃ name, labels name = none ∧ bound = .error (.undefinedLabel name)) ∨
      ∃ b, bound = .ok b ∧ related a b

theorem Agrees.of_eq {related : α → α → Prop} (refl : ∀ a, related a a)
    (x : Except AssemblyError α) : Agrees labels related x x := by
  cases x with
  | error e => exact ⟨e, rfl⟩
  | ok a => exact .inr ⟨a, rfl, refl a⟩

theorem Agrees.bind {first : α → α → Prop} {second : β → β → Prop} {x y : Except AssemblyError α}
    {f g : α → Except AssemblyError β} (agrees : Agrees labels first x y)
    (next : ∀ a b, first a b → Agrees labels second (f a) (g b)) :
    Agrees labels second (x >>= f) (y >>= g) := by
  cases x with
  | error e =>
    obtain ⟨reason, rfl⟩ := agrees
    exact ⟨reason, rfl⟩
  | ok a =>
    obtain ⟨name, missing, rfl⟩ | ⟨b, rfl, related⟩ := agrees
    · change Agrees labels second (f a) (.error (.undefinedLabel name))
      cases f a with
      | error e => exact ⟨_, rfl⟩
      | ok c => exact .inl ⟨name, missing, rfl⟩
    · exact next a b related

/-- Work that does not look at labels goes on in both passes with the same value. -/
theorem Agrees.bind_same {second : β → β → Prop} (x : Except AssemblyError α)
    {f g : α → Except AssemblyError β} (next : ∀ a, Agrees labels second (f a) (g a)) :
    Agrees labels second (x >>= f) (x >>= g) := by
  refine Agrees.bind (Agrees.of_eq (fun _ => rfl) x) ?_
  intro a b same
  subst same
  exact next a

theorem agrees_error {related : α → α → Prop} (e : AssemblyError) :
    Agrees labels related (.error e : Except AssemblyError α) (.error e) := ⟨e, rfl⟩

theorem agrees_pseudo {is js : List Instruction}
    (same : is.map Instruction.skeleton = js.map Instruction.skeleton) :
    Agrees labels Expansion.SameShape (pseudo is) (pseudo js) := .inr ⟨_, rfl, rfl, same⟩

theorem agrees_basic {i j : Instruction} (same : i.skeleton = j.skeleton) :
    Agrees labels Expansion.SameShape (basic i) (basic j) :=
  .inr ⟨_, rfl, rfl, congrArg (fun k => [k]) same⟩

theorem agrees_labelAddress (name : String) (offset : Int) :
    Agrees labels (fun _ _ => True) (labelAddress unplaced name offset)
      (labelAddress labels name offset) := by
  unfold labelAddress
  cases placed : labels name with
  | none => exact .inl ⟨name, placed, rfl⟩
  | some address => exact .inr ⟨_, rfl, trivial⟩

theorem agrees_target (m : Mnemonic) (place : Operand) :
    Agrees labels (fun t u => t.label = u.label) (target m unplaced place)
      (target m labels place) := by
  cases place with
  | label name offset =>
    refine Agrees.bind (agrees_labelAddress name offset) ?_
    intro a b _
    exact .inr ⟨_, rfl, rfl⟩
  | _ =>
    refine Agrees.of_eq ?_ _
    intro t
    rfl

theorem skeleton_wideAccess (op : MemOp) (data : Fin 32) (a b : Word) (base : Option Reg) :
    (wideAccess op data a base).map Instruction.skeleton =
      (wideAccess op data b base).map Instruction.skeleton := by
  cases base <;> simp only [wideAccess, List.map_cons, List.map_nil, Instruction.skeleton]

theorem agrees_selectAccess (m : Mnemonic) (op : MemOp) (data : Fin 32) (place : Operand) :
    Agrees labels Expansion.SameShape (selectAccess m op data place unplaced)
      (selectAccess m op data place labels) := by
  cases place with
  | label name offset =>
    refine Agrees.bind (agrees_labelAddress name offset) ?_
    intro a b _
    exact agrees_pseudo (skeleton_wideAccess op data a b none)
  | mem label offset base =>
    cases label with
    | none => exact Agrees.of_eq .refl _
    | some name =>
      refine Agrees.bind (agrees_labelAddress name offset) ?_
      intro a b _
      exact agrees_pseudo (skeleton_wideAccess op data a b (some base))
  | _ => exact Agrees.of_eq .refl _

theorem agrees_selectMem (m : Mnemonic) (op : MemOp) (ops : List Operand) :
    Agrees labels Expansion.SameShape (selectMem m op ops unplaced)
      (selectMem m op ops labels) := by
  unfold selectMem
  split
  · split
    · exact agrees_selectAccess m op _ _
    · exact agrees_error _
  · split
    · exact agrees_error _
    · exact agrees_selectAccess m op _ _
  · exact agrees_error _

/-- A selection that only uses the target of its last operand. -/
theorem agrees_targeted {make : Target → Selected} (m : Mnemonic) (place : Operand)
    (agrees : ∀ t u : Target, t.label = u.label →
      Agrees labels Expansion.SameShape (make t) (make u)) :
    Agrees labels Expansion.SameShape (target m unplaced place >>= make)
      (target m labels place >>= make) :=
  Agrees.bind (agrees_target m place) agrees

theorem skeleton_branch (op : BranchOp) (rs rt : Reg) {t u : Target} (same : t.label = u.label) :
    (Instruction.branch op rs rt t).skeleton = (Instruction.branch op rs rt u).skeleton := by
  simp only [Instruction.skeleton, same]

theorem agrees_selectBranch (op : BranchOp) (ops : List Operand) :
    Agrees labels Expansion.SameShape (selectBranch op ops unplaced)
      (selectBranch op ops labels) := by
  unfold selectBranch
  dsimp only
  split
  · split
    · next rs rt place =>
      refine agrees_targeted _ place ?_
      intro t u same
      exact agrees_basic (skeleton_branch op rs rt same)
    · next rs v place =>
      refine Agrees.bind_same _ ?_
      intro load
      refine agrees_targeted _ place ?_
      intro t u same
      apply agrees_pseudo
      rw [List.map_append, List.map_append, List.map_singleton, List.map_singleton,
        skeleton_branch op rs at1 same]
    · exact agrees_error _
  · split
    · next rs place =>
      refine agrees_targeted _ place ?_
      intro t u same
      exact agrees_basic (skeleton_branch op rs zero same)
    · exact agrees_error _

theorem agrees_selectGoto {make : Target → Selected} (m : Mnemonic) (ops : List Operand)
    (agrees : ∀ t u : Target, t.label = u.label →
      Agrees labels Expansion.SameShape (make t) (make u)) :
    Agrees labels Expansion.SameShape (selectGoto m make ops unplaced)
      (selectGoto m make ops labels) := by
  unfold selectGoto
  split
  · exact agrees_targeted m _ agrees
  · exact agrees_error _

theorem agrees_selectBranchFlag (expected : Bool) (ops : List Operand) :
    Agrees labels Expansion.SameShape (selectBranchFlag expected ops unplaced)
      (selectBranchFlag expected ops labels) := by
  have branches (i : Flag) (t u : Target) (same : t.label = u.label) :
      Agrees labels Expansion.SameShape (basic (.branchFlag expected i t))
        (basic (.branchFlag expected i u)) := by
    apply agrees_basic
    simp only [Instruction.skeleton, same]
  unfold selectBranchFlag
  dsimp only
  split
  · exact agrees_targeted _ _ (branches Flag.unnamed)
  · refine Agrees.bind_same _ ?_
    intro i
    exact agrees_targeted _ _ (branches i)
  · exact agrees_error _

theorem agrees_selectBranchZero (equal : Bool) (ops : List Operand) :
    Agrees labels Expansion.SameShape (selectBranchZero equal ops unplaced)
      (selectBranchZero equal ops labels) := by
  unfold selectBranchZero
  dsimp only
  split
  · refine agrees_targeted _ _ ?_
    intro t u same
    apply agrees_pseudo
    rw [List.map_singleton, List.map_singleton, skeleton_branch _ _ zero same]
  · exact agrees_error _

theorem agrees_selectBranchRelation (relation : Relation) (unsigned : Bool) (ops : List Operand) :
    Agrees labels Expansion.SameShape (selectBranchRelation relation unsigned ops unplaced)
      (selectBranchRelation relation unsigned ops labels) := by
  unfold selectBranchRelation
  dsimp only
  split
  · refine Agrees.bind_same _ ?_
    intro right
    refine agrees_targeted _ _ ?_
    intro t u same
    apply agrees_pseudo
    simp only [List.map_append, List.map_cons, List.map_nil, skeleton_branch _ at1 zero same]
  · exact agrees_error _

theorem skeleton_loadAddress (rd : Reg) (a b : Word) :
    (loadAddress rd a).map Instruction.skeleton = (loadAddress rd b).map Instruction.skeleton := by
  simp only [loadAddress, List.map_cons, List.map_nil, Instruction.skeleton]

theorem agrees_selectLa (ops : List Operand) :
    Agrees labels Expansion.SameShape (selectLa ops unplaced) (selectLa ops labels) := by
  unfold selectLa
  split
  · refine Agrees.bind (agrees_labelAddress _ _) ?_
    intro a b _
    exact agrees_pseudo (skeleton_loadAddress _ a b)
  · exact Agrees.of_eq .refl _
  · exact Agrees.of_eq .refl _
  · refine Agrees.bind (agrees_labelAddress _ _) ?_
    intro a b _
    apply agrees_pseudo
    rw [List.map_append, List.map_append, skeleton_loadAddress _ a b]
  · exact agrees_error _

theorem agrees_select (m : Mnemonic) (ops : List Operand) :
    Agrees labels Expansion.SameShape (select m ops unplaced) (select m ops labels) := by
  cases m with
  | mem op => exact agrees_selectMem _ op ops
  | dottedMem op =>
    refine Agrees.bind (agrees_selectMem _ op ops) ?_
    intro e f same
    exact .inr ⟨_, rfl, rfl, same.instrs⟩
  | branch op => exact agrees_selectBranch op ops
  | jump link =>
    refine agrees_selectGoto _ ops ?_
    intro t u same
    apply agrees_basic
    simp only [Instruction.skeleton, same]
  | branchFlag expected => exact agrees_selectBranchFlag expected ops
  | la => exact agrees_selectLa ops
  | b =>
    refine agrees_selectGoto _ ops ?_
    intro t u same
    apply agrees_pseudo
    rw [List.map_singleton, List.map_singleton, skeleton_branch _ _ _ same]
  | branchZero equal => exact agrees_selectBranchZero equal ops
  | branchRelation relation unsigned => exact agrees_selectBranchRelation relation unsigned ops
  | _ => exact Agrees.of_eq .refl _

end Selection

theorem agrees_expand (labels : Labels) (name : String) (args : List String) :
    Selection.Agrees labels Expansion.SameShape (expand name args unplaced)
      (expand name args labels) := by
  refine Selection.Agrees.bind_same _ ?_
  intro ops
  split
  · exact Selection.agrees_error _
  · exact Selection.agrees_select _ ops

/-- The sizing pass and the final pass over a line agree. If the line cannot be sized, it cannot be
selected either. If it can, the only thing that can go wrong later is a label that is not defined;
otherwise both passes yield as many instructions, of the same operations on the same registers. -/
theorem expand_sized (name : String) (args : List String) (labels : Labels) :
    match expand name args unplaced with
    | .ok sized =>
      (∃ label, labels label = none ∧ expand name args labels = .error (.undefinedLabel label)) ∨
        ∃ bound, expand name args labels = .ok bound ∧
          bound.instrs.length = sized.instrs.length ∧ bound.pseudo = sized.pseudo ∧
          bound.instrs.map Instruction.skeleton = sized.instrs.map Instruction.skeleton
    | .error _ => ∃ e, expand name args labels = .error e := by
  have agrees := agrees_expand labels name args
  cases sizing : expand name args unplaced with
  | error e =>
    rw [sizing] at agrees
    exact agrees
  | ok sized =>
    rw [sizing] at agrees
    obtain missing | ⟨bound, selected, same⟩ := agrees
    · exact .inl missing
    · refine .inr ⟨bound, selected, ?_, same.pseudo.symm, same.instrs.symm⟩
      have lengths := congrArg List.length same.instrs
      rw [List.length_map, List.length_map] at lengths
      exact lengths.symm

end MipsLab
