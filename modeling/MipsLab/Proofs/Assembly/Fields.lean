import MipsLab.Proofs.Assembly.Overlay
import MipsLab.Proofs.Machine.Guarded
import Mathlib

/-! The fields of the instructions that are selected. Every constant and displacement fits its
field, and a jump or branch goes where the last operand of its line says. -/
namespace MipsLab

open Selection (fitsSigned16 fitsUnsigned16 fitsShift fitsWord word)

/-- The constants that an operation can hold. -/
@[grind] def ImmOp.Holds (op : ImmOp) (v : Int) : Prop :=
  if op.isLogical then fitsUnsigned16 v else if op.isShift then fitsShift v else fitsSigned16 v

attribute [grind] ImmOp.isLogical ImmOp.isShift

namespace Instruction

/-- The fields that not everything of their type fits. -/
@[grind] def Fits : Instruction → Prop
  | imm op _ _ v => op.Holds v
  | branch op _ rt _ => op.comparesRegisters = false → rt = Register.zero
  | convert target source _ _ => target ≠ source
  | mem _ _ _ offset => fitsSigned16 offset
  | _ => True

@[grind] def target? : Instruction → Option Target
  | jump _ t | branch _ _ _ t | branchFlag _ _ t => some t
  | _ => none

end Instruction

namespace Selection

/-- An operand stands for a target: a label and an offset from it, or a number. -/
def Resolves (labels : Labels) (place : Operand) (t : Target) : Prop :=
  match place with
  | .label name offset => ∃ base, labels name = some base ∧ t = ⟨base + word offset, some name⟩
  | .int v => fitsWord v ∧ t = ⟨word v, none⟩
  | _ => False

theorem resolves_target {m : Mnemonic} {labels : Labels} {place : Operand} {t : Target}
    (found : target m labels place = .ok t) : Resolves labels place t := by
  cases place with
  | label name offset =>
    obtain ⟨a, placed, made⟩ := except_bind_ok found
    cases made
    unfold labelAddress at placed
    split at placed
    · next base known =>
      cases placed
      exact ⟨base, known, rfl⟩
    · cases placed
  | int v =>
    rw [target] at found
    split at found
    · next fits =>
      cases found
      exact ⟨fits, rfl⟩
    · cases found
  | _ => cases found

/-- An instruction that may be selected for a line with these operands. -/
structure Made (labels : Labels) (ops : List Operand) (i : Instruction) : Prop where
  fits : i.Fits
  goes : ∀ t, i.target? = some t → ∃ place, ops.getLast? = some place ∧ Resolves labels place t

/-- Everything that is selected may be selected. -/
def Makes (labels : Labels) (ops : List Operand) (selected : Selected) : Prop :=
  ∀ e, selected = .ok e → ∀ i ∈ e.instrs, Made labels ops i

variable {labels : Labels} {ops : List Operand}

@[simp] theorem makes_error (e : AssemblyError) : Makes labels ops (.error e) := nofun

@[simp] theorem makes_wrong (m : Mnemonic) (expected : String) :
    Makes labels ops (wrong m expected) := nofun

@[simp] theorem makes_outOfRange (m : Mnemonic) (v : Int) : Makes labels ops (outOfRange m v) :=
  nofun

@[simp] theorem makes_pseudo (is : List Instruction) :
    Makes labels ops (pseudo is) ↔ ∀ i ∈ is, Made labels ops i := by
  refine ⟨fun makes => makes _ rfl, ?_⟩
  rintro all e ⟨⟩
  exact all

@[simp] theorem makes_basic (i : Instruction) :
    Makes labels ops (basic i) ↔ Made labels ops i := by
  refine ⟨fun makes => makes _ rfl i List.mem_cons_self, ?_⟩
  rintro made e ⟨⟩ j member
  cases List.mem_singleton.mp member
  exact made

@[simp] theorem makes_bind {α : Type} (x : Except AssemblyError α) (f : α → Selected) :
    Makes labels ops (x >>= f) ↔ ∀ a, x = .ok a → Makes labels ops (f a) := by
  cases x with
  | error e => exact ⟨fun _ => nofun, fun _ => makes_error e⟩
  | ok a => exact ⟨fun makes b same => Except.ok.inj same ▸ makes, fun next => next a rfl⟩

theorem Makes.map {x : Selected} {f : Expansion → Expansion} (makes : Makes labels ops x)
    (same : ∀ e, (f e).instrs = e.instrs) : Makes labels ops (f <$> x) := by
  cases x with
  | error e => exact makes_error e
  | ok e =>
    rintro _ ⟨⟩
    exact same e ▸ makes e rfl

/-- An instruction without a target only has to fit. -/
@[grind .] theorem made_of_fits {i : Instruction} (fits : i.Fits) (straight : i.target? = none) :
    Made labels ops i :=
  ⟨fits, fun t found => by rw [straight] at found; cases found⟩

/-- An instruction with a target goes where the last operand says. -/
@[grind <=] theorem made_of_target {i : Instruction} {m : Mnemonic} {place : Operand} {t : Target}
    (last : ops.getLast? = some place) (fits : i.Fits) (goes : i.target? = some t)
    (found : target m labels place = .ok t) : Made labels ops i := by
  refine ⟨fits, fun t' same => ⟨place, last, ?_⟩⟩
  cases goes.symm.trans same
  exact resolves_target found

theorem lowerHalf_fits (w : Word) : fitsUnsigned16 ((lowerHalf w).toNat : Int) := by
  have below : (lowerHalf w).toNat < 2 ^ 16 := (lowerHalf w).isLt
  omega

theorem made_loadConstant {m : Mnemonic} {rd : Reg} {v : Int} {load : List Instruction}
    (loaded : loadConstant m rd v = .ok load) : ∀ i ∈ load, Made labels ops i := by
  unfold loadConstant at loaded
  split at loaded
  · cases loaded
  split at loaded
  · next fits =>
    cases loaded
    have made : Made labels ops (.imm .ori rd Register.zero v) := made_of_fits fits rfl
    simpa using made
  split at loaded
  · next fits =>
    cases loaded
    have made : Made labels ops (.imm .addiu rd Register.zero v) := made_of_fits fits rfl
    simpa using made
  · cases loaded
    simpa using ⟨made_of_fits trivial rfl, made_of_fits (lowerHalf_fits _) rfl⟩

theorem made_rightHand {m : Mnemonic} {right : Operand} {load : List Instruction} {rt : Reg}
    (loaded : rightHand m right = .ok (load, rt)) : ∀ i ∈ load, Made labels ops i := by
  cases right with
  | gpr r =>
    cases loaded
    exact fun i member => absurd member List.not_mem_nil
  | int v =>
    obtain ⟨_, constant, made⟩ := except_bind_ok loaded
    cases made
    exact made_loadConstant constant
  | _ => cases loaded

theorem immediateForm_holds {op : RegOp} {v : Int} {imm : ImmOp}
    (direct : immediateForm op v = some imm) : imm.Holds v := by
  unfold immediateForm at direct
  split at direct
  all_goals
    first
    | cases direct
    | split at direct
      · next fits =>
        cases direct
        exact fits
      · cases direct

section Families

theorem makes_selectReg (op : RegOp) : Makes labels ops (selectReg op ops) := by
  fun_cases selectReg op ops <;> simp
  all_goals grind [made_loadConstant, immediateForm_holds]

/-- The shifts have a smaller range, and are selected elsewhere. -/
theorem immediateFits_holds {op : ImmOp} {v : Int} (unshifted : op.isShift = false)
    (fits : immediateFits op v = true) : op.Holds v := by
  unfold immediateFits at fits
  unfold ImmOp.Holds
  split at fits
  · next logical => simpa [logical] using fits
  · next logical => simpa [logical, unshifted] using fits

theorem makes_selectConstant {op : ImmOp} (unshifted : op.isShift = false) (rt rs : Reg) (v : Int) :
    Makes labels ops (selectConstant op rt rs v) := by
  fun_cases selectConstant op rt rs v <;> simp
  all_goals grind [made_loadConstant, immediateFits_holds]

theorem makes_selectImm {op : ImmOp} (unshifted : op.isShift = false) :
    Makes labels ops (selectImm op ops) := by
  fun_cases selectImm op ops
  · exact makes_selectConstant unshifted _ _ _
  · exact (makes_selectConstant unshifted _ _ _).map fun _ => rfl
  · exact makes_wrong _ _

theorem makes_selectShift {op : ImmOp} (shift : op.isShift = true) :
    Makes labels ops (selectShift op ops) := by
  have holds {v : Int} (fits : fitsShift v) : op.Holds v := by
    cases op <;> first | exact fits | cases shift
  fun_cases selectShift op ops <;> simp
  all_goals grind

theorem makes_selectHiLo (op : HiLoOp) : Makes labels ops (selectHiLo op ops) := by
  fun_cases selectHiLo op ops <;> simp
  all_goals grind [made_rightHand]

/-- The lower half of an address, read with its sign, is a displacement. -/
theorem made_wideAccess (op : MemOp) (data : Fin 32) (a : Word) (base : Option Reg) :
    ∀ i ∈ wideAccess op data a base, Made labels ops i := by
  have low : fitsSigned16 (lowerHalf a).toInt := by
    have := BitVec.toInt_lt (x := lowerHalf a)
    have := BitVec.le_toInt (x := lowerHalf a)
    omega
  cases base <;> simp [wideAccess]
  all_goals grind

theorem makes_selectAccess (m : Mnemonic) (op : MemOp) (data : Fin 32) (place : Operand) :
    Makes labels ops (selectAccess m op data place labels) := by
  fun_cases selectAccess m op data place labels <;> simp
  all_goals grind [made_wideAccess]

theorem makes_selectMem (m : Mnemonic) (op : MemOp) :
    Makes labels ops (selectMem m op ops labels) := by
  fun_cases selectMem m op ops labels <;> simp [makes_selectAccess]

theorem makes_selectBranch (op : BranchOp) : Makes labels ops (selectBranch op ops labels) := by
  fun_cases selectBranch op ops labels <;> simp
  all_goals grind [made_loadConstant]

theorem makes_selectCompare (cond : Cond) (fmt : Precision) :
    Makes labels ops (selectCompare cond fmt ops) := by
  fun_cases selectCompare cond fmt ops <;> simp
  all_goals grind

theorem makes_selectFloatPair (m : Mnemonic) {make : FReg → FReg → Instruction}
    (made : ∀ fd fs, Made labels ops (make fd fs)) :
    Makes labels ops (selectFloatPair m make ops) := by
  fun_cases selectFloatPair m make ops <;> simp [made]

theorem makes_selectFloatArith (op : FloatOp) (fmt : Precision) :
    Makes labels ops (selectFloatArith op fmt ops) := by
  fun_cases selectFloatArith op fmt ops <;> simp
  all_goals grind

theorem makes_selectFloatMoveIf (nonzero : Bool) (fmt : Precision) :
    Makes labels ops (selectFloatMoveIf nonzero fmt ops) := by
  fun_cases selectFloatMoveIf nonzero fmt ops <;> simp
  all_goals grind

theorem makes_selectFloatMoveOnFlag (expected : Bool) (fmt : Precision) :
    Makes labels ops (selectFloatMoveOnFlag expected fmt ops) := by
  fun_cases selectFloatMoveOnFlag expected fmt ops <;> simp
  all_goals grind

theorem makes_selectBare (m : Mnemonic) {i : Instruction} (made : Made labels ops i) :
    Makes labels ops (selectBare m i ops) := by
  fun_cases selectBare m i ops <;> simp_all

theorem makes_selectBreakpoint : Makes labels ops (selectBreakpoint ops) := by
  fun_cases selectBreakpoint ops <;> simp
  all_goals grind

theorem makes_selectLui : Makes labels ops (selectLui ops) := by
  fun_cases selectLui ops <;> simp
  all_goals grind

theorem makes_selectPair (m : Mnemonic) {make : Reg → Reg → Selected}
    (makes : ∀ rd rs, Makes labels ops (make rd rs)) :
    Makes labels ops (selectPair m make ops) := by
  fun_cases selectPair m make ops <;> simp [makes]

theorem makes_selectHiLoMove (op : HiLoMove) : Makes labels ops (selectHiLoMove op ops) := by
  fun_cases selectHiLoMove op ops <;> simp
  all_goals grind

theorem makes_selectGoto (m : Mnemonic) {make : Target → Selected}
    (makes : ∀ place t, ops.getLast? = some place → target m labels place = .ok t →
      Makes labels ops (make t)) : Makes labels ops (selectGoto m make ops labels) := by
  fun_cases selectGoto m make ops labels <;> simp
  exact fun t found => makes _ t rfl found

theorem makes_selectJumpReg : Makes labels ops (selectJumpReg ops) := by
  fun_cases selectJumpReg ops <;> simp
  all_goals grind

theorem makes_selectCallReg : Makes labels ops (selectCallReg ops) := by
  fun_cases selectCallReg ops <;> simp
  all_goals grind

theorem makes_selectBranchFlag (expected : Bool) :
    Makes labels ops (selectBranchFlag expected ops labels) := by
  fun_cases selectBranchFlag expected ops labels <;> simp
  all_goals grind

theorem makes_selectMoveWord (toFloat : Bool) : Makes labels ops (selectMoveWord toFloat ops) := by
  fun_cases selectMoveWord toFloat ops <;> simp
  all_goals grind

theorem makes_selectMoveOnFlag (expected : Bool) :
    Makes labels ops (selectMoveOnFlag expected ops) := by
  fun_cases selectMoveOnFlag expected ops <;> simp
  all_goals grind

theorem makes_selectLi : Makes labels ops (selectLi ops) := by
  fun_cases selectLi ops <;> simp
  all_goals grind [made_loadConstant]

theorem made_loadAddress (rd : Reg) (a : Word) : ∀ i ∈ loadAddress rd a, Made labels ops i := by
  have low := lowerHalf_fits a
  simp [loadAddress]
  grind

theorem makes_selectLa : Makes labels ops (selectLa ops labels) := by
  fun_cases selectLa ops labels <;> simp
  all_goals grind [made_loadConstant, made_loadAddress]

theorem makes_selectUnary (m : Mnemonic) {make : Reg → Reg → Instruction}
    (made : ∀ rd rs, Made labels ops (make rd rs)) : Makes labels ops (selectUnary m make ops) := by
  fun_cases selectUnary m make ops <;> simp [made]

theorem makes_selectBranchZero (equal : Bool) :
    Makes labels ops (selectBranchZero equal ops labels) := by
  fun_cases selectBranchZero equal ops labels <;> simp
  all_goals grind

theorem makes_selectBranchRelation (relation : Relation) (unsigned : Bool) :
    Makes labels ops (selectBranchRelation relation unsigned ops labels) := by
  fun_cases selectBranchRelation relation unsigned ops labels <;> simp
  all_goals grind [made_rightHand]

theorem makes_selectSetRelation (relation : SetRelation) :
    Makes labels ops (selectSetRelation relation ops) := by
  fun_cases selectSetRelation relation ops
  · cases relation <;> simp
    all_goals grind [made_rightHand]
  · simp

theorem makes_selectRem (unsigned : Bool) : Makes labels ops (selectRem unsigned ops) := by
  fun_cases selectRem unsigned ops <;> simp
  all_goals grind [made_rightHand]

theorem makes_selectSubi (unsigned : Bool) : Makes labels ops (selectSubi unsigned ops) := by
  fun_cases selectSubi unsigned ops <;> simp
  all_goals grind [made_loadConstant]

end Families

theorem makes_select {m : Mnemonic} (known : m ∈ Mnemonic.all) :
    Makes labels ops (select m ops labels) := by
  have plain {i : Instruction} (fits : i.Fits) (straight : i.target? = none) :
      Made labels ops i := made_of_fits fits straight
  cases m with
  | reg op => exact makes_selectReg op
  | imm op =>
    unfold select
    dsimp only
    split
    · next shift => exact makes_selectShift shift
    · next unshifted => exact makes_selectImm (Bool.not_eq_true _ ▸ unshifted)
  | hiLo op => exact makes_selectHiLo op
  | mem op => exact makes_selectMem _ op
  | dottedMem op => exact (makes_selectMem _ op).map fun _ => rfl
  | branch op => exact makes_selectBranch op
  | compare cond fmt => exact makes_selectCompare cond fmt
  | convert target source =>
    have apart : target ≠ source := by
      rintro rfl
      cases target <;> exact absurd known (by decide)
    exact makes_selectFloatPair _ fun _ _ => plain apart rfl
  | floatToWord | floatUnary => exact makes_selectFloatPair _ fun _ _ => plain trivial rfl
  | floatArith op fmt => exact makes_selectFloatArith op fmt
  | floatMoveIf nonzero fmt => exact makes_selectFloatMoveIf nonzero fmt
  | floatMoveOnFlag expected fmt => exact makes_selectFloatMoveOnFlag expected fmt
  | nop | syscall => exact makes_selectBare _ (plain trivial rfl)
  | breakpoint => exact makes_selectBreakpoint
  | lui => exact makes_selectLui
  | count op => exact makes_selectPair _ fun _ _ => (makes_basic _).mpr (plain trivial rfl)
  | hiLoMove op => exact makes_selectHiLoMove op
  | jump link =>
    exact makes_selectGoto _ fun _ _ last found =>
      (makes_basic _).mpr (made_of_target last trivial rfl found)
  | jr => exact makes_selectJumpReg
  | jalr => exact makes_selectCallReg
  | branchFlag expected => exact makes_selectBranchFlag expected
  | moveWord toFloat => exact makes_selectMoveWord toFloat
  | moveOnFlag expected => exact makes_selectMoveOnFlag expected
  | li => exact makes_selectLi
  | la => exact makes_selectLa
  | neg | negu | not => exact makes_selectUnary _ fun _ _ => plain trivial rfl
  | move => exact makes_selectPair _ fun _ _ => (makes_pseudo _).mpr (by grind)
  | abs =>
    have amount : ImmOp.Holds .sra 31 := ⟨by decide, by decide⟩
    exact makes_selectPair _ fun _ _ => (makes_pseudo _).mpr (by grind)
  | b =>
    exact makes_selectGoto _ fun _ _ last found => (makes_pseudo _).mpr (by grind)
  | branchZero equal => exact makes_selectBranchZero equal
  | branchRelation relation unsigned => exact makes_selectBranchRelation relation unsigned
  | setRelation relation => exact makes_selectSetRelation relation
  | rem unsigned => exact makes_selectRem unsigned
  | subi unsigned => exact makes_selectSubi unsigned

end Selection

namespace Instruction

/-- The numbers of the integer and float registers in the fields of an instruction. -/
def registers : Instruction → List Nat
  | reg _ rd rs rt => [rd, rs, rt]
  | imm _ rt rs _ => [rt, rs]
  | lui rt _ => [rt]
  | hiLo _ rs rt => [rs, rt]
  | count _ rd rs => [rd, rs]
  | hiLoMove _ r => [r]
  | jumpReg link rs => (link.map Fin.val).toList ++ [rs.val]
  | branch _ rs rt _ => [rs, rt]
  | floatArith _ _ fd fs ft => [fd, fs, ft]
  | floatUnary _ _ fd fs | floatToWord _ _ fd fs | convert _ _ fd fs => [fd, fs]
  | compare _ _ _ fs ft => [fs, ft]
  | moveWord _ rt fs => [rt, fs]
  | floatMoveIf _ _ fd fs rt => [fd, fs, rt]
  | moveOnFlag _ rd rs _ => [rd, rs]
  | floatMoveOnFlag _ _ fd fs _ => [fd, fs]
  | mem _ data base _ => [data, base]
  | jump .. | branchFlag .. | nop | syscall | breakpoint _ => []

def flags : Instruction → List Nat
  | compare _ _ flag _ _ | branchFlag _ flag _ | moveOnFlag _ _ _ flag
  | floatMoveOnFlag _ _ _ _ flag => [flag]
  | _ => []

/-- Every field holds what fits it. Instructions are basic by their type. -/
structure Encodable (i : Instruction) : Prop where
  registers : ∀ r ∈ i.registers, r < 32
  flags : ∀ f ∈ i.flags, f < 8
  logical : ∀ op rt rs v, i = imm op rt rs v → op ∈ [.andi, .ori, .xori] → 0 ≤ v ∧ v ≤ 65535
  shift : ∀ op rt rs v, i = imm op rt rs v → op ∈ [.sll, .srl, .sra] → 0 ≤ v ∧ v ≤ 31
  signed : ∀ op rt rs v, i = imm op rt rs v → op ∈ [.addi, .addiu, .slti, .sltiu] →
    -32768 ≤ v ∧ v ≤ 32767
  displacement : ∀ op data base offset, i = mem op data base offset →
    -32768 ≤ offset ∧ offset ≤ 32767
  single : ∀ op rs rt t, i = branch op rs rt t → op ∉ [.beq, .bne] → rt.val = 0

theorem registers_lt (i : Instruction) : ∀ r ∈ i.registers, r < 32 := by
  cases i with
  | jumpReg link rs => cases link <;> simp [registers]
  | _ => simp [registers]

theorem flags_lt (i : Instruction) : ∀ f ∈ i.flags, f < 8 := by
  cases i <;> simp [flags]

theorem Fits.encodable {i : Instruction} (fits : i.Fits) : i.Encodable where
  registers := i.registers_lt
  flags := i.flags_lt
  logical := by
    rintro op rt rs v rfl member
    grind
  shift := by
    rintro op rt rs v rfl member
    grind
  signed := by
    rintro op rt rs v rfl member
    grind
  displacement := by
    rintro op data base offset rfl
    grind
  single := by
    rintro op rs rt t rfl other
    cases op <;> simp_all [Fits, BranchOp.comparesRegisters, Register.zero]

end Instruction

theorem made_of_expand {name : String} {args : List String} {labels : Labels} {e : Expansion}
    (expanded : expand name args labels = .ok e) :
    ∃ ops, operands args = .ok ops ∧ ∀ i ∈ e.instrs, Selection.Made labels ops i := by
  obtain ⟨ops, read, selected⟩ := except_bind_ok expanded
  split at selected
  · cases selected
  · next m found =>
    exact ⟨ops, read, Selection.makes_select (List.mem_of_find?_eq_some found) e selected⟩

/-- What is assembled at an address may be selected for the line that its tag names, with the labels
of the program. -/
theorem made_of_assembled {settings : Settings} {lines : List SourceLine} {names : PathNames}
    {assembled : Assembled} (done : assembleLines settings lines names = .ok assembled) {a : Word}
    {entry : TextEntry} (found : assembled.program.text[a]? = some entry) :
    ∃ line ∈ lines, line.isInstruction = true ∧ entry.tag = line.tag ∧ ∃ e ops,
      expand line.statement.name line.statement.args assembled.program.symbols.labels = .ok e ∧
      entry.instr ∈ e.instrs ∧ operands line.statement.args = .ok ops ∧
      Selection.Made assembled.program.symbols.labels ops entry.instr := by
  obtain ⟨l, placed, done⟩ := except_bind_ok done
  obtain ⟨p, bound, done⟩ := except_bind_ok done
  cases done
  obtain ⟨blocks, overlaid⟩ := overlaid_of_bind placed bound
  obtain ⟨i, unit, has, -⟩ := ((overlaid.text a entry).mp found).covers
  obtain ⟨line, linked, written⟩ := exists_of_forall₂ overlaid.instructions unit
  obtain ⟨⟨instr, n⟩, member, rfl⟩ := List.mem_map.mp has
  obtain ⟨linked, isUnit⟩ := List.mem_filter.mp linked
  have selected : instr ∈ i.expansion.instrs := List.fst_mem_of_mem_zipIdx member
  obtain ⟨ops, read, made⟩ := made_of_expand written.expansion
  exact ⟨line, linked, isUnit, written.tag, i.expansion, ops, written.expansion, selected, read,
    made instr selected⟩

/-- Whatever lines assemble to, every field of every instruction holds what fits it, and none of the
instructions accesses a register or flag that does not exist. -/
theorem assembleLines_encodable {settings : Settings} {lines : List SourceLine}
    {names : PathNames} {assembled : Assembled}
    (done : assembleLines settings lines names = .ok assembled) {a : Word} {entry : TextEntry}
    (found : assembled.program.text[a]? = some entry) :
    entry.instr.Encodable ∧
      ∀ pc, Guarded.execute pc entry.instr = Guarded.plain (Machine.execute pc entry.instr) := by
  obtain ⟨_, -, -, -, _, _, -, -, -, made⟩ := made_of_assembled done found
  exact ⟨made.fits.encodable, fun pc => Guarded.execute_eq pc entry.instr⟩

/-- A displacement that is split, and a constant that fits only with its sign turned. -/
def fieldSample : List SourceLine :=
  let texts := ["lw $t1, 70000($sp)", "subi $t0, $t0, 32768"]
  texts.zipIdx.map fun (text, n) => ⟨text.toList, ⟨"sample", n + 1⟩⟩

theorem assembleLines_encodable_sample : ∃ assembled entry,
    assembleLines {} fieldSample (.new [] fun _ => none) = .ok assembled ∧
      assembled.program.text[(0x40000C : Word)]? = some entry ∧
      entry.instr = .imm .addi 8 8 (-32768) ∧ entry.instr.Encodable ∧
      ∀ pc, Guarded.execute pc entry.instr = Guarded.plain (Machine.execute pc entry.instr) := by
  have read : (assembleLines {} fieldSample (.new [] fun _ => none)).map (fun assembled =>
      (assembled.program.text[(0x40000C : Word)]?).map (·.instr)) =
      .ok (some (.imm .addi 8 8 (-32768))) := by decide +kernel
  obtain ⟨assembled, done, seen⟩ := except_map_ok read
  obtain ⟨entry, found, same⟩ := Option.map_eq_some_iff.mp seen
  exact ⟨assembled, entry, done, found, same, assembleLines_encodable done found⟩

end MipsLab
