import MipsLab.Assembly.Selection
import MipsLab.Machine.Change
import MipsLab.Proofs.Exec.Contract

/-! Doubles in odd registers. A double stands in an even register and the next one. A record looks
at the pair that the instruction is going to write, and it is refused if that pair would start at
an odd register. The instruction itself first looks at the pairs that it reads, and a conditional
move that is not made looks at none; so the two do not always agree. -/
namespace MipsLab

open Exec

def Fault.oddPair (r : FReg) : Fault := .invalidRegister (Register.floatText r)

namespace Instruction

/-- The register at which an instruction writes a double. -/
def writtenPair? : Instruction → Option FReg
  | floatArith _ .double fd _ _ | floatUnary _ .double fd _ | convert .double _ fd _
  | floatMoveIf _ .double fd _ _ | floatMoveOnFlag _ .double fd _ _ | mem .ldc1 fd _ _ => some fd
  | _ => none

/-- The registers at which an instruction reads doubles, in the order of reading. -/
def readPairs : Instruction → List FReg
  | floatArith _ .double _ fs ft | compare _ .double _ fs ft => [fs, ft]
  | floatUnary _ .double _ fs | floatToWord _ .double _ fs | convert _ .double _ fs
  | floatMoveIf _ .double _ fs _ | floatMoveOnFlag _ .double _ fs _ | mem .sdc1 fs _ _ => [fs]
  | _ => []

/-- A conditional move between float registers that is not made. -/
def IsIdle (m : Machine) : Instruction → Prop
  | floatMoveIf nonzero _ _ _ rt => (m.regs.read rt != 0) ≠ nonzero
  | floatMoveOnFlag expected _ _ _ flag => m.regs.flag flag ≠ expected
  | _ => False

end Instruction

section Odd

variable {r s : FReg} {m : Machine}

theorem checkPair_even (even : r.val % 2 ≠ 1) : Registers.checkPair r = .ok () :=
  if_pos ⟨by omega, r.isLt⟩

theorem checkPair_odd (odd : r.val % 2 = 1) : Registers.checkPair r = .error (.oddPair r) :=
  if_neg fun paired => by omega

theorem readDouble_even (even : r.val % 2 ≠ 1) :
    m.regs.readDouble r = .ok (m.regs.readFloat (r + 1) ++ m.regs.readFloat r) := by
  rw [Registers.readDouble, checkPair_even even]
  rfl

theorem readDouble_odd (odd : r.val % 2 = 1) : m.regs.readDouble r = .error (.oddPair r) := by
  rw [Registers.readDouble, checkPair_odd odd]
  rfl

theorem setDouble_odd (odd : r.val % 2 = 1) (value : BitVec 64) :
    m.setDouble r value = .error (.oddPair r) := by
  rw [Machine.setDouble, Registers.writeDouble, checkPair_odd odd]
  rfl

theorem update_setDouble_odd (odd : r.val % 2 = 1) (value : BitVec 64) :
    update (·.setDouble r value) m = .error (.oddPair r) m := by
  simp only [update, get_bind, setDouble_odd odd]
  rfl

/-- A pair is recorded unless it is an odd one. -/
theorem ofDouble_error_iff {f : Fault} :
    Prior.ofDouble m r = .error f ↔ r.val % 2 = 1 ∧ f = .oddPair r := by
  by_cases odd : r.val % 2 = 1
  · have refused : Prior.ofDouble m r = .error (.oddPair r) := by
      rw [Prior.ofDouble, checkPair_odd odd]
      rfl
    rw [refused, Except.error.injEq, eq_comm]
    exact ⟨fun same => ⟨odd, same⟩, And.right⟩
  · have taken : ∃ p, Prior.ofDouble m r = .ok p := by
      rw [Prior.ofDouble, checkPair_even odd]
      exact ⟨_, rfl⟩
    obtain ⟨p, taken⟩ := taken
    rw [taken]
    exact ⟨nofun, fun refused => absurd refused.1 odd⟩

end Odd

/-- A record is refused just if the instruction is to write a double at an odd register. -/
theorem of_error_iff {m : Machine} {i : Instruction} {f : Fault} :
    Prior.of m i = .error f ↔ ∃ r, i.writtenPair? = some r ∧ r.val % 2 = 1 ∧ f = .oddPair r := by
  have noPair {p : Prior} (none : i.writtenPair? = none) (taken : Prior.of m i = .ok p) :
      Prior.of m i = .error f ↔ ∃ r, i.writtenPair? = some r ∧ r.val % 2 = 1 ∧ f = .oddPair r := by
    simp [none, taken]
  have pair {r : FReg} (written : i.writtenPair? = some r)
      (taken : Prior.of m i = Prior.ofDouble m r) :
      Prior.of m i = .error f ↔ ∃ r, i.writtenPair? = some r ∧ r.val % 2 = 1 ∧ f = .oddPair r := by
    simp [written, taken, ofDouble_error_iff]
  cases i with
  | floatArith _ fmt | floatUnary _ fmt | floatMoveIf _ fmt | floatMoveOnFlag _ fmt =>
    cases fmt with
    | single => exact noPair rfl rfl
    | double => exact pair rfl rfl
  | convert target =>
    cases target with
    | double => exact pair rfl rfl
    | single | word => exact noPair rfl rfl
  | mem op =>
    cases op with
    | ldc1 => exact pair rfl rfl
    | _ => exact noPair rfl rfl
  | hiLoMove op => cases op <;> exact noPair rfl rfl
  | jump link => cases link <;> exact noPair rfl rfl
  | jumpReg link => cases link <;> exact noPair rfl rfl
  | moveWord toFloat => cases toFloat <;> exact noPair rfl rfl
  | _ => exact noPair rfl rfl

/-- Of the registers at which doubles are to be accessed in turn, the first that is odd. -/
def firstOdd? (pairs : List FReg) : Option FReg := pairs.find? fun r => r.val % 2 = 1

theorem firstOdd?_odd {r : FReg} (odd : r.val % 2 = 1) (pairs : List FReg) :
    firstOdd? (r :: pairs) = some r :=
  List.find?_cons_of_pos (decide_eq_true odd)

theorem firstOdd?_even {r : FReg} (even : r.val % 2 ≠ 1) (pairs : List FReg) :
    firstOdd? (r :: pairs) = firstOdd? pairs :=
  List.find?_cons_of_neg (by simpa using even)

/-- Work that accesses doubles at `pairs` in turn: if one of the registers is odd, the work is
refused at the first such register and leaves the machine as it was. -/
def RefusesOdd {α : Type} (work : Exec Machine α) (m : Machine) (pairs : List FReg) : Prop :=
  ∀ s, firstOdd? pairs = some s → work m = .error (.oddPair s) m

section Refuses

variable {α β : Type} {m : Machine} {pairs : List FReg}

theorem refusesOdd_nil (work : Exec Machine α) : RefusesOdd work m [] := nofun

theorem refusesOdd_get {f : Machine → Exec Machine α} (refuses : RefusesOdd (f m) m pairs) :
    RefusesOdd (get >>= f) m pairs := refuses

theorem refusesOdd_bind {work : Exec Machine β} {next : β → Exec Machine α}
    (refuses : RefusesOdd work m pairs) : RefusesOdd (work >>= next) m pairs :=
  fun s first => bind_error (refuses s first)

theorem refusesOdd_require {x : Except Fault β} {next : β → Exec Machine α} {r : FReg}
    (odd : r.val % 2 = 1 → x = .error (.oddPair r)) (refuses : ∀ b, RefusesOdd (next b) m pairs)
    (even : r.val % 2 ≠ 1 → ∃ b, x = .ok b) :
    RefusesOdd (require x >>= next) m (r :: pairs) := by
  intro s first
  by_cases parity : r.val % 2 = 1
  · rw [firstOdd?_odd parity] at first
    cases first
    rw [odd parity]
    rfl
  · rw [firstOdd?_even parity] at first
    obtain ⟨b, read⟩ := even parity
    rw [read]
    exact refuses b s first

theorem refusesOdd_readDouble {next : BitVec 64 → Exec Machine α} {r : FReg}
    (refuses : ∀ x, RefusesOdd (next x) m pairs) :
    RefusesOdd (require (m.regs.readDouble r) >>= next) m (r :: pairs) :=
  refusesOdd_require readDouble_odd refuses fun even => ⟨_, readDouble_even even⟩

theorem refusesOdd_asDouble {next : Nat → Exec Machine α} {r : FReg}
    (refuses : ∀ x, RefusesOdd (next x) m pairs) :
    RefusesOdd (require (m.asDouble .double r) >>= next) m (r :: pairs) := by
  refine refusesOdd_require (fun odd => ?_) refuses fun even => ?_
  · rw [Machine.asDouble, readDouble_odd odd]
    rfl
  · rw [Machine.asDouble, readDouble_even even]
    exact ⟨_, rfl⟩

/-- With one pair to access, nothing but that pair can be refused. -/
theorem firstOdd?_single {r s : FReg} (first : firstOdd? [r] = some s) :
    s = r ∧ r.val % 2 = 1 := by
  by_cases odd : r.val % 2 = 1
  · rw [firstOdd?_odd odd] at first
    exact ⟨(Option.some.inj first).symm, odd⟩
  · rw [firstOdd?_even odd] at first
    cases first

theorem refusesOdd_setDouble (r : FReg) (value : BitVec 64) :
    RefusesOdd (update (·.setDouble r value)) m [r] := by
  intro s first
  obtain ⟨rfl, odd⟩ := firstOdd?_single first
  exact update_setDouble_odd odd value

theorem refusesOdd_compareFloats (cond : Cond) (fs ft : FReg) {next : Bool → Exec Machine α} :
    RefusesOdd (require (m.compareFloats cond .double fs ft) >>= next) m [fs, ft] := by
  intro s first
  have refused : m.compareFloats cond .double fs ft = .error (.oddPair s) := by
    unfold Machine.compareFloats
    by_cases odd : fs.val % 2 = 1
    · rw [firstOdd?_odd odd] at first
      cases first
      rw [readDouble_odd odd]
      rfl
    · rw [firstOdd?_even odd] at first
      obtain ⟨rfl, odd'⟩ := firstOdd?_single first
      rw [readDouble_even odd, readDouble_odd odd']
      rfl
  rw [refused]
  rfl

theorem refusesOdd_moveFloat (fd fs : FReg) :
    RefusesOdd (Machine.moveFloat .double fd fs) m [fs, fd] :=
  refusesOdd_get (refusesOdd_readDouble fun bits => refusesOdd_setDouble fd bits)

theorem refusesOdd_onlyIf {condition : Prop} [Decidable condition] {work : Exec Machine Unit}
    (holds : condition) (refuses : RefusesOdd work m pairs) :
    RefusesOdd (onlyIf condition work) m pairs := by
  rwa [onlyIf, if_pos holds]

end Refuses

/-- All pairs that an instruction accesses, in the order of access. -/
def Instruction.pairs (i : Instruction) : List FReg := i.readPairs ++ i.writtenPair?.toList

theorem refusesOdd_executeArith {m : Machine} (op : FloatOp) (fd fs ft : FReg) :
    RefusesOdd (Machine.executeArith op .double fd fs ft) m [fs, ft, fd] :=
  refusesOdd_get (refusesOdd_readDouble fun _ => refusesOdd_readDouble fun _ =>
    refusesOdd_setDouble fd _)

theorem refusesOdd_executeUnary {m : Machine} (op : FloatUnary) (fd fs : FReg) :
    RefusesOdd (Machine.executeUnary op .double fd fs) m [fs, fd] :=
  refusesOdd_get (refusesOdd_readDouble fun _ => refusesOdd_setDouble fd _)

theorem refusesOdd_executeConvert {m : Machine} (target source : NumberFormat) (fd fs : FReg) :
    RefusesOdd (Machine.executeConvert target source fd fs) m
      (Instruction.convert target source fd fs).pairs := by
  refine refusesOdd_get ?_
  cases source with
  | double =>
    refine refusesOdd_asDouble fun x => ?_
    cases target with
    | word | single => exact refusesOdd_nil _
    | double => exact refusesOdd_setDouble fd _
  -- A word or a single is read without a check.
  | word | single =>
    cases target with
    | word | single => exact refusesOdd_nil _
    | double => exact refusesOdd_setDouble fd _

/-- An instruction that is not an idle move fails at the first odd register at which it accesses a
double, whatever it would do otherwise. -/
theorem refusesOdd_execute {m : Machine} {i : Instruction} (made : ¬ i.IsIdle m) (pc : Word) :
    RefusesOdd (Machine.execute pc i) m i.pairs := by
  cases i with
  | floatArith op fmt fd fs ft =>
    cases fmt with
    | single => exact refusesOdd_nil _
    | double => exact refusesOdd_bind (refusesOdd_executeArith op fd fs ft)
  | floatUnary op fmt fd fs =>
    cases fmt with
    | single => exact refusesOdd_nil _
    | double => exact refusesOdd_bind (refusesOdd_executeUnary op fd fs)
  | floatToWord mode fmt fd fs =>
    cases fmt with
    | single => exact refusesOdd_nil _
    | double => exact refusesOdd_get (refusesOdd_asDouble fun _ => refusesOdd_nil _)
  | convert target source fd fs =>
    exact refusesOdd_bind (refusesOdd_executeConvert target source fd fs)
  | compare cond fmt flag fs ft =>
    cases fmt with
    | single => exact refusesOdd_nil _
    | double => exact refusesOdd_get (refusesOdd_compareFloats cond fs ft)
  | floatMoveIf nonzero fmt fd fs rt =>
    cases fmt with
    | single => exact refusesOdd_nil _
    | double =>
      have moved := refusesOdd_moveFloat (m := m) fd fs
      exact refusesOdd_get (refusesOdd_bind (refusesOdd_onlyIf (Decidable.not_not.mp made) moved))
  | floatMoveOnFlag expected fmt fd fs flag =>
    cases fmt with
    | single => exact refusesOdd_nil _
    | double =>
      have moved := refusesOdd_moveFloat (m := m) fd fs
      exact refusesOdd_get (refusesOdd_bind (refusesOdd_onlyIf (Decidable.not_not.mp made) moved))
  | mem op data base offset =>
    cases op with
    | ldc1 =>
      refine refusesOdd_get (refusesOdd_bind (refusesOdd_get ?_))
      refine refusesOdd_require checkPair_odd (fun _ => refusesOdd_nil _) fun even => ?_
      exact ⟨(), checkPair_even even⟩
    | sdc1 =>
      exact refusesOdd_get (refusesOdd_bind (refusesOdd_get
        (refusesOdd_readDouble fun _ => refusesOdd_nil _)))
    | _ => exact refusesOdd_nil _
  | _ => exact refusesOdd_nil _

theorem execute_idle {m : Machine} {i : Instruction} (idle : i.IsIdle m) (pc : Word) :
    Machine.execute pc i m = .ok .next m := by
  cases i with
  | floatMoveIf nonzero fmt fd fs rt =>
    have skipped : onlyIf ((m.regs.read rt != 0) = nonzero) (Machine.moveFloat fmt fd fs) =
        pure () := if_neg idle
    rw [Machine.execute, get_bind, skipped]
    rfl
  | floatMoveOnFlag expected fmt fd fs flag =>
    have skipped : onlyIf (m.regs.flag flag = expected) (Machine.moveFloat fmt fd fs) =
        pure () := if_neg idle
    rw [Machine.execute, get_bind, skipped]
    rfl
  | _ => exact absurd idle id

theorem Fault.oddPair_inj {r s : FReg} (same : oddPair r = oddPair s) : r = s := by
  have names : ∀ r s : FReg, Register.floatText r = Register.floatText s → r = s := by
    decide +kernel
  exact names r s (Fault.invalidRegister.inj same)

/-- A record is refused only for an odd pair that the instruction is to write. Executed
nevertheless, an idle move has no effect and no fault; every other such instruction fails, at the
first odd pair that it accesses. So the record and the instruction fail in the same way unless the
move is idle or an odd pair is read before the one that is written. -/
theorem Change.capture_error {m : Machine} {pc : Word} {i : Instruction} {f : Fault}
    (refused : Change.capture m pc i = .error f) :
    ∃ r, i.writtenPair? = some r ∧ r.val % 2 = 1 ∧ f = .oddPair r ∧
      (i.IsIdle m → Machine.execute pc i m = .ok .next m) ∧
      (¬ i.IsIdle m → ∃ s, firstOdd? i.pairs = some s ∧
        Machine.execute pc i m = .error (.oddPair s) m) ∧
      ((∃ left, Machine.execute pc i m = .error f left) ↔
        ¬ i.IsIdle m ∧ firstOdd? i.pairs = some r) := by
  have recorded : Prior.of m i = .error f := by
    cases prior : Prior.of m i with
    | ok p =>
      rw [Change.capture, prior] at refused
      cases refused
    | error g =>
      rw [Change.capture, prior] at refused
      exact congrArg _ (Except.error.inj refused)
  obtain ⟨r, written, odd, rfl⟩ := of_error_iff.mp recorded
  have accessed : r ∈ i.pairs := by simp [Instruction.pairs, written]
  obtain ⟨s, first⟩ : ∃ s, firstOdd? i.pairs = some s :=
    Option.isSome_iff_exists.mp
      (List.find?_isSome.mpr ⟨r, accessed, decide_eq_true odd⟩)
  refine ⟨r, written, odd, rfl, fun idle => execute_idle idle pc,
    fun made => ⟨s, first, refusesOdd_execute made pc s first⟩, ?_, ?_⟩
  · rintro ⟨left, failed⟩
    have made : ¬ i.IsIdle m := by
      intro idle
      rw [execute_idle idle pc] at failed
      cases failed
    rw [refusesOdd_execute made pc s first] at failed
    cases Fault.oddPair_inj (EStateM.Result.error.inj failed).1
    exact ⟨made, first⟩
  · rintro ⟨made, same⟩
    exact ⟨m, refusesOdd_execute made pc r same⟩

/-- The machine before a program without data starts. -/
def bareMachine : Machine := ⟨.reset MemoryMap.textBase false, .load ∅ false⟩

theorem Change.capture_error_oddSum :
    capture bareMachine 0x400000 (.floatArith .add .double 1 2 4) = .error (.oddPair 1) ∧
    ∃ left, Machine.execute 0x400000 (.floatArith .add .double 1 2 4) bareMachine =
      .error (.oddPair 1) left := by
  have refused : capture bareMachine 0x400000 (.floatArith .add .double 1 2 4) =
      .error (.oddPair 1) := rfl
  obtain ⟨r, written, -, -, -, -, same⟩ := capture_error refused
  cases written
  exact ⟨refused, same.mpr ⟨id, by decide⟩⟩

/-- A move on `$zero` that is never made, and a move between two odd registers. The record of
either is refused at the register that is written, but the first one has no fault, and the second
one fails at the register that it reads. -/
theorem Change.capture_stricter :
    (expand "movn.d" ["$f1", "$f2", "$zero"] unplaced).toOption =
      some ⟨[.floatMoveIf true .double 1 2 Register.zero], false⟩ ∧
    capture bareMachine 0x400000 (.floatMoveIf true .double 1 2 Register.zero) =
      .error (.oddPair 1) ∧
    Machine.execute 0x400000 (.floatMoveIf true .double 1 2 Register.zero) bareMachine =
      .ok .next bareMachine ∧
    (expand "mov.d" ["$f1", "$f3"] unplaced).toOption =
      some ⟨[.floatUnary .mov .double 1 3], false⟩ ∧
    capture bareMachine 0x400000 (.floatUnary .mov .double 1 3) = .error (.oddPair 1) ∧
    Machine.execute 0x400000 (.floatUnary .mov .double 1 3) bareMachine =
      .error (.oddPair 3) bareMachine :=
  ⟨by decide +kernel, rfl, rfl, by decide +kernel, rfl, rfl⟩

end MipsLab
