import MipsLab.Proofs.Control.Gate
import MipsLab.Proofs.Run.Strides

/-! Strides on command. A command to step back is obeyed when it is taken, a command to step only
arms the next tick; and all commands that have come are taken before a tick. So a step that is taken
while an earlier one is still due is lost, and the strides that a worker makes need not be those it
was asked for. They are if every command waits for the one before it. -/
namespace MipsLab

def Stride.command : Stride → WorkerCommand
  | .forth => .step
  | .back => .reverse

@[simp]
def WorkerCommand.stride? : WorkerCommand → Option Stride
  | .step => some .forth
  | .reverse => some .back
  | _ => none

namespace Worker

/-- A step has been taken, and its instruction is not executed yet. -/
def armed (w : Worker) : Bool := !w.paused && w.run.skipCheck

def due (w : Worker) : List Stride := if w.armed then [.forth] else []

/-- What a worker does that steps forth and back and pauses in between. -/
inductive Strides (w : Worker) : Deed → Prop
  | step : Strides w (.took .step)
  | reverse : Strides w (.took .reverse)
  | turned : Strides w .turned
  | executed (executed : w.run.tick.1 = .ok .executed) : Strides w .ticked
  | paused (paused : w.run.tick.1 = .ok .paused) : Strides w .ticked

/-- The run is debugged, and goes on no longer than it is armed. -/
structure Stepwise (w : Worker) : Prop where
  enabled : w.run.debugger.enabled = true
  continuing : w.paused = false → w.run.debugger.continuing = false

end Worker

namespace Stage

/-- The stride that a command asks for. -/
@[simp]
def asked? (s : Stage) : Option Stride := s.command?.bind WorkerCommand.stride?

/-- The stride that the run makes. -/
@[simp]
def made? (s : Stage) : Option Stride :=
  match s.deed with
  | .took .reverse => some .back
  | .ticked => if s.result = .ok .executed then some .forth else none
  | _ => none

/-- The step that is taken in vain, since an earlier one is still due. -/
@[simp]
def lost? (s : Stage) : Option Stride :=
  if s.deed = .took .step ∧ s.worker.armed then some .forth else none

instance : DecidablePred Executes := fun _ => inferInstanceAs (Decidable (_ ∧ _))

theorem made?_forth (s : Stage) : s.made? = some .forth ↔ s.Executes := by
  obtain ⟨w, deed⟩ := s
  cases deed with
  | took command => cases command <;> simp [Executes]
  | turned | gaveUp => simp [Executes]
  | ticked => simp [Executes]

/-- A stride forth is an executed instruction. -/
theorem count_made (stages : List Stage) :
    (stages.filterMap made?).count .forth = stages.countP fun s => s.Executes := by
  rw [List.count_filterMap]
  refine List.countP_congr fun s _ => ?_
  rw [beq_iff_eq, made?_forth, decide_eq_true_iff]

end Stage

namespace Worker

variable {w last : Worker} {deed : Deed}

theorem due_of_paused (paused : w.paused = true) : w.due = [] := by
  rw [due, armed, paused]
  rfl

theorem armed_step (w : Worker) : (w.does (.took .step)).armed = true := rfl

theorem armed_reverse (w : Worker) : (w.does (.took .reverse)).armed = w.armed := by
  obtain ⟨machine, undo, stats, events, back⟩ := w.run.stepBack_eq
  simp [armed, does, take, back]

/-- An instruction is executed just if a step was due, and then none is due. -/
theorem due_executed (stepwise : w.Stepwise) (going : w.paused = false)
    (executed : w.run.tick.1 = .ok .executed) : w.due = [.forth] ∧ w.tick.due = [] := by
  obtain ⟨-, asked, entry, change, -, passes, -⟩ := Run.tick_executed executed
  have breaks : (w.run.debugger.shouldBreak entry).1 = true :=
    (Debugger.shouldBreak_iff stepwise.enabled entry).mpr (.inr (stepwise.continuing going))
  have marked : w.run.skipCheck = true := by simpa [Run.pausesAt, breaks] using passes
  constructor
  · simp [due, armed, going, marked]
  · simp [due, armed, run_tick, asked]

/-- A tick pauses only where no step was due. -/
theorem due_paused (going : w.paused = false) (paused : w.run.tick.1 = .ok .paused) :
    w.due = [] ∧ w.tick.due = [] := by
  have asked : w.run.skipCheck = false := by
    -- A run that is marked ticks as it steps, and a step does not pause.
    by_contra marked
    have same : { w.run with skipCheck := true } = w.run := by
      rw [← (Bool.not_eq_false _).mp marked]
    have stepped := w.run.step_ne_paused
    rw [Run.step, same] at stepped
    exact stepped paused
  exact ⟨by simp [due, armed, asked], due_of_paused ((w.paused_tick going).mpr paused)⟩

theorem stepwise_does (stepwise : w.Stepwise) (may : w.May deed) (strides : w.Strides deed) :
    (w.does deed).Stepwise := by
  refine ⟨(enabled_does w deed).trans stepwise.enabled, fun going => ?_⟩
  cases strides with
  | step => rfl
  | reverse =>
    obtain ⟨machine, undo, stats, events, back⟩ := w.run.stepBack_eq
    exact (congrArg (·.debugger.continuing) back).trans (stepwise.continuing going)
  | turned => exact stepwise.continuing going
  | executed executed =>
    cases may with
    | tick ready free =>
      obtain ⟨-, -, entry, change, -, -, debugger⟩ := Run.tick_executed executed
      change w.tick.run.debugger.continuing = false
      rw [run_tick, debugger, (Run.remember_breakIn stepwise.enabled _ _).2,
        stepwise.continuing free, Bool.and_false]
  | paused paused =>
    cases may with
    | tick ready free =>
      exact absurd (going.symm.trans ((w.paused_tick free).mpr paused)) nofun

/-- What a deed makes, leaves due and loses of the strides that are due and asked for. A step that
is due falls behind a command to step back; otherwise their order is kept. -/
theorem turns (stepwise : w.Stepwise) (may : w.May deed) (strides : w.Strides deed) :
    let s : Stage := ⟨w, deed⟩
    (s.made?.toList ++ (w.does deed).due ++ s.lost?.toList).Perm (w.due ++ s.asked?.toList) ∧
      ((w.armed = true → s.command? = none) →
        s.made?.toList ++ (w.does deed).due = w.due ++ s.asked?.toList) := by
  cases strides with
  | step =>
    cases armed : w.armed <;> simp [due, armed, armed_step]
  | reverse =>
    -- A step that is due stays due, and is made behind the stride back.
    cases armed : w.armed <;> simp [due, armed, armed_reverse, List.Perm.swap]
  | turned =>
    have same : (w.does .turned).due = w.due := rfl
    simp [same]
  | executed executed =>
    cases may with
    | tick ready going =>
      obtain ⟨before, after⟩ := due_executed stepwise going executed
      simp [Stage.result, does, executed, before, after]
  | paused paused =>
    cases may with
    | tick ready going =>
      obtain ⟨before, after⟩ := due_paused going paused
      simp [Stage.result, does, paused, before, after]

/-- The run after a deed has made the stride that the deed makes. -/
theorem kin_does (strides : w.Strides deed) {b : Run} (kin : w.run.Kin b) :
    (w.does deed).run.Kin (b.strideAll (Stage.made? ⟨w, deed⟩).toList) := by
  cases strides with
  | step => exact kin.exchanged .stepping false true w.run.events
  | reverse => exact kin.back
  | turned => exact kin
  | executed executed =>
    have made : Stage.made? ⟨w, .ticked⟩ = some .forth := by simp [Stage.result, executed]
    rw [made]
    change w.tick.run.Kin _
    rw [run_tick]
    exact kin.forth executed
  | paused paused =>
    have made : Stage.made? ⟨w, .ticked⟩ = none := by simp [Stage.result, paused]
    obtain ⟨state, continuing, stopped⟩ := Run.tick_of_paused paused
    rw [made]
    change w.tick.run.Kin _
    rw [run_tick, stopped]
    exact kin.exchanged state continuing true (.paused w.run.pc :: w.run.events)

namespace Goes

variable {stages : List Stage}

theorem kin (goes : w.Goes stages last) (only : ∀ s ∈ stages, s.worker.Strides s.deed) {b : Run}
    (kin : w.run.Kin b) : last.run.Kin (b.strideAll (stages.filterMap Stage.made?)) := by
  induction goes generalizing b with
  | rest => exact kin
  | @move w last deed stages may later ih =>
    obtain ⟨here, onward⟩ := List.forall_mem_cons.mp only
    have all := ih onward (kin_does here kin)
    rw [filterMap_toList, Run.strideAll, List.foldl_append]
    exact all

theorem stepwise (goes : w.Goes stages last) (stepwise : w.Stepwise)
    (only : ∀ s ∈ stages, s.worker.Strides s.deed) : last.Stepwise := by
  induction goes with
  | rest => exact stepwise
  | move may later ih =>
    obtain ⟨here, onward⟩ := List.forall_mem_cons.mp only
    exact ih (stepwise_does stepwise may here) onward

/-- Where no command is taken while a step is due, all strides are made, in the order asked for. -/
theorem prompt (goes : w.Goes stages last) (stepwise : w.Stepwise)
    (only : ∀ s ∈ stages, s.worker.Strides s.deed)
    (prompt : ∀ s ∈ stages, s.worker.armed = true → s.command? = none) :
    stages.filterMap Stage.made? ++ last.due = w.due ++ stages.filterMap Stage.asked? := by
  induction goes with
  | rest w => exact (List.append_nil w.due).symm
  | @move w last deed stages may later ih =>
    obtain ⟨here, onward⟩ := List.forall_mem_cons.mp only
    obtain ⟨calm, still⟩ := List.forall_mem_cons.mp prompt
    have rest := ih (stepwise_does stepwise may here) onward still
    have first := (turns stepwise may here).2 calm
    rw [filterMap_toList, filterMap_toList, List.append_assoc, rest, ← List.append_assoc, first,
      List.append_assoc]

/-- In any case a stride that was asked for is made, due or lost. -/
theorem balance (goes : w.Goes stages last) (stepwise : w.Stepwise)
    (only : ∀ s ∈ stages, s.worker.Strides s.deed) :
    (stages.filterMap Stage.made? ++ last.due ++ stages.filterMap Stage.lost?).Perm
      (w.due ++ stages.filterMap Stage.asked?) := by
  induction goes with
  | rest w => simp
  | @move w last deed stages may later ih =>
    obtain ⟨here, onward⟩ := List.forall_mem_cons.mp only
    have rest := ih (stepwise_does stepwise may here) onward
    have first := (turns stepwise may here).1
    rw [List.perm_iff_count] at rest first ⊢
    intro stride
    have counted := rest stride
    have countedHere := first stride
    simp only [List.count_append] at counted countedHere
    simp only [filterMap_toList, List.count_append]
    omega

/-- Where all commands are taken one after the other, the steps among them are due once. -/
theorem drained (goes : w.Goes stages last) (only : ∀ s ∈ stages, s.worker.Strides s.deed)
    (all : ∀ s ∈ stages, s.command?.isSome) :
    stages.filterMap Stage.made? = (stages.filterMap Stage.asked?).filter (· = .back) ∧
      last.due = if .forth ∈ stages.filterMap Stage.asked? then [.forth] else w.due := by
  induction goes with
  | rest => exact ⟨rfl, rfl⟩
  | @move w last deed stages may later ih =>
    obtain ⟨here, onward⟩ := List.forall_mem_cons.mp only
    obtain ⟨command, rest⟩ := List.forall_mem_cons.mp all
    obtain ⟨made, due⟩ := ih onward rest
    rw [filterMap_toList, filterMap_toList, made, due]
    cases here with
    | step => simp [Worker.due, armed_step]
    | reverse => simp [Worker.due, armed_reverse]
    | turned | executed | paused => exact absurd command nofun

/-- Where all commands are taken before anything else is done, one step is made at most. -/
theorem made_atOnce {takes rest : List Stage} (goes : w.Goes (takes ++ rest) last)
    (stepwise : w.Stepwise) (only : ∀ s ∈ takes ++ rest, s.worker.Strides s.deed)
    (all : ∀ s ∈ takes, s.command?.isSome) (none_taken : ∀ s ∈ rest, s.command? = none)
    (first : w.due = []) (settled : last.due = []) :
    let asked := (takes ++ rest).filterMap Stage.asked?
    (takes ++ rest).filterMap Stage.made? =
      asked.filter (· = .back) ++ if .forth ∈ asked then [.forth] else [] := by
  obtain ⟨middle, taking, resting⟩ := goes.append
  obtain ⟨onlyTakes, onlyRest⟩ := List.forall_mem_append.mp only
  obtain ⟨made, due⟩ := taking.drained onlyTakes all
  have nothing : rest.filterMap Stage.asked? = [] := by
    refine List.filterMap_eq_nil_iff.mpr fun s member => ?_
    rw [Stage.asked?, none_taken s member]
    rfl
  have later := resting.prompt (taking.stepwise stepwise onlyTakes) onlyRest
    fun s member _ => none_taken s member
  rw [settled, nothing, List.append_nil, List.append_nil, due, first] at later
  simp only [List.filterMap_append, nothing, List.append_nil, made, later]

end Goes

end Worker

end MipsLab
