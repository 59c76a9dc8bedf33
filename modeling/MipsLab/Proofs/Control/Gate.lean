import MipsLab.Proofs.Control.Exchange
import MipsLab.Proofs.Run.Reports

/-! The gate of a controlled run. Whatever commands come and whenever they come, a worker that has
paused tries no instruction before it has taken a command that releases it, it does nothing after
it was told to stop, and it leaves only runs that have ended. -/
namespace MipsLab

/-- The commands that let a paused run go on. -/
def WorkerCommand.Releases : WorkerCommand → Prop
  | .resume | .step => True
  | _ => False

def Stage.Releases (s : Stage) : Prop := ∃ command, s.deed = .took command ∧ command.Releases

namespace Run

/-- A run that a tick does not leave going on has ended. -/
theorem ended_tick (r : Run) (executed : r.tick.1 ≠ .ok .executed) (paused : r.tick.1 ≠ .ok .paused)
    (awaiting : r.tick.1 ≠ .ok .awaiting) : r.tick.2.ended = true := by
  have ways := r.ticks_tick
  generalize r.tick = outcome at ways executed paused awaiting ⊢
  obtain ⟨result, next⟩ := outcome
  cases ways with
  | finished => exact ended_finish r true
  | paused => exact absurd rfl paused
  | awaiting => exact absurd rfl awaiting
  | failed => exact ended_finish _ false
  | executed _ entry change s control =>
    cases control with
    | exit code => exact ended_finish _ true
    | next | jump | await => exact absurd rfl executed

end Run

namespace Worker

theorem paused_tick (w : Worker) (going : w.paused = false) :
    w.tick.paused = true ↔ w.run.tick.1 = .ok .paused := by
  unfold tick
  split <;> simp_all

theorem phase_tick (w : Worker) (exited : w.tick.phase = .exited) : w.tick.run.ended = true := by
  have ended := w.run.ended_tick
  unfold tick at exited ⊢
  split at exited <;> simp_all

/-- A pause is kept by every deed but the taking of a command that releases. -/
theorem paused_does {w : Worker} {deed : Deed} (paused : w.paused = true) (may : w.May deed)
    (kept : ¬ (⟨w, deed⟩ : Stage).Releases) : (w.does deed).paused = true := by
  cases may with
  | take command listens =>
    cases command with
    | resume | step => exact absurd ⟨_, rfl, trivial⟩ kept
    | pause | reverse | input | stop => exact paused
  | turn | giveUp => exact paused
  | tick ready going => exact absurd (paused.symm.trans going) nofun

theorem Goes.paused {w last : Worker} {stages : List Stage} (goes : w.Goes stages last)
    (paused : w.paused = true) (kept : ∀ s ∈ stages, ¬ s.Releases) : last.paused = true := by
  induction goes with
  | rest => exact paused
  | move may later ih =>
    obtain ⟨here, onward⟩ := List.forall_mem_cons.mp kept
    exact ih (paused_does paused may here) onward

theorem phase_does {w : Worker} {deed : Deed} (exited : (w.does deed).phase = .exited) :
    (w.does deed).run.ended = true := by
  cases deed with
  | took command =>
    cases command with
    | stop => exact Run.ended_finish w.run false
    | resume | pause | step | reverse | input => exact absurd exited nofun
  | turned => exact absurd exited nofun
  | ticked => exact w.phase_tick exited
  | gaveUp => exact Run.ended_finish w.run false

theorem enabled_does (w : Worker) (deed : Deed) :
    (w.does deed).run.debugger.enabled = w.run.debugger.enabled := by
  cases deed with
  | ticked =>
    change w.tick.run.debugger.enabled = _
    rw [run_tick]
    exact w.run.ahead_tick.enabled
  | turned => rfl
  | gaveUp => exact congrArg Debugger.enabled (Run.debugger_finish w.run false)
  | took command =>
    cases command with
    | resume | step | pause | input => rfl
    | reverse =>
      obtain ⟨machine, undo, stats, events, back⟩ := w.run.stepBack_eq
      exact congrArg (·.debugger.enabled) back
    | stop => exact congrArg Debugger.enabled (Run.debugger_finish w.run false)

theorem Goes.enabled {w last : Worker} {stages : List Stage} (goes : w.Goes stages last) :
    last.run.debugger.enabled = w.run.debugger.enabled := by
  induction goes with
  | rest => rfl
  | move may later ih => exact ih.trans (enabled_does _ _)

theorem orderly_does {w : Worker} (orderly : w.run.log.Orderly) (deed : Deed) :
    (w.does deed).run.log.Orderly := by
  have grows : w.run.log.Grows True (w.does deed).run.log := by
    cases deed with
    | took command =>
      cases command with
      | resume | pause | step | input => exact .refl
      | reverse => exact w.run.grows_stepBack
      | stop => exact Run.grows_finish .refl fun _ _ => trivial
    | turned => exact .refl
    | ticked =>
      change w.run.log.Grows True w.tick.run.log
      rw [run_tick]
      exact w.run.grows_tick.mono fun _ => trivial
    | gaveUp => exact Run.grows_finish .refl fun _ _ => trivial
  exact grows.orderly orderly

end Worker

namespace Exchange

theorem orderly_opening (c : Controller) (program : Program) (paused : Bool) :
    (c.opening program paused).worker.run.log.Orderly := by
  have fresh : (c.opening program paused).worker.run.log = ⟨false, "", []⟩ := by
    cases paused <;> rfl
  rw [fresh]
  exact ⟨rfl, fun _ => nofun, nofun⟩

/-- The reports of a run that has ended. -/
theorem reports_ended {r : Run} (inOrder : r.ReportsInOrder) (ended : r.ended = true) :
    r.reports.countP Event.isEnd = 1 ∧ ∃ success, r.reports.getLast? = some (.ended success) := by
  obtain ⟨success, member⟩ := inOrder.ended.mp ended
  obtain ⟨before, after, split⟩ := List.append_of_mem member
  have last : r.reports = before ++ [.ended success] := by
    rw [split, inOrder.last before success after split]
  refine ⟨Nat.le_antisymm inOrder.once ?_, success, by rw [last, List.getLast?_concat]⟩
  exact List.countP_pos_iff.mpr ⟨_, member, rfl⟩

/-- Under every order of commands, of the end of the sending and of moves of the worker: behind a
pause the run is not ticked before a command has released it, behind an order to stop the worker
does nothing, and where the worker has exited the run has ended, with one end reported and nothing
behind it. -/
theorem opening_gated (c : Controller) (program : Program) (paused : Bool)
    (happenings : List Happening) :
    let stages := (c.opening program paused).history happenings
    let last := ((c.opening program paused).afterAll happenings).worker
    (∀ before s middle t after, stages = before ++ s :: (middle ++ t :: after) →
      s.Pauses → t.deed = .ticked → ∃ u ∈ middle, u.Releases) ∧
    (∀ before s after, stages = before ++ s :: after → s.deed = .took .stop → after = []) ∧
    (last.phase = .exited → last.run.ended = true ∧ last.run.reports.countP Event.isEnd = 1 ∧
      ∃ success, last.run.reports.getLast? = some (.ended success)) := by
  intro stages last
  have goes : (c.opening program paused).worker.Goes stages last := goes_history _ happenings
  refine ⟨?_, ?_, ?_⟩
  · intro before s middle t after split ⟨ticked, pauses⟩ tried
    rw [split] at goes
    obtain ⟨-, may, behind⟩ := goes.split
    obtain ⟨between, mayTick, -⟩ := behind.split
    by_contra held
    push Not at held
    rw [ticked] at may between
    cases may with
    | tick ready going =>
      have gate := between.paused ((s.worker.paused_tick going).mpr pauses) held
      rw [tried] at mayTick
      cases mayTick with
      | tick ready going => exact absurd (gate.symm.trans going) nofun
  · intro before s after split told
    rw [split] at goes
    obtain ⟨-, -, behind⟩ := goes.split
    rw [told] at behind
    exact (behind.exited rfl).1
  · intro exited
    have ended : last.run.ended = true := by
      have kept : last.phase = .exited → last.run.ended = true :=
        goes.keeps (P := fun w => w.phase = .exited → w.run.ended = true)
          (fun _ _ _ _ => Worker.phase_does) nofun
      exact kept exited
    have orderly : last.run.log.Orderly :=
      goes.keeps (P := fun w => w.run.log.Orderly)
        (fun _ deed _ kept => Worker.orderly_does kept deed) (orderly_opening c program paused)
    exact ⟨ended, reports_ended (Run.reportsInOrder orderly) ended⟩

end Exchange

end MipsLab
