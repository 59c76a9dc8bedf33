import MipsLab.Proofs.Run.Reversal
import MipsLab.Proofs.Control.Exchange

/-! What a debugger is told. It is switched on and off, a pause is left, it is asked before an
instruction, breakpoints are set, and records of instructions come and go. A run that goes on tells
its debugger nothing about breakpoints and does not switch it. -/
namespace MipsLab

namespace Debugger

inductive Move where
  | enable (enabled : Bool)
  | resume (mode : ResumeMode)
  | ask (entry : TextEntry)
  | setBreakpoint (file : String) (line : Nat)
  | removeBreakpoint (file : String) (line : Nat)
  | clearBreakpoints
  | remember (change : Change)
  /-- The newest record is taken. -/
  | forget
  deriving DecidableEq

def move (d : Debugger) : Move → Debugger
  | .enable enabled => d.setEnabled enabled
  | .resume mode => d.resume mode
  | .ask entry => (d.shouldBreak entry).2
  | .setBreakpoint file line => (d.addBreakpoint file line).2.2
  | .removeBreakpoint file line => (d.removeBreakpoint file line).2
  | .clearBreakpoints => d.clearBreakpoints
  | .remember change => d.remember change
  | .forget => { d with undo := d.undo.tail }

def play (d : Debugger) (moves : List Move) : Debugger := moves.foldl move d

/-- What a run tells its debugger while it goes on. -/
def Move.OfRun : Move → Prop
  | .resume _ | .ask _ | .remember _ | .forget => True
  | .enable _ | .setBreakpoint _ _ | .removeBreakpoint _ _ | .clearBreakpoints => False

/-- What becomes of a debugger while its run goes on. -/
def Advances (d next : Debugger) : Prop :=
  ∃ moves : List Move, (∀ m ∈ moves, m.OfRun) ∧ d.play moves = next

variable {d next : Debugger}

theorem Advances.refl (d : Debugger) : d.Advances d := ⟨[], by simp, rfl⟩

theorem advances_move (d : Debugger) {m : Move} (own : m.OfRun) : d.Advances (d.move m) :=
  ⟨[m], by simpa using own, rfl⟩

theorem Advances.trans {last : Debugger} (first : d.Advances next) (second : next.Advances last) :
    d.Advances last := by
  obtain ⟨moves, own, rfl⟩ := first
  obtain ⟨more, ownToo, rfl⟩ := second
  exact ⟨moves ++ more, List.forall_mem_append.mpr ⟨own, ownToo⟩, List.foldl_append⟩

theorem play_concat (d : Debugger) (moves : List Move) (m : Move) :
    d.play (moves ++ [m]) = (d.play moves).move m := List.foldl_concat ..

theorem move_keeps (d : Debugger) {m : Move} (own : m.OfRun) :
    (d.move m).enabled = d.enabled ∧ (d.move m).breakpoints = d.breakpoints ∧
      (d.move m).names = d.names := by
  cases m with
  | resume mode => cases mode <;> exact ⟨rfl, rfl, rfl⟩
  | ask entry =>
    rw [move]
    rcases d.shouldBreak_cases entry with passes | ⟨-, -, pauses⟩ | ⟨-, -, pauses⟩
    · rw [passes]
      exact ⟨rfl, rfl, rfl⟩
    · rw [pauses]
      exact ⟨rfl, rfl, rfl⟩
    · rw [pauses]
      exact ⟨rfl, rfl, rfl⟩
  | remember change =>
    rw [move, remember]
    split <;> exact ⟨rfl, rfl, rfl⟩
  | forget => exact ⟨rfl, rfl, rfl⟩
  | enable | setBreakpoint | removeBreakpoint | clearBreakpoints => exact own.elim

theorem Advances.keeps (advances : d.Advances next) : next.enabled = d.enabled ∧
    next.breakpoints = d.breakpoints ∧ next.names = d.names := by
  obtain ⟨moves, own, rfl⟩ := advances
  induction moves generalizing d with
  | nil => exact ⟨rfl, rfl, rfl⟩
  | cons m moves ih =>
    obtain ⟨here, later⟩ := List.forall_mem_cons.mp own
    obtain ⟨enabled, breakpoints, names⟩ := move_keeps d here
    obtain ⟨enabledToo, breakpointsToo, namesToo⟩ := ih later
    exact ⟨enabledToo.trans enabled, breakpointsToo.trans breakpoints, namesToo.trans names⟩

end Debugger

namespace Run

variable {r next : Run}

theorem advances_breakIn (d : Debugger) (i : Instruction) : d.Advances (breakIn d i) := by
  unfold breakIn
  split
  · split
    · exact Debugger.advances_move d (m := .resume .step) trivial
    · exact .refl d
  · exact .refl d

theorem advances_ticks {result : TickResult} (ways : r.Ticks result next) :
    r.debugger.Advances next.debugger := by
  cases ways with
  | finished =>
    rw [debugger_finish]
    exact .refl _
  | paused running entry d hit =>
    have asked := Debugger.advances_move r.debugger (m := .ask entry) trivial
    rw [Debugger.move, hit] at asked
    exact asked
  | failed running channels fault =>
    rw [fail, debugger_finish]
    exact .refl _
  | awaiting running => exact .refl _
  | executed running entry change s control found place undone =>
    obtain ⟨console, events, taken⟩ := r.absorb_eq s
    have told : r.debugger.Advances ((breakIn r.debugger entry.instr).remember change) :=
      (advances_breakIn r.debugger entry.instr).trans
        (Debugger.advances_move _ (m := .remember change) trivial)
    rw [taken]
    cases control with
    | exit code =>
      rw [follow, debugger_finish]
      exact told
    | jump | next | await => exact told

theorem advances_tick (r : Run) : r.debugger.Advances r.tick.2.debugger :=
  advances_ticks r.ticks_tick

theorem advances_stepBack (r : Run) : r.debugger.Advances r.stepBack.2.debugger := by
  unfold stepBack
  split
  · exact .refl _
  · split
    · exact .refl _
    · next change undo log =>
      have told := Debugger.advances_move r.debugger (m := .forget) trivial
      rw [Debugger.move, log, List.tail_cons] at told
      dsimp only
      split <;> exact told

end Run

namespace Worker

/-- Whatever a worker does, the breakpoints are those that it was given. -/
theorem advances_does (w : Worker) (deed : Deed) :
    w.run.debugger.Advances (w.does deed).run.debugger := by
  cases deed with
  | took command =>
    cases command with
    | resume => exact Debugger.advances_move _ (m := .resume .continue) trivial
    | step => exact Debugger.advances_move _ (m := .resume .step) trivial
    | pause => exact Debugger.advances_move _ (m := .resume .step) trivial
    | reverse => exact w.run.advances_stepBack
    | input text => exact .refl _
    | stop =>
      have kept := Run.debugger_finish w.run false
      exact kept ▸ .refl _
  | turned => exact .refl _
  | ticked =>
    rw [does, run_tick]
    exact w.run.advances_tick
  | gaveUp =>
    have kept := Run.debugger_finish w.run false
    exact kept ▸ .refl _

theorem Goes.advances {w last : Worker} {stages : List Stage} (goes : w.Goes stages last) :
    w.run.debugger.Advances last.run.debugger :=
  goes.keeps (P := fun x => w.run.debugger.Advances x.run.debugger)
    (fun x deed _ before => before.trans (x.advances_does deed)) (.refl _)

end Worker

end MipsLab
