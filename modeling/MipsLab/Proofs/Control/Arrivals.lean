import MipsLab.Proofs.Control.Gate
import MipsLab.Proofs.Run.Breakpoints

/-! Breakpoints of a controlled run. A command that releases a run also marks it to pass the next
check of its debugger. Where it is taken by a run that has not paused, that check is the one before
the next instruction, and the run goes past a breakpoint there. In every other order of commands a
run pauses at the breakpoints it comes to. -/
namespace MipsLab

/-- The next instruction begins a line with a breakpoint. -/
def Run.atBreakpoint (r : Run) : Bool :=
  r.next?.any fun entry => entry.first && r.debugger.breakpoints.contains entry.tag

/-- An instruction is executed, and the next one begins a line with a breakpoint. -/
def Stage.Arrives (s : Stage) : Prop := s.Executes ∧ s.worker.run.tick.2.atBreakpoint = true

/-- The worker neither ticks nor steps back. -/
def Stage.Stands (s : Stage) : Prop := s.deed ≠ .ticked ∧ s.deed ≠ .took .reverse

namespace Worker

/-- From one worker to another the run stands at the same place before the same breakpoints; it may
have been released, and so marked to pass the next check. -/
structure Lingers (released : Prop) (w last : Worker) : Prop where
  program : last.run.program = w.run.program
  machine : last.run.machine = w.run.machine
  ended : last.run.ended = w.run.ended
  enabled : last.run.debugger.enabled = w.run.debugger.enabled
  breakpoints : last.run.debugger.breakpoints = w.run.debugger.breakpoints
  marked : last.run.skipCheck = true ↔ w.run.skipCheck = true ∨ released
  going : w.paused = false → last.paused = false

theorem Lingers.trans {first second : Prop} {w middle last : Worker}
    (one : w.Lingers first middle) (two : middle.Lingers second last) :
    w.Lingers (first ∨ second) last where
  program := two.program.trans one.program
  machine := two.machine.trans one.machine
  ended := two.ended.trans one.ended
  enabled := two.enabled.trans one.enabled
  breakpoints := two.breakpoints.trans one.breakpoints
  marked := by rw [two.marked, one.marked, or_assoc]
  going := two.going ∘ one.going

theorem Lingers.atBreakpoint {released : Prop} {w last : Worker}
    (lingers : w.Lingers released last) : last.run.atBreakpoint = w.run.atBreakpoint := by
  unfold Run.atBreakpoint Run.next? Run.entry? Run.pc
  rw [lingers.program, lingers.machine, lingers.breakpoints]

/-- A worker that neither ticks nor steps back ends the run or leaves it where it is. -/
theorem lingers_does {w : Worker} {deed : Deed} (stands : (⟨w, deed⟩ : Stage).Stands) :
    (w.does deed).phase = .exited ∨
      w.Lingers (⟨w, deed⟩ : Stage).Releases (w.does deed) := by
  cases deed with
  | ticked => exact absurd rfl stands.1
  | gaveUp => exact .inl rfl
  | turned => exact .inr ⟨rfl, rfl, rfl, rfl, rfl, by simp [Stage.Releases, does], id⟩
  | took command =>
    cases command with
    | reverse => exact absurd rfl stands.2
    | stop => exact .inl rfl
    | resume | step =>
      exact .inr ⟨rfl, rfl, rfl, rfl, rfl,
        by simp [Stage.Releases, WorkerCommand.Releases, does, take, Run.resume], fun _ => rfl⟩
    | pause | input =>
      exact .inr ⟨rfl, rfl, rfl, rfl, rfl,
        by simp [Stage.Releases, WorkerCommand.Releases, does, take, Run.setInput], id⟩

namespace Goes

variable {w last : Worker} {stages : List Stage}

theorem lingers (goes : w.Goes stages last) (stands : ∀ u ∈ stages, u.Stands)
    (here : last.phase ≠ .exited) : w.Lingers (∃ u ∈ stages, u.Releases) last := by
  induction goes with
  | rest w => exact ⟨rfl, rfl, rfl, rfl, rfl, by simp, id⟩
  | @move w last deed stages may later ih =>
    obtain ⟨first, onward⟩ := List.forall_mem_cons.mp stands
    obtain exited | lingers := lingers_does first
    · obtain ⟨rfl, rfl⟩ := later.exited exited
      exact absurd exited here
    · have all := lingers.trans (ih onward here)
      rwa [← List.exists_mem_cons_iff] at all

end Goes

end Worker

namespace Run

/-- Before a line with a breakpoint a run pauses, unless it is marked to pass the check. -/
theorem tick_paused_atBreakpoint {r : Run} (running : r.ended = false)
    (enabled : r.debugger.enabled = true) (hit : r.atBreakpoint = true) :
    r.tick.1 = .ok .paused ↔ r.skipCheck = false := by
  obtain ⟨entry, found, due⟩ := (Option.any_eq_true _ _).mp hit
  have breaks : (r.debugger.shouldBreak entry).1 = true :=
    (Debugger.shouldBreak_iff enabled entry).mpr (.inl (by simpa using due))
  rw [tick_paused_iff running]
  constructor
  · rintro ⟨other, met, pauses⟩
    exact (Bool.not_eq_true' _).mp (Bool.and_eq_true_iff.mp pauses).1
  · intro asked
    exact ⟨entry, found, by simp [pausesAt, asked, breaks]⟩

end Run

namespace Worker.Goes

variable {w last : Worker} {before middle after : List Stage} {s t : Stage}

/-- What is between the arrival of a run at a line with a breakpoint and its next tick. -/
theorem arrival (goes : w.Goes (before ++ s :: (middle ++ t :: after)) last)
    (enabled : w.run.debugger.enabled = true) (arrives : s.Arrives)
    (stands : ∀ u ∈ middle, u.Stands) (ticked : t.deed = .ticked) :
    t.worker.run.pc = s.worker.run.tick.2.pc ∧ (∀ u ∈ middle, u.worker.paused = false) ∧
      (t.Pauses ↔ ∀ u ∈ middle, ¬ u.Releases) := by
  obtain ⟨⟨deed, executed⟩, hit⟩ := arrives
  obtain ⟨past, mayTick, behind⟩ := goes.split
  rw [deed] at mayTick behind
  obtain ⟨between, may, -⟩ := behind.split
  obtain ⟨running, asked, -⟩ := Run.tick_executed executed
  have lingers := between.lingers stands may.here
  have going : (s.worker.does .ticked).paused = false := by
    cases mayTick with
    | tick ready going =>
      rw [← Bool.not_eq_true]
      intro paused
      exact absurd (executed.symm.trans ((s.worker.paused_tick going).mp paused)) nofun
  -- From here on everything is said of the worker behind the first tick.
  have run : (s.worker.does .ticked).run = s.worker.run.tick.2 := s.worker.run_tick
  have on : (s.worker.does .ticked).run.debugger.enabled = true :=
    (Worker.enabled_does _ _).trans (past.enabled.trans enabled)
  rw [← run] at running asked hit ⊢
  refine ⟨congrArg (·.regs.pc) lingers.machine, ?_, ?_⟩
  · intro u member
    obtain ⟨earlier, later, split⟩ := List.append_of_mem member
    rw [split] at between
    obtain ⟨up, mayAct, -⟩ := between.split
    have quiet : ∀ v ∈ earlier, v.Stands := fun v found =>
      stands v (split ▸ List.mem_append_left _ found)
    exact (up.lingers quiet mayAct.here).going going
  · have pauses := Run.tick_paused_atBreakpoint (lingers.ended.trans running)
      (lingers.enabled.trans on) (lingers.atBreakpoint.trans hit)
    have marked := lingers.marked
    rw [asked] at marked
    rw [Stage.Pauses, Stage.result, pauses, ← Bool.not_eq_true, marked]
    simp [ticked]

end Worker.Goes

namespace Exchange

/-- Whatever happens, a run that has come to a line with a breakpoint is next ticked there, and
pauses then, if it was not released on the way from one tick to the other; otherwise it goes past
the breakpoint. So no breakpoint is missed as long as only paused runs are released. -/
theorem arrivals_pause (x : Exchange) (happenings : List Happening)
    (enabled : x.worker.run.debugger.enabled = true) :
    (∀ (before middle after : List Stage) (s t : Stage),
      x.history happenings = before ++ s :: (middle ++ t :: after) →
      s.Arrives → (∀ u ∈ middle, u.Stands) → t.deed = .ticked →
      t.worker.run.pc = s.worker.run.tick.2.pc ∧
      (t.Pauses ↔ ∀ u ∈ middle, ¬ u.Releases) ∧
      (t.Pauses → t.worker.run.tick.2.events = .paused t.worker.run.pc :: t.worker.run.events)) ∧
    ((∀ u ∈ x.history happenings, u.Releases → u.worker.paused = true) →
      ∀ (before middle after : List Stage) (s t : Stage),
        x.history happenings = before ++ s :: (middle ++ t :: after) →
        s.Arrives → (∀ u ∈ middle, u.Stands) → t.deed = .ticked → t.Pauses) := by
  have goes : x.worker.Goes (x.history happenings) (x.afterAll happenings).worker :=
    goes_history x happenings
  refine ⟨?_, ?_⟩
  · intro before middle after s t split arrives stands ticked
    rw [split] at goes
    obtain ⟨place, -, pauses⟩ := goes.arrival enabled arrives stands ticked
    refine ⟨place, pauses, fun paused => ?_⟩
    obtain ⟨state, continuing, stopped⟩ := Run.tick_of_paused paused.2
    rw [stopped]
    rfl
  · intro orderly before middle after s t split arrives stands ticked
    rw [split] at goes orderly
    obtain ⟨-, going, pauses⟩ := goes.arrival enabled arrives stands ticked
    refine pauses.mpr fun u member releases => ?_
    have paused := orderly u (by simp [member]) releases
    exact absurd (paused.symm.trans (going u member)) nofun

/-- What is done at a stage, whether a tick there leads to a breakpoint, and how it ends. -/
abbrev Outline : Type := Deed × Bool × TickResult

def outline (s : Stage) : Outline := (s.deed, s.worker.run.tick.2.atBreakpoint, s.result)

/-- An arrival and the next tick, found in the outlines of a history. -/
theorem exists_arrival {stages : List Stage} {front middle back : List Outline}
    {result : TickResult} {again : Bool}
    (outlines : stages.map outline =
      front ++ (.ticked, true, .ok .executed) :: (middle ++ (.ticked, again, result) :: back))
    (stand : ∀ o ∈ middle, o.1 ≠ .ticked ∧ o.1 ≠ .took .reverse) :
    ∃ (before between after : List Stage) (s t : Stage),
      stages = before ++ s :: (between ++ t :: after) ∧ s.Arrives ∧ (∀ u ∈ between, u.Stands) ∧
        t.deed = .ticked ∧ t.result = result := by
  obtain ⟨before, rest, split, -, onward⟩ := List.map_eq_append_iff.mp outlines
  obtain ⟨s, later, rfl, arrives, onward⟩ := List.map_eq_cons_iff.mp onward
  obtain ⟨between, last, rfl, through, onward⟩ := List.map_eq_append_iff.mp onward
  obtain ⟨t, after, rfl, ticked, -⟩ := List.map_eq_cons_iff.mp onward
  simp only [outline, Prod.mk.injEq] at arrives ticked
  refine ⟨before, between, after, s, t, split, ⟨⟨arrives.1, arrives.2.2⟩, arrives.2.1⟩, ?_,
    ticked.1, ticked.2.2⟩
  intro u member
  exact stand (outline u) (through ▸ List.mem_map_of_mem member)

/-- A loop started by a controller with a breakpoint on the second line. -/
def countingExchange : Exchange :=
  let r := Run.start Run.countingRun.program { debug := true } ⟨[], []⟩
  let debugger := { r.debugger.resume .continue with breakpoints := [⟨"loop.s", 2⟩] }
  ⟨.start { r with debugger }, [], false⟩

/-- On its way from the first line to the breakpoint. -/
def countingFront : List Outline :=
  [(.turned, false, .ok .executed), (.ticked, false, .ok .executed), (.turned, true, .ok .executed)]

/-- Undisturbed, the loop pauses at its breakpoint. -/
theorem arrivals_pause_countingExchange :
    countingExchange.worker.run.debugger.enabled = true ∧
      ∃ (before middle after : List Stage) (s t : Stage),
        countingExchange.history (List.replicate 6 .moved) = before ++ s :: (middle ++ t :: after) ∧
          s.Arrives ∧ (∀ u ∈ middle, u.Stands) ∧ t.deed = .ticked ∧ t.Pauses := by
  have outlines : (countingExchange.history (List.replicate 6 .moved)).map outline =
      countingFront ++ ((.ticked, true, .ok .executed) : Outline) ::
        (([(.turned, true, .ok .paused)] : List Outline) ++
          [((.ticked, true, .ok .paused) : Outline)]) := by cbv
  have enabled : countingExchange.worker.run.debugger.enabled = true := rfl
  have unreleased : ∀ u ∈ countingExchange.history (List.replicate 6 .moved), ¬ u.Releases := by
    rintro u member ⟨command, taken, -⟩
    have listed := List.mem_map_of_mem (f := outline) member
    rw [outlines, outline, taken] at listed
    simp [countingFront] at listed
  obtain ⟨before, middle, after, s, t, split, arrives, stands, ticked, -⟩ :=
    exists_arrival outlines (by decide)
  have pauses := (countingExchange.arrivals_pause (List.replicate 6 .moved) enabled).2
    (fun u member releases => absurd releases (unreleased u member))
    before middle after s t split arrives stands ticked
  exact ⟨enabled, before, middle, after, s, t, split, arrives, stands, ticked, pauses⟩

/-- Resumed on its way, the loop goes past the breakpoint. -/
theorem arrivals_resumed :
    ∃ (before middle after : List Stage) (s t : Stage),
      countingExchange.history
          (List.replicate 4 .moved ++ .sent .resume :: List.replicate 3 .moved) =
        before ++ s :: (middle ++ t :: after) ∧
      s.Arrives ∧ (∀ u ∈ middle, u.Stands) ∧ t.Executes := by
  have outlines : (countingExchange.history
      (List.replicate 4 .moved ++ .sent .resume :: List.replicate 3 .moved)).map outline =
      countingFront ++ ((.ticked, true, .ok .executed) : Outline) ::
        (([(.took .resume, true, .ok .paused), (.turned, false, .ok .executed)] : List Outline) ++
          [((.ticked, false, .ok .executed) : Outline)]) := by cbv
  obtain ⟨before, middle, after, s, t, split, arrives, stands, ticked, executed⟩ :=
    exists_arrival outlines (by decide)
  exact ⟨before, middle, after, s, t, split, arrives, stands, ticked, executed⟩

end Exchange

end MipsLab
