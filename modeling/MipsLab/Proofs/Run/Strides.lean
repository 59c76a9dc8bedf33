import MipsLab.Proofs.Run.Breakpoints

/-! Single strides of a debugged run: one instruction forth, or the newest one back. What a stride
does depends on the work done so far and on the undo log, and not on how the debugger was told to go
on. -/
namespace MipsLab

inductive Stride where
  | forth
  | back
  deriving DecidableEq

namespace Run

def stride (r : Run) : Stride → Run
  | .forth => r.step.2
  | .back => r.stepBack.2

def strideAll (r : Run) (strides : List Stride) : Run := strides.foldl stride r

/-- Two debugged runs that have done the same work and can undo the same. -/
structure Kin (a b : Run) : Prop where
  work : a.SameWork b
  undo : a.debugger.undo = b.debugger.undo
  enabled : a.debugger.enabled = true
  enabledToo : b.debugger.enabled = true

theorem Kin.refl {r : Run} (enabled : r.debugger.enabled = true) : r.Kin r :=
  ⟨.refl r, rfl, enabled, enabled⟩

theorem debugger_executeEntry {r : Run} {pc : Word} {entry : TextEntry}
    (executed : (r.executeEntry pc entry).1 = .ok .executed) :
    ∃ change, Change.capture r.machine pc entry.instr = .ok change ∧
      (r.executeEntry pc entry).2.debugger = (breakIn r.debugger entry.instr).remember change := by
  unfold executeEntry at executed ⊢
  cases captured : Change.capture r.machine pc entry.instr with
  | error f => simp [captured, fail] at executed
  | ok change =>
    rw [captured] at executed
    refine ⟨change, rfl, ?_⟩
    cases ran : react pc entry.instr r.station with
    | error f s => simp [ran, fail] at executed
    | ok control s =>
      obtain ⟨console, events, absorbed⟩ := r.absorb_eq s
      cases control with
      | await => simp [ran] at executed
      | exit code => simp [ran, follow] at executed
      | next | jump address => simp [follow, moveTo, emit, complete, absorbed]

/-- An executed instruction is remembered by the record that was taken before it. -/
theorem tick_remembered {r : Run} (executed : r.tick.1 = .ok .executed) :
    ∃ entry change, r.next? = some entry ∧
      Change.capture r.machine r.pc entry.instr = .ok change ∧
      r.tick.2.debugger = (breakIn r.debugger entry.instr).remember change := by
  have running : r.ended = false := by
    by_contra ended
    simp [tick_ended (by simpa using ended)] at executed
  obtain ⟨-, -, entry, -, found, passes, -⟩ := tick_executed executed
  have passed := tick_passing running found passes
  cases limit : r.reachedLimit? with
  | some n => simp [passed, passEntry, limit, fail] at executed
  | none =>
    have ticked : r.tick = r.executeEntry r.pc entry := by rw [passed, passEntry, limit]
    rw [ticked] at executed ⊢
    obtain ⟨change, captured, debugger⟩ := debugger_executeEntry executed
    exact ⟨entry, change, found, captured, debugger⟩

theorem step_ne_paused (r : Run) : r.step.1 ≠ .ok .paused := by
  let marked : Run := { r with skipCheck := true }
  intro paused
  cases ended : r.ended with
  | true =>
    have finished := congrArg Prod.fst (tick_ended (r := marked) ended)
    exact absurd (finished.symm.trans paused) nofun
  | false =>
    obtain ⟨entry, -, pauses⟩ := (tick_paused_iff (r := marked) ended).mp paused
    exact absurd pauses nofun

namespace Kin

variable {a b : Run}

/-- How the debugger was told to go on does not matter, nor what was reported. -/
theorem exchanged (kin : a.Kin b) (state : DebugState) (continuing skipCheck : Bool)
    (events : List Event) :
    Kin { a with debugger := { a.debugger with state, continuing }, skipCheck, events } b :=
  ⟨(SameWork.exchanged a _ _ _).symm.trans kin.work, kin.undo, kin.enabled, kin.enabledToo⟩

/-- An instruction is executed alike, and remembered alike. -/
theorem forth (kin : a.Kin b) (executed : a.tick.1 = .ok .executed) :
    a.tick.2.Kin (b.stride .forth) := by
  let c : Run := { b with skipCheck := true }
  have same : a.SameWork c := kin.work.trans (.exchanged b _ _ _)
  have ticked := same.tick (by simp [executed]) b.step_ne_paused
  have executedToo : c.tick.1 = .ok .executed := ticked.result.symm.trans executed
  obtain ⟨entry, change, found, captured, debugger⟩ := tick_remembered executed
  obtain ⟨other, record, met, taken, debuggerToo⟩ := tick_remembered executedToo
  obtain rfl : entry = other := Option.some.inj (found.symm.trans (same.next?.trans met))
  obtain rfl : change = record := by
    rw [same.machine, same.pc, taken] at captured
    exact (Except.ok.inj captured).symm
  refine ⟨ticked.work, ?_, ?_, ?_⟩
  · change a.tick.2.debugger.undo = c.tick.2.debugger.undo
    rw [debugger, debuggerToo, undo_remember_breakIn kin.enabled,
      undo_remember_breakIn kin.enabledToo, kin.undo]
  · rw [debugger, enabled_remember_breakIn]
    exact kin.enabled
  · change c.tick.2.debugger.enabled = true
    rw [debuggerToo, enabled_remember_breakIn]
    exact kin.enabledToo

theorem back (kin : a.Kin b) : a.stepBack.2.Kin (b.stride .back) := by
  have alike : a.Alike b :=
    ⟨kin.work.program, kin.work.machine, kin.undo, kin.work.stats, kin.work.ended⟩
  have restored := alike.stepBack.2
  change a.stepBack.2.Kin b.stepBack.2
  obtain ⟨_, _, _, _, first⟩ := a.stepBack_eq
  obtain ⟨_, _, _, _, second⟩ := b.stepBack_eq
  rw [first, second] at restored ⊢
  exact ⟨⟨restored.program, restored.machine, kin.work.channels, restored.stats, kin.work.limit,
    kin.work.console, restored.ended⟩, restored.undo, kin.enabled, kin.enabledToo⟩

end Kin

end Run

end MipsLab
