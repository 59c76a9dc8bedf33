import MipsLab.Assembly.Assembler
import MipsLab.Proofs.Run.Transparent

/-! Where a continued run pauses. The plain trace of a run is what its ticks do with debugging
disabled. Continued under the debugger, the run executes that trace up to the first place where a
line with a breakpoint begins, or that lies directly behind an executed `break`; nowhere else does
it pause. -/
namespace MipsLab

def Instruction.isBreak : Instruction → Bool
  | .breakpoint _ => true
  | _ => false

namespace Debugger

theorem shouldBreak_iff {d : Debugger} (enabled : d.enabled = true) (entry : TextEntry) :
    (d.shouldBreak entry).1 = true ↔
      (entry.first = true ∧ entry.tag ∈ d.breakpoints) ∨ d.continuing = false := by
  unfold shouldBreak
  rw [enabled]
  cases d.continuing <;> by_cases hit : entry.first = true ∧ entry.tag ∈ d.breakpoints <;>
    simp [hit]

end Debugger

namespace Run

/-- The run as it is, with debugging disabled. -/
def undebugged (r : Run) : Run := { r with debugger := r.debugger.setEnabled false }

def ticks : (n : Nat) → Run → Run
  | 0, r => r
  | n + 1, r => r.tick.2.ticks n

/-- What the first `n` ticks execute. -/
def trace : (n : Nat) → Run → List Executed
  | 0, _ => []
  | n + 1, r => r.executed?.toList ++ r.tick.2.trace n

/-- The first `n` ticks all execute an instruction, and do not end the run. -/
def Reaches (r : Run) (n : Nat) : Prop := ∀ j < n, (r.ticks j).tick.1 = .ok .executed

/-- Whether the last of the first `n` ticks comes to a `break`. -/
def behindBreak (r : Run) : (n : Nat) → Bool
  | 0 => false
  | n + 1 => (r.ticks n).next?.any (·.instr.isBreak)

/-- At place `n` of its plain trace a continued run has to pause. -/
def StopsAt (r : Run) (n : Nat) : Prop :=
  ∃ entry, (r.undebugged.ticks n).next? = some entry ∧
    ((entry.first = true ∧ entry.tag ∈ r.debugger.breakpoints ∧ (n = 0 → r.skipCheck = false)) ∨
      r.undebugged.behindBreak n = true)

theorem stopsAt_iff {r : Run} {n : Nat} {entry : TextEntry}
    (found : (r.undebugged.ticks n).next? = some entry) :
    r.StopsAt n ↔ (entry.first = true ∧ entry.tag ∈ r.debugger.breakpoints ∧
      (n = 0 → r.skipCheck = false)) ∨ r.undebugged.behindBreak n = true := by
  constructor
  · rintro ⟨other, met, stops⟩
    obtain rfl : entry = other := Option.some.inj (found.symm.trans met)
    exact stops
  · intro stops
    exact ⟨entry, found, stops⟩

theorem ticks_succ (n : Nat) (r : Run) : r.ticks (n + 1) = (r.ticks n).tick.2 := by
  induction n generalizing r with
  | zero => rfl
  | succ n ih => exact ih r.tick.2

theorem Reaches.mono {r : Run} {m n : Nat} (reached : r.Reaches n) (le : m ≤ n) : r.Reaches m := by
  intro j lt
  exact reached j (by omega)

theorem Reaches.succ {r : Run} {n : Nat} (reached : r.Reaches n)
    (going : (r.ticks n).tick.1 = .ok .executed) : r.Reaches (n + 1) := by
  intro j lt
  rcases Nat.lt_succ_iff_lt_or_eq.mp lt with before | rfl
  · exact reached j before
  · exact going

theorem Reaches.shift {r : Run} {n : Nat} (reached : r.Reaches (n + 1)) : r.tick.2.Reaches n := by
  intro j lt
  exact reached (j + 1) (by omega)

theorem run_reaches {r : Run} {n : Nat} (reached : r.Reaches n) (fuel : Nat) :
    r.run (n + fuel) = (r.ticks n).run fuel ∧
      r.executedByRun (n + fuel) = r.trace n ++ (r.ticks n).executedByRun fuel := by
  induction n generalizing r with
  | zero => simp [ticks, trace]
  | succ n ih =>
    have going : r.tick.1 = .ok .executed := reached 0 (by omega)
    obtain ⟨same, executed⟩ := ih reached.shift
    rw [Nat.succ_add, run_going going, executedByRun, if_pos going, executed, trace,
      List.append_assoc]
    exact ⟨same, rfl⟩

theorem follow_executed {r : Run} {pc : Word} {control : Control}
    (going : (r.follow pc control).1 = .executed) :
    (r.follow pc control).2.ended = r.ended ∧
      (r.follow pc control).2.skipCheck = r.skipCheck ∧
      (r.follow pc control).2.debugger = r.debugger := by
  cases control with
  | exit code => simp [follow] at going
  | next | jump | await => exact ⟨rfl, rfl, rfl⟩

/-- What an executed instruction leaves of the debugger. -/
theorem tick_executed {r : Run} (going : r.tick.1 = .ok .executed) :
    r.tick.2.ended = false ∧ r.tick.2.skipCheck = false ∧
      ∃ entry change, r.next? = some entry ∧ r.pausesAt entry = false ∧
        r.tick.2.debugger = (breakIn r.debugger entry.instr).remember change := by
  have running : r.ended = false := by
    by_contra ended
    simp [tick_ended (by simpa using ended)] at going
  have inside : r.program.isPastEnd r.pc = false := by
    by_contra past
    simp [tick_pastEnd running (by simpa using past)] at going
  have passes (entry : TextEntry) (found : r.next? = some entry) : r.pausesAt entry = false := by
    by_contra pauses
    have paused := (tick_paused_iff running).mpr ⟨entry, found, by simpa using pauses⟩
    simp [paused] at going
  have ways := r.ticks_tick
  generalize r.tick = outcome at ways going ⊢
  obtain ⟨result, later⟩ := outcome
  dsimp only at ways going ⊢
  cases ways with
  | failed => simp [fail] at going
  | finished | paused | awaiting => simp at going
  | executed _ entry change s control fetched _ _ =>
    obtain ⟨console, events, absorbed⟩ := r.absorb_eq s
    obtain ⟨ended, asked, debugger⟩ := follow_executed (Except.ok.inj going)
    have found : r.next? = some entry := by simp [next?, inside, fetched]
    refine ⟨ended.trans ?_, asked, entry, change, found, passes entry found, debugger.trans ?_⟩
    · rw [absorbed]
      exact running
    · rw [absorbed]
      rfl

/-- The debugger behind an executed instruction, if debugging is enabled: a `break` ends the
continuation, and nothing else matters. -/
theorem remember_breakIn {d : Debugger} (enabled : d.enabled = true) (i : Instruction)
    (change : Change) :
    ((breakIn d i).remember change).breakpoints = d.breakpoints ∧
      ((breakIn d i).remember change).continuing = (!i.isBreak && d.continuing) := by
  cases i <;> simp [breakIn, Debugger.remember, Debugger.resume, Instruction.isBreak, enabled]

section Continue

variable {r : Run}

/-- A run continued under the debugger, after `n` ticks without a pause. -/
structure Continued (r : Run) (n : Nat) : Prop where
  running : (r.ticks n).ended = false
  enabled : (r.ticks n).debugger.enabled = true
  breakpoints : (r.ticks n).debugger.breakpoints = r.debugger.breakpoints
  asked : (r.ticks n).skipCheck = (decide (n = 0) && r.skipCheck)
  continuing : (r.ticks n).debugger.continuing = !r.behindBreak n

/-- Once a continuation has ended, the next tick pauses; so while instructions are executed, only
the last of them can have been a `break`. -/
theorem continued (running : r.ended = false) (enabled : r.debugger.enabled = true)
    (continuing : r.debugger.continuing = true) {n : Nat} (reached : r.Reaches n) :
    r.Continued n := by
  induction n with
  | zero => exact ⟨running, enabled, rfl, by simp [ticks], continuing⟩
  | succ n ih =>
    have before := ih (reached.mono (Nat.le_succ n))
    obtain ⟨still, asked, entry, change, found, passes, debugger⟩ :=
      tick_executed (reached n (Nat.lt_succ_self n))
    obtain ⟨breakpoints, kept⟩ := remember_breakIn before.enabled entry.instr change
    have going : (r.ticks n).debugger.continuing = true := by
      cases n with
      | zero => exact continuing
      | succ n =>
        by_contra ended
        have pauses : ((r.ticks (n + 1)).debugger.shouldBreak entry).1 = true :=
          (Debugger.shouldBreak_iff before.enabled entry).mpr (.inr (by simpa using ended))
        simp [pausesAt, before.asked, pauses] at passes
    rw [going, Bool.and_true] at kept
    constructor
    · rw [ticks_succ]
      exact still
    · rw [ticks_succ, debugger]
      exact (enabled_remember_breakIn _ _ _).trans before.enabled
    · rw [ticks_succ, debugger, breakpoints]
      exact before.breakpoints
    · rw [ticks_succ, asked]
      simp
    · rw [ticks_succ, debugger, kept, behindBreak, found, Option.any_some]

/-- After `n` ticks without a pause a continued run has done the work of its plain trace. -/
theorem sameWork_ticks {a b : Run} (same : a.SameWork b) (disabled : b.debugger.enabled = false)
    {n : Nat} (reached : a.Reaches n) :
    (a.ticks n).SameWork (b.ticks n) ∧ (b.ticks n).debugger.enabled = false ∧
      a.trace n = b.trace n := by
  induction n generalizing a b with
  | zero => exact ⟨same, disabled, rfl⟩
  | succ n ih =>
    have going : a.tick.1 = .ok .executed := reached 0 (by omega)
    have ticked := same.tick (by simp [going]) (tick_ne_paused_of_disabled disabled)
    have kept := b.ahead_tick.enabled
    obtain ⟨work, still, traces⟩ := ih ticked.work (kept.trans disabled) reached.shift
    refine ⟨work, still, ?_⟩
    rw [trace, trace, same.executed? ticked, traces]

theorem sameWork_undebugged (r : Run) : r.SameWork r.undebugged :=
  ⟨rfl, rfl, rfl, rfl, rfl, rfl, rfl⟩

/-- At a place of its trace that it has reached, a continued run pauses just if it has to. -/
theorem paused_iff_stopsAt (running : r.ended = false) (enabled : r.debugger.enabled = true)
    (continuing : r.debugger.continuing = true) {n : Nat} (reached : r.Reaches n) :
    (r.ticks n).tick.1 = .ok .paused ↔ r.StopsAt n := by
  have state := continued running enabled continuing reached
  have next (j : Nat) (le : j ≤ n) : (r.ticks j).next? = (r.undebugged.ticks j).next? :=
    (sameWork_ticks r.sameWork_undebugged rfl (reached.mono le)).1.next?
  have behind : r.behindBreak n = r.undebugged.behindBreak n := by
    cases n with
    | zero => rfl
    | succ n => rw [behindBreak, behindBreak, next n (Nat.le_succ n)]
  have asked : (r.ticks n).skipCheck = false ↔ (n = 0 → r.skipCheck = false) := by
    rw [state.asked]
    simp [imp_iff_not_or]
  have fresh (broken : r.undebugged.behindBreak n = true) : n ≠ 0 := by
    rintro rfl
    simp [behindBreak] at broken
  rw [tick_paused_iff state.running, next n (Nat.le_refl n)]
  refine exists_congr fun entry => and_congr_right fun found => ?_
  rw [pausesAt, Bool.and_eq_true, Debugger.shouldBreak_iff state.enabled, state.breakpoints,
    state.continuing, behind, Bool.not_eq_true', Bool.not_eq_false', asked]
  constructor
  · rintro ⟨unmarked, ⟨first, hit⟩ | broken⟩
    · exact .inl ⟨first, hit, unmarked⟩
    · exact .inr broken
  · rintro (⟨first, hit, unmarked⟩ | broken)
    · exact ⟨unmarked, .inl ⟨first, hit⟩⟩
    · exact ⟨fun start => absurd start (fresh broken), .inr broken⟩

/-- As long as it does not have to pause, a continued run goes on as its plain trace does. -/
theorem reaches_of_plain (running : r.ended = false) (enabled : r.debugger.enabled = true)
    (continuing : r.debugger.continuing = true) {n : Nat} (plain : r.undebugged.Reaches n)
    (passes : ∀ j < n, ¬ r.StopsAt j) : r.Reaches n := by
  induction n with
  | zero => exact fun j lt => absurd lt (by omega)
  | succ n ih =>
    have reached := ih (plain.mono (Nat.le_succ n)) fun j lt => passes j (by omega)
    obtain ⟨work, disabled, -⟩ := sameWork_ticks r.sameWork_undebugged rfl reached
    have goes : (r.ticks n).tick.1 ≠ .ok .paused := by
      rw [ne_eq, paused_iff_stopsAt running enabled continuing reached]
      exact passes n (by omega)
    have ticked := work.tick goes (tick_ne_paused_of_disabled disabled)
    exact reached.succ (ticked.result.trans (plain n (by omega)))

/-- From a place of its trace on, and as far as it does not have to pause, a continued run and the
plain one execute the same and end alike. -/
theorem coincide_run (running : r.ended = false) (enabled : r.debugger.enabled = true)
    (continuing : r.debugger.continuing = true) (n fuel : Nat) (plain : r.undebugged.Reaches n)
    (passes : ∀ j < n + fuel, r.undebugged.Reaches j → ¬ r.StopsAt j) :
    Coincide ((r.ticks n).run fuel) ((r.undebugged.ticks n).run fuel) ∧
      (r.ticks n).executedByRun fuel = (r.undebugged.ticks n).executedByRun fuel := by
  have reached : r.Reaches n := by
    refine reaches_of_plain running enabled continuing plain fun j lt => ?_
    exact passes j (by omega) (plain.mono (by omega))
  obtain ⟨work, disabled, -⟩ := sameWork_ticks r.sameWork_undebugged rfl reached
  induction fuel generalizing n with
  | zero => exact ⟨⟨rfl, work⟩, rfl⟩
  | succ fuel ih =>
    have goes : (r.ticks n).tick.1 ≠ .ok .paused := by
      rw [ne_eq, paused_iff_stopsAt running enabled continuing reached]
      exact passes n (by omega) plain
    have ticked := work.tick goes (tick_ne_paused_of_disabled disabled)
    rw [executedByRun, executedByRun, work.executed? ticked, ticked.result]
    by_cases going : (r.undebugged.ticks n).tick.1 = .ok .executed
    · have further := reached.succ (ticked.result.trans going)
      obtain ⟨later, still, -⟩ := sameWork_ticks r.sameWork_undebugged rfl further
      have rest := ih (n + 1) (plain.succ going) (fun j lt => passes j (by omega)) further later
        still
      rw [run_going going, run_going (ticked.result.trans going), if_pos going, if_pos going,
        ← ticks_succ, ← ticks_succ]
      exact ⟨rest.1, congrArg _ rest.2⟩
    · have stopped : (r.ticks n).tick.1 ≠ .ok .executed := by rwa [ticked.result]
      rw [run_stopped going, run_stopped stopped, if_neg going, if_neg going]
      exact ⟨ticked, rfl⟩

end Continue

/-- A continued run executes its plain trace up to the first place at which it has to pause, and
pauses there. If it does not have to pause anywhere, it ends, waits, fails or goes on as the plain
trace does. Inside the expansion of a line it never pauses. -/
theorem run_continuing {r : Run} (running : r.ended = false) (enabled : r.debugger.enabled = true)
    (continuing : r.debugger.continuing = true) :
    (∀ n fuel, n < fuel → r.undebugged.Reaches n → r.StopsAt n → (∀ j < n, ¬ r.StopsAt j) →
      (r.run fuel).1 = .ok .paused ∧ (r.run fuel).2.pc = (r.undebugged.ticks n).pc ∧
        (r.run fuel).2.SameWork (r.undebugged.ticks n) ∧
        r.executedByRun fuel = r.undebugged.trace n) ∧
    (∀ fuel, (∀ n < fuel, r.undebugged.Reaches n → ¬ r.StopsAt n) →
      (r.run fuel).1 = (r.undebugged.run fuel).1 ∧
        (r.run fuel).2.SameWork (r.undebugged.run fuel).2 ∧
        r.executedByRun fuel = r.undebugged.executedByRun fuel) ∧
    (∀ entry, r.next? = some entry → entry.first = false → r.tick.1 ≠ .ok .paused) := by
  refine ⟨?_, ?_, ?_⟩
  · intro n fuel lt plain stops passes
    have reached := reaches_of_plain running enabled continuing plain passes
    have paused := (paused_iff_stopsAt running enabled continuing reached).mpr stops
    have stopped : (r.ticks n).tick.1 ≠ .ok .executed := by simp [paused]
    obtain ⟨work, -, traces⟩ := sameWork_ticks r.sameWork_undebugged rfl reached
    obtain ⟨extra, rfl⟩ : ∃ extra, fuel = n + (extra + 1) := ⟨fuel - n - 1, by omega⟩
    obtain ⟨ran, executed⟩ := run_reaches reached (extra + 1)
    have halted := (sameWork_of_paused paused).trans work
    rw [ran, executed, run_stopped stopped, executedByRun, if_neg stopped, executed?_paused paused,
      traces]
    exact ⟨paused, halted.pc, halted, by simp⟩
  · intro fuel passes
    have start : r.undebugged.Reaches 0 := fun j lt => absurd lt (by omega)
    obtain ⟨ran, executed⟩ := coincide_run running enabled continuing 0 fuel start
      fun j lt => passes j (by omega)
    exact ⟨ran.result, ran.work, executed⟩
  · intro entry found inside paused
    obtain ⟨other, met, pauses⟩ := (tick_paused_iff running).mp paused
    obtain rfl : entry = other := Option.some.inj (found.symm.trans met)
    have hit := (Bool.and_eq_true_iff.mp pauses).2
    rw [Debugger.shouldBreak_iff enabled, inside, continuing] at hit
    simp at hit

/-- A loop of two lines, the first of them expanded. -/
def countingEntries : List TextEntry :=
  let entry (a : Word) (i : Instruction) (line : Nat) (first : Bool) : TextEntry :=
    ⟨a, i, ⟨"loop.s", line⟩, "", false, first⟩
  [entry 0x400000 (.imm .addiu Register.v0 Register.v0 1) 1 true,
    entry 0x400004 (.imm .addiu Register.v0 Register.v0 1) 1 false,
    entry 0x400008 (.jump false ⟨0x400000, none⟩) 2 true]

/-- Continued on the first line, where its breakpoint stands. -/
def countingRun : Run :=
  let program := { readingLoop with text := Assembler.insertEntries ∅ countingEntries }
  let r := Run.start program { debug := true } ⟨[], []⟩
  { r with
    debugger := { r.debugger with continuing := true, breakpoints := [⟨"loop.s", 1⟩] }
    skipCheck := true }

theorem run_continuing_countingRun :
    countingRun.ended = false ∧ countingRun.debugger.enabled = true ∧
      countingRun.debugger.continuing = true ∧ countingRun.undebugged.Reaches 3 ∧
      countingRun.StopsAt 3 ∧ (∀ j < 3, ¬ countingRun.StopsAt j) ∧
      (countingRun.run 9).1 = .ok .paused ∧
      (countingRun.run 9).2.pc = (countingRun.undebugged.ticks 3).pc ∧
      (countingRun.run 9).2.SameWork (countingRun.undebugged.ticks 3) ∧
      countingRun.executedByRun 9 = countingRun.undebugged.trace 3 := by
  have reached : countingRun.undebugged.Reaches 3 := by
    intro j lt
    interval_cases j <;> cbv
  have met (j : Nat) (lt : j < 4) : (countingRun.undebugged.ticks j).next? =
      some (countingEntries.get ⟨j % 3, Nat.mod_lt _ (by decide)⟩) := by
    interval_cases j <;> cbv
  have unbroken (j : Nat) (lt : j < 4) : countingRun.undebugged.behindBreak j = false := by
    cases j with
    | zero => rfl
    | succ j =>
      have short : j < 3 := by omega
      rw [behindBreak, met j (by omega)]
      interval_cases j <;> rfl
  have stops : countingRun.StopsAt 3 := by
    rw [stopsAt_iff (met 3 (by decide))]
    exact .inl ⟨rfl, List.mem_singleton.mpr rfl, by simp⟩
  have passes : ∀ j < 3, ¬ countingRun.StopsAt j := by
    intro j lt
    rw [stopsAt_iff (met j (by omega)), unbroken j (by omega)]
    interval_cases j <;> simp [countingEntries, countingRun]
  have pauses := run_continuing (r := countingRun) rfl rfl rfl
  exact ⟨rfl, rfl, rfl, reached, stops, passes, pauses.1 3 9 (by decide) reached stops passes⟩

end Run

end MipsLab
