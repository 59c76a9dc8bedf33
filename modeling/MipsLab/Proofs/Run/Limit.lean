import MipsLab.Proofs.Run.Counts
import MipsLab.Proofs.Run.Faults

/-! Runs with an instruction limit. Only ticks count upwards, by no more than one, and at the limit
they execute nothing. So a run that is kept going comes to rest after no more ticks than the limit
leaves, whatever was done with it before. -/
namespace MipsLab.Run

/-- A property of runs that lasts through ticks and step backs, through the end of the run, and
through all that is done to its debugger and its channels from outside. -/
structure Lasts (P : Run → Prop) : Prop where
  tick : ∀ {r}, P r → P r.tick.2
  stepBack : ∀ {r}, P r → P r.stepBack.2
  finish : ∀ {r} (success : Bool), P r → P (r.finish success)
  aside : ∀ {r} (debugger : Debugger) (skipCheck : Bool) (channels : Channels), P r →
    P { r with debugger, skipCheck, channels }

section Lasts

variable {P : Run → Prop} {r : Run}

theorem Lasts.run (lasts : Lasts P) (fuel : Nat) (holds : P r) : P (r.run fuel).2 := by
  induction fuel generalizing r with
  | zero => exact holds
  | succ fuel ih =>
    by_cases going : r.tick.1 = .ok .executed
    · rw [run_going going]
      exact ih (lasts.tick holds)
    · rw [run_stopped going]
      exact lasts.tick holds

theorem Lasts.perform (lasts : Lasts P) (move : Move) (holds : P r) : P (r.perform move) := by
  cases move with
  | tick => exact lasts.tick holds
  | step => exact lasts.tick (lasts.aside r.debugger true r.channels holds)
  | run fuel => exact lasts.run fuel holds
  | setInput | resume | addBreakpoint | removeBreakpoint | clearBreakpoints =>
    exact lasts.aside _ _ _ holds

theorem Lasts.obeyLine (lasts : Lasts P) (text : String) (holds : P r) : P (r.obeyLine text).2 := by
  unfold Run.obeyLine
  cases PromptCommand.ofLine? text with
  | none => exact holds
  | some command =>
    cases command with
    | quit => exact lasts.finish false holds
    | reverse => exact lasts.stepBack holds
    | _ => exact lasts.aside _ _ _ holds

theorem Lasts.handle (lasts : Lasts P) (h : Handling) (holds : P r) : P (r.handle h) := by
  cases h with
  | release | enable | clearUndo => exact lasts.aside _ _ _ holds
  | operate o =>
    cases o with
    | stepBack => exact lasts.stepBack holds
    | stop => exact lasts.finish false holds
    | finish success => exact lasts.finish success holds
    | act a =>
      cases a with
      | move m => exact lasts.perform m holds
      | line text => exact lasts.obeyLine text holds

theorem Lasts.handleAll (lasts : Lasts P) (handlings : List Handling) (holds : P r) :
    P (r.handleAll handlings) := by
  induction handlings generalizing r with
  | nil => exact holds
  | cons h rest ih => exact ih (lasts.handle h holds)

end Lasts

variable {n : Nat} {r : Run}

theorem counted_finish (r : Run) (success : Bool) :
    (r.finish success).limit = r.limit ∧ (r.finish success).stats = r.stats := by
  unfold finish
  split <;> exact ⟨rfl, rfl⟩

/-- A tick counts what it executes, and leaves the limit as it is. -/
theorem counted_tick (r : Run) : r.tick.2.limit = r.limit ∧
    r.tick.2.stats.total = r.stats.total + r.tick.1.executions := by
  have ways := r.ticks_tick
  generalize r.tick = outcome at ways ⊢
  obtain ⟨result, next⟩ := outcome
  have finished (q : Run) (success : Bool) : (q.finish success).limit = q.limit ∧
      (q.finish success).stats.total = q.stats.total :=
    ⟨(counted_finish q success).1, congrArg Statistics.total (counted_finish q success).2⟩
  cases ways with
  | finished => exact finished r true
  | paused | awaiting => exact ⟨rfl, rfl⟩
  | failed running channels fault => exact finished _ false
  | executed running entry change s control found pc undone =>
    obtain ⟨console, events, taken⟩ := r.absorb_eq s
    rw [taken]
    cases control with
    | exit code => exact finished _ true
    | jump | next | await => exact ⟨rfl, rfl⟩

/-- Where a tick executes an instruction, the limit has not been reached. -/
theorem allowed_of_executed (executed : r.tick.1.executions ≠ 0) : r.reachedLimit? = none := by
  have ways := r.ways_tick
  generalize r.tick = outcome at ways executed
  cases ways with
  | executing entry found allowed => exact allowed
  | ended | pastEnd | astray | pausing | exhausted => exact absurd rfl executed

/-- A run that is limited to `n` instructions, and has kept to it. -/
structure Limited (n : Nat) (r : Run) : Prop where
  limit : r.limit = some n
  kept : r.stats.total ≤ n

namespace Limited

theorem below (limited : Limited n r) (executed : r.tick.1.executions ≠ 0) :
    r.stats.total < n := by
  have allowed := allowed_of_executed executed
  rw [reachedLimit?, limited.limit, Option.filter_some] at allowed
  simpa using allowed

theorem reached (limited : Limited n r) {limit : Nat} (stopped : r.reachedLimit? = some limit) :
    limit = n ∧ r.stats.total = n := by
  rw [reachedLimit?, limited.limit, Option.filter_eq_some_iff] at stopped
  obtain ⟨same, met⟩ := stopped
  obtain rfl := Option.some.inj same
  exact ⟨rfl, Nat.le_antisymm limited.kept (of_decide_eq_true met)⟩

theorem of_counts {next : Run} (limited : Limited n r) (limit : next.limit = r.limit)
    (total : next.stats.total ≤ r.stats.total) : Limited n next :=
  ⟨limit.trans limited.limit, Nat.le_trans total limited.kept⟩

theorem tick (limited : Limited n r) : Limited n r.tick.2 := by
  obtain ⟨limit, total⟩ := r.counted_tick
  by_cases idle : r.tick.1.executions = 0
  · exact limited.of_counts limit (by omega)
  · have room := limited.below idle
    have once := executions_le r.tick.1
    exact ⟨limit.trans limited.limit, by omega⟩

/-- Steps back only make room. -/
theorem stepBack (limited : Limited n r) : Limited n r.stepBack.2 := by
  unfold Run.stepBack
  split
  · exact limited
  · split
    · exact limited.of_counts rfl (Nat.le_refl _)
    · dsimp only
      split
      · exact limited.of_counts rfl (Nat.sub_le _ 1)
      · exact limited.of_counts rfl (Nat.le_refl _)

theorem lasts (n : Nat) : Lasts (Limited n) where
  tick := tick
  stepBack := stepBack
  finish {r} success limited :=
    limited.of_counts (r.counted_finish success).1
      (Nat.le_of_eq (congrArg Statistics.total (r.counted_finish success).2))
  aside _ _ _ limited := limited.of_counts rfl (Nat.le_refl _)

end Limited

theorem limited_launch (program : Program) {settings : Settings} (tree : FileTree)
    (args : List String) (limit : settings.maxInstructions = some n) :
    Limited n (launch program settings tree args) := by
  unfold launch setArguments
  split <;> exact ⟨limit, Nat.zero_le n⟩

/-- An executed instruction takes one of those that the limit leaves. -/
theorem Limited.going (limited : Limited n r) (going : r.tick.1 = .ok .executed) :
    r.stats.total < n ∧ r.tick.2.stats.total = r.stats.total + 1 := by
  have once : r.tick.1.executions = 1 := by rw [going]; rfl
  have total := r.counted_tick.2
  rw [once] at total
  exact ⟨limited.below (by omega), total⟩

theorem Limited.length_tickedByRun (limited : Limited n r) (fuel : Nat) :
    (r.tickedByRun fuel).length ≤ n - r.stats.total + 1 := by
  induction fuel generalizing r with
  | zero => exact Nat.zero_le _
  | succ fuel ih =>
    rw [tickedByRun, List.length_cons]
    by_cases going : r.tick.1 = .ok .executed
    · obtain ⟨room, total⟩ := limited.going going
      have rest := ih limited.tick
      rw [if_pos going]
      omega
    · rw [if_neg going, List.length_nil]
      omega

/-- With fuel for more instructions than the limit leaves, a run does not run out of it. -/
theorem Limited.run_returns (limited : Limited n r) {fuel : Nat}
    (enough : n - r.stats.total < fuel) : (r.run fuel).1 ≠ .ok .executed := by
  induction fuel generalizing r with
  | zero => exact absurd enough (Nat.not_lt_zero _)
  | succ fuel ih =>
    by_cases going : r.tick.1 = .ok .executed
    · obtain ⟨room, total⟩ := limited.going going
      rw [run_going going]
      exact ih limited.tick (by omega)
    · rw [run_stopped going]
      exact going

/-- More fuel makes no difference to a run that has returned. -/
theorem run_settled {fuel more : Nat} (returned : (r.run fuel).1 ≠ .ok .executed)
    (longer : fuel ≤ more) : r.run more = r.run fuel := by
  induction fuel generalizing r more with
  | zero => exact absurd rfl returned
  | succ fuel ih =>
    obtain ⟨more, rfl⟩ : ∃ k, more = k + 1 := ⟨more - 1, by omega⟩
    by_cases going : r.tick.1 = .ok .executed
    · rw [run_going going] at returned
      rw [run_going going, run_going going]
      exact ih returned (Nat.le_of_succ_le_succ longer)
    · rw [run_stopped going, run_stopped going]

/-- The fault of the limit is raised just where the count stands at the limit. -/
theorem Limited.tick_exhausted (limited : Limited n r) {e : RunError} {limit : Nat}
    (failed : r.tick.1 = .error e) (fault : e.fault = .instructionLimit limit) :
    limit = n ∧ r.tick.2.stats.total = n := by
  have fails := fails_tick failed
  have total := r.counted_tick.2
  rw [failed] at total
  rw [fault] at fails
  cases fails with
  | exhausted _ reached =>
    obtain ⟨same, counted⟩ := limited.reached reached
    exact ⟨same, total.trans counted⟩
  | executing entry found _ plain => exact absurd plain Bool.false_ne_true

theorem Limited.run_exhausted (limited : Limited n r) {fuel limit : Nat} {e : RunError}
    (failed : (r.run fuel).1 = .error e) (fault : e.fault = .instructionLimit limit) :
    limit = n ∧ (r.run fuel).2.stats.total = n := by
  induction fuel generalizing r with
  | zero => cases failed
  | succ fuel ih =>
    by_cases going : r.tick.1 = .ok .executed
    · rw [run_going going] at failed ⊢
      exact ih limited.tick failed
    · rw [run_stopped going] at failed ⊢
      exact limited.tick_exhausted failed fault

theorem Limited.executed?_none (limited : Limited n r) (full : r.stats.total = n) :
    r.executed? = none := by
  by_cases idle : r.tick.1.executions = 0
  · rw [executed?, if_pos idle]
  · exact absurd full (Nat.ne_of_lt (limited.below idle))

/-- At the limit nothing is executed any more, however the run is moved. -/
theorem Limited.executedBy_nil (limited : Limited n r) (full : r.stats.total = n) (a : Act) :
    r.executedBy a = [] := by
  have none := limited.executed?_none full
  cases a with
  | line text => rfl
  | move m =>
    cases m with
    | tick => exact congrArg Option.toList none
    | step =>
      have marked : Limited n { r with skipCheck := true } :=
        limited.of_counts rfl (Nat.le_refl _)
      exact congrArg Option.toList (marked.executed?_none full)
    | run fuel =>
      cases fuel with
      | zero => rfl
      | succ fuel =>
        have stopped : r.tick.1 ≠ .ok .executed := fun going =>
          absurd full (Nat.ne_of_lt (limited.going going).1)
        change r.executed?.toList ++ _ = []
        rw [none, if_neg stopped]
        rfl
    | _ => rfl

/-- However a run with an instruction limit has been handled, it has not executed more instructions
than it may. Kept going, it comes to rest after at most one tick more than the limit leaves. It
fails for the limit only with its count there, and from then on nothing is executed. -/
theorem handleAll_limited (program : Program) (settings : Settings) (tree : FileTree)
    (args : List String) (handlings : List Handling) {n : Nat}
    (limit : settings.maxInstructions = some n) :
    let r := (launch program settings tree args).handleAll handlings
    r.stats.total ≤ n ∧
    (∀ fuel, (r.tickedByRun fuel).length ≤ n - r.stats.total + 1) ∧
    (∀ fuel, n - r.stats.total + 1 ≤ fuel → (r.run fuel).1 ≠ .ok .executed ∧
      r.run fuel = r.run (n - r.stats.total + 1)) ∧
    (∀ fuel e reached, (r.run fuel).1 = .error e → e.fault = .instructionLimit reached →
      reached = n ∧ (r.run fuel).2.stats.total = n) ∧
    (r.stats.total = n → ∀ a, r.executedBy a = []) := by
  intro r
  have limited : Limited n r :=
    (Limited.lasts n).handleAll handlings (limited_launch program tree args limit)
  refine ⟨limited.kept, limited.length_tickedByRun, fun fuel enough => ⟨?_, ?_⟩, ?_, ?_⟩
  · exact limited.run_returns enough
  · exact run_settled (limited.run_returns (Nat.lt_succ_self _)) enough
  · exact fun fuel e reached failed fault => limited.run_exhausted failed fault
  · exact limited.executedBy_nil

/-- An instruction that jumps to itself. -/
def circling : Program :=
  { readingLoop with
    text := entriesFrom MemoryMap.textBase [.jump false ⟨MemoryMap.textBase, none⟩] }

def limitedCircling : Run :=
  (launch circling { debug := true, maxInstructions := some 3 } ⟨[], []⟩ []).handleAll
    [.operate (.act (.move .step)), .operate (.act (.move .step)), .operate .stepBack,
      .release .continue]

/-- One instruction is counted after a step back, so two are left, and the third tick fails. -/
theorem handleAll_limited_circling : limitedCircling.stats.total = 1 ∧
    (limitedCircling.tickedByRun 9).length ≤ 3 ∧ (limitedCircling.run 9).1 ≠ .ok .executed ∧
    (∃ e, (limitedCircling.run 9).1 = .error e ∧ e.fault = .instructionLimit 3) ∧
    (limitedCircling.run 9).2.stats.total = 3 := by
  have total : limitedCircling.stats.total = 1 := by cbv
  have failed : (limitedCircling.run 9).1 =
      .error ⟨MemoryMap.textBase, some ⟨"echo.s", 1⟩, .instructionLimit 3⟩ := by cbv
  obtain ⟨-, ticks, returns, exhausted, -⟩ := handleAll_limited circling
    { debug := true, maxInstructions := some 3 } ⟨[], []⟩ []
    [.operate (.act (.move .step)), .operate (.act (.move .step)), .operate .stepBack,
      .release .continue] rfl
  change ∀ fuel, (limitedCircling.tickedByRun fuel).length ≤
    3 - limitedCircling.stats.total + 1 at ticks
  rw [total] at ticks
  refine ⟨total, ticks 9, ?_, ⟨_, failed, rfl⟩, (exhausted 9 _ 3 failed rfl).2⟩
  refine (returns 9 ?_).1
  change 3 - limitedCircling.stats.total + 1 ≤ 9
  rw [total]
  decide

end MipsLab.Run
