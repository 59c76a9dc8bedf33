import MipsLab.Proofs.Control.Stepping

/-! The timing of strides. Commands to step forth and back are sent to a worker that has paused, and
it is given time to move in between, or is not. -/
namespace MipsLab.Exchange

/-- The worker has paused, all commands are taken, and more may come. -/
structure Waiting (x : Exchange) : Prop where
  ready : x.worker.phase = .ready
  paused : x.worker.paused = true
  queue : x.queue = []
  opened : x.closed = false

/-- A stride that is asked for, or time for the worker to move. -/
abbrev Schedule : Type := List (Option Stride)

def happening : Option Stride → Happening
  | some stride => .sent stride.command
  | none => .moved

def happenings (schedule : Schedule) : List Happening := schedule.map happening

section Schedule

variable {x : Exchange} {schedule : Schedule}

theorem closed_after (x : Exchange) (h : Option Stride) :
    (x.after (happening h)).closed = x.closed := by
  cases h with
  | some stride => rfl
  | none =>
    rw [happening, after]
    split <;> rfl

theorem exited_afterAll (exited : x.worker.phase = .exited) (hs : List Happening) :
    (x.afterAll hs).worker.phase = .exited := by
  rw [((x.goes_history hs).exited exited).2]
  exact exited

/-- Everything that is sent comes to a worker that is still here at last. -/
theorem accepted_happenings (opened : x.closed = false)
    (here : (x.afterAll (happenings schedule)).worker.phase ≠ .exited) :
    x.accepted (happenings schedule) = schedule.reduceOption.map Stride.command := by
  induction schedule generalizing x with
  | nil => rfl
  | cons h rest ih =>
    have later := ih ((x.closed_after h).trans opened) here
    cases h with
    | none => exact later
    | some stride =>
      have alive : x.worker.phase ≠ .exited := fun exited => here (exited_afterAll exited _)
      have comes : x.accepts (.sent stride.command) = some stride.command := by
        simp [accepts, opened, alive]
      change (x.accepts (.sent stride.command)).toList ++ _ = _
      rw [comes]
      exact congrArg (List.cons stride.command) later

theorem commands_happenings (waiting : x.Waiting)
    (settled : (x.afterAll (happenings schedule)).Waiting) :
    (x.history (happenings schedule)).filterMap Stage.command? =
      schedule.reduceOption.map Stride.command := by
  have here : (x.afterAll (happenings schedule)).worker.phase ≠ .exited := by
    rw [settled.ready]
    exact nofun
  have taken := x.taken_append_queue (happenings schedule)
  rw [settled.queue, waiting.queue, accepted_happenings waiting.opened here] at taken
  simpa using taken

/-- The strides are asked for in the order of sending. -/
theorem asked_happenings (waiting : x.Waiting)
    (settled : (x.afterAll (happenings schedule)).Waiting) :
    (x.history (happenings schedule)).filterMap Stage.asked? = schedule.reduceOption := by
  have asked : (x.history (happenings schedule)).filterMap Stage.asked? =
      ((x.history (happenings schedule)).filterMap Stage.command?).filterMap
        WorkerCommand.stride? := by
    rw [List.filterMap_filterMap]
    rfl
  rw [asked, commands_happenings waiting settled, List.filterMap_map]
  have known : WorkerCommand.stride? ∘ Stride.command = some := by
    funext stride
    cases stride <;> rfl
  rw [known, List.filterMap_some]

/-- Where no tick ends the run or waits for input, the worker only makes strides and pauses. -/
theorem strides_history (waiting : x.Waiting)
    (goesOn : ∀ s ∈ x.history (happenings schedule), s.deed = .ticked →
      s.result = .ok .executed ∨ s.result = .ok .paused)
    (settled : (x.afterAll (happenings schedule)).Waiting) :
    ∀ s ∈ x.history (happenings schedule), s.worker.Strides s.deed := by
  have goes : x.worker.Goes (x.history (happenings schedule))
      (x.afterAll (happenings schedule)).worker := x.goes_history (happenings schedule)
  have here : (x.afterAll (happenings schedule)).worker.phase ≠ .exited := by
    rw [settled.ready]
    exact nofun
  rintro ⟨w, deed⟩ member
  cases deed with
  | took command =>
    have listed : command ∈ (x.history (happenings schedule)).filterMap Stage.command? :=
      List.mem_filterMap.mpr ⟨_, member, rfl⟩
    rw [commands_happenings waiting settled] at listed
    obtain ⟨stride, -, rfl⟩ := List.mem_map.mp listed
    cases stride with
    | forth => exact .step
    | back => exact .reverse
  | turned => exact .turned
  | ticked => exact (goesOn _ member rfl).elim .executed .paused
  | gaveUp => exact absurd rfl (goes.unended here _ member)

/-- Every command is sent when the one before it has taken effect. -/
def OneByOne : Exchange → Schedule → Prop
  | _, [] => True
  | x, some stride :: rest => x.Waiting ∧ (x.after (.sent stride.command)).OneByOne rest
  | x, none :: rest => (x.after .moved).OneByOne rest

theorem deed?_of_queue {command : WorkerCommand} {rest : List WorkerCommand}
    (queue : x.queue = command :: rest) (listens : x.worker.phase = .draining ∨ x.worker.Waits) :
    x.deed? = some (.took command) := by
  have here : x.worker.phase ≠ .exited := (Worker.May.take command listens).here
  have held : ¬(x.worker.phase = .ready ∧ x.worker.paused = false) := by
    rintro ⟨ready, going⟩
    obtain draining | ⟨-, paused⟩ | awaiting := listens
    · exact absurd (ready.symm.trans draining) nofun
    · exact absurd (going.symm.trans paused) nofun
    · exact absurd (ready.symm.trans awaiting) nofun
  unfold deed? Worker.deed?
  rw [if_neg here, if_neg held, queue]

/-- At most one command is on its way, and only to a worker that has paused. -/
def Calm (x : Exchange) : Prop := x.queue = [] ∨ x.queue.length = 1 ∧ x.worker.paused = true

/-- Nothing but that command is dealt with, and no step is due then. -/
theorem Calm.deed (calm : x.Calm) {deed : Deed} (done : x.deed? = some deed) :
    (x.moved deed).queue = [] ∧
      (x.worker.armed = true → Stage.command? ⟨x.worker, deed⟩ = none) := by
  obtain ⟨may, head⟩ := Worker.may_of_deed? done
  obtain queue | ⟨one, paused⟩ := calm
  · cases deed with
    | took command => exact absurd (queue.symm.trans (head command rfl)) nofun
    | turned | ticked | gaveUp => exact ⟨queue, fun _ => rfl⟩
  · obtain ⟨command, queue⟩ := List.length_eq_one_iff.mp one
    have listens : x.worker.phase = .draining ∨ x.worker.Waits := by
      cases may with
      | take _ listens => exact listens
      | turn draining => exact .inl draining
      | tick ready going => exact absurd (going.symm.trans paused) nofun
      | giveUp waits => exact .inr waits
    obtain rfl : Deed.took command = deed :=
      Option.some.inj ((deed?_of_queue queue listens).symm.trans done)
    refine ⟨?_, fun armed => absurd armed ?_⟩
    · rw [moved, Worker.left, queue]
      rfl
    · simp [Worker.armed, paused]

/-- Sent one by one, no command is taken while a step is due. -/
theorem prompt_history (calm : x.Calm) (oneByOne : x.OneByOne schedule) :
    ∀ s ∈ x.history (happenings schedule), s.worker.armed = true → s.command? = none := by
  -- Whatever is next on the schedule leaves the exchange calm.
  induction schedule generalizing x with
  | nil => exact List.forall_mem_nil _
  | cons h rest ih =>
    cases h with
    | some stride =>
      obtain ⟨waiting, onward⟩ := oneByOne
      refine ih (x := x.after (.sent stride.command)) ?_ onward
      have queue : (x.after (.sent stride.command)).queue =
          (x.accepts (.sent stride.command)).toList := by
        change x.queue ++ _ = _
        rw [waiting.queue, List.nil_append]
      rw [Calm, queue]
      cases x.accepts (.sent stride.command) with
      | none => exact .inl rfl
      | some command => exact .inr ⟨rfl, waiting.paused⟩
    | none =>
      change (x.after .moved).OneByOne rest at oneByOne
      change ∀ s ∈ x.history (.moved :: happenings rest), _
      cases done : x.deed? with
      | none =>
        rw [after_stuck done] at oneByOne
        rw [history_stuck done]
        exact ih calm oneByOne
      | some deed =>
        rw [after_moved done] at oneByOne
        rw [history_moved done]
        obtain ⟨left, prompt⟩ := calm.deed done
        exact List.forall_mem_cons.mpr ⟨prompt, ih (.inl left) oneByOne⟩

theorem accepted_replicate (x : Exchange) (n : Nat) :
    x.accepted (List.replicate n .moved) = [] := by
  induction n generalizing x with
  | zero => rfl
  | succ n ih => exact ih (x.after .moved)

/-- A worker that is only given time takes all commands before it does anything else. -/
theorem history_drains (n : Nat)
    (listens : x.queue ≠ [] → x.worker.phase = .draining ∨ x.worker.Waits)
    (mild : ∀ command ∈ x.queue, command ≠ .stop) :
    ∃ takes rest, x.history (List.replicate n .moved) = takes ++ rest ∧
      (∀ s ∈ takes, s.command?.isSome) ∧ ∀ s ∈ rest, s.command? = none := by
  -- The worker drains the queue, and once that is empty no command is ever taken.
  induction n generalizing x with
  | zero => exact ⟨[], [], rfl, List.forall_mem_nil _, List.forall_mem_nil _⟩
  | succ n ih =>
    cases queue : x.queue with
    | nil =>
      have taken := x.taken_append_queue (List.replicate (n + 1) .moved)
      rw [queue, accepted_replicate, List.append_nil] at taken
      have none_taken := List.filterMap_eq_nil_iff.mp (List.append_eq_nil_iff.mp taken).1
      exact ⟨[], _, rfl, List.forall_mem_nil _, none_taken⟩
    | cons command rest =>
      have due := deed?_of_queue queue (listens (by simp [queue]))
      have left : (x.moved (.took command)).queue = rest := by simp [moved, Worker.left, queue]
      have draining : (x.moved (.took command)).worker.phase = .draining := by
        have here := mild command (by simp [queue])
        cases command with
        | stop => exact absurd rfl here
        | _ => rfl
      obtain ⟨takes, others, split, all, none_taken⟩ :=
        ih (x := x.moved (.took command)) (fun _ => .inl draining)
          (fun other member => mild other (by
            rw [queue]
            exact List.mem_cons_of_mem _ (left ▸ member)))
      refine ⟨⟨x.worker, .took command⟩ :: takes, others, ?_, ?_, none_taken⟩
      · rw [List.replicate_succ, history_moved due, split]
        rfl
      · exact List.forall_mem_cons.mpr ⟨rfl, all⟩

/-- Nothing is done while the commands are sent. -/
theorem history_sends (opened : x.closed = false) (here : x.worker.phase ≠ .exited)
    (strides : List Stride) :
    x.history (happenings (strides.map some)) = [] ∧
      x.afterAll (happenings (strides.map some)) =
        { x with queue := x.queue ++ strides.map Stride.command } := by
  induction strides generalizing x with
  | nil => exact ⟨rfl, by simp [happenings, afterAll]⟩
  | cons stride rest ih =>
    have comes : x.after (.sent stride.command) =
        { x with queue := x.queue ++ [stride.command] } := by
      simp [after, accepts, opened, here]
    have later := ih (x := x.after (.sent stride.command)) (by rw [comes]; exact opened)
      (by rw [comes]; exact here)
    refine ⟨later.1, later.2.trans ?_⟩
    simp [comes]

/-- All commands are taken before the first tick. -/
theorem history_atOnce (waiting : x.Waiting) (strides : List Stride) (n : Nat) :
    ∃ takes rest,
      x.history (happenings (strides.map some ++ List.replicate n none)) = takes ++ rest ∧
        (∀ s ∈ takes, s.command?.isSome) ∧ ∀ s ∈ rest, s.command? = none := by
  have here : x.worker.phase ≠ .exited := by
    rw [waiting.ready]
    exact nofun
  have schedule : happenings (strides.map some ++ List.replicate n none) =
      happenings (strides.map some) ++ List.replicate n .moved := by
    simp [happenings, happening]
  obtain ⟨silent, sent⟩ := history_sends waiting.opened here strides
  rw [schedule, history_append, silent, sent, List.nil_append, waiting.queue, List.nil_append]
  refine history_drains n (fun _ => .inr (.paused waiting.ready waiting.paused)) ?_
  intro command member
  obtain ⟨stride, -, rfl⟩ := List.mem_map.mp member
  cases stride <;> exact nofun

end Schedule

/-- Where a debugged run is stepped forth and back and does not end or wait for input, the run does
the work of the strides it makes, with one executed instruction for each stride forth. These are the
strides it was asked for, without the steps that were taken too early. Sent one by one, all of them
are made in their order; sent all at once, the strides back are made first, and of the steps only
one is made. -/
theorem strides_made (x : Exchange) (schedule : Schedule)
    (enabled : x.worker.run.debugger.enabled = true) (waiting : x.Waiting)
    (goesOn : ∀ s ∈ x.history (happenings schedule), s.deed = .ticked →
      s.result = .ok .executed ∨ s.result = .ok .paused)
    (settled : (x.afterAll (happenings schedule)).Waiting) :
    let stages := x.history (happenings schedule)
    let asked := schedule.reduceOption
    let made := stages.filterMap Stage.made?
    let lost := stages.filterMap Stage.lost?
    (x.afterAll (happenings schedule)).worker.run.SameWork (x.worker.run.strideAll made) ∧
      (stages.countP fun s => s.Executes) = made.count .forth ∧
      (made ++ lost).Perm asked ∧
      (x.OneByOne schedule → made = asked) ∧
      (∀ n, schedule = asked.map some ++ List.replicate n none →
        made = asked.filter (· = .back) ++ if .forth ∈ asked then [.forth] else []) := by
  intro stages asked made lost
  have goes : x.worker.Goes stages (x.afterAll (happenings schedule)).worker :=
    x.goes_history (happenings schedule)
  have only : ∀ s ∈ stages, s.worker.Strides s.deed := strides_history waiting goesOn settled
  have stepwise : x.worker.Stepwise :=
    ⟨enabled, fun going => absurd (going.symm.trans waiting.paused) nofun⟩
  have all : stages.filterMap Stage.asked? = asked := asked_happenings waiting settled
  have first := Worker.due_of_paused waiting.paused
  have last := Worker.due_of_paused settled.paused
  refine ⟨(goes.kin only (.refl enabled)).work, (Stage.count_made stages).symm, ?_, ?_, ?_⟩
  · have balance := goes.balance stepwise only
    rwa [first, last, all, List.append_nil, List.nil_append] at balance
  · intro oneByOne
    have prompt := goes.prompt stepwise only (prompt_history (.inl waiting.queue) oneByOne)
    rwa [first, last, all, List.append_nil, List.nil_append] at prompt
  · intro n atOnce
    obtain ⟨takes, rest, split, every, none_taken⟩ := x.history_atOnce waiting asked n
    rw [← atOnce] at split
    change stages = takes ++ rest at split
    rw [split] at goes only
    have together := goes.made_atOnce stepwise only every none_taken first last
    rwa [← split, all] at together

/-- A loop started by a controller, paused at its first instruction. -/
def pausedExchange : Exchange :=
  ((Controller.new {} ⟨[], []⟩).opening Run.countingRun.program true).afterAll
    (List.replicate 3 .moved)

/-- Two steps, and the time that is needed until the worker waits again. -/
def twoStepsAtOnce : Schedule := [some .forth, some .forth] ++ List.replicate 7 none

def twoStepsOneByOne : Schedule :=
  some .forth :: (List.replicate 6 none ++ some .forth :: List.replicate 6 none)

/-- For states that are evaluated. -/
theorem waiting_of_eq {x : Exchange}
    (state : (x.worker.phase, x.worker.paused, x.queue, x.closed) = (.ready, true, [], false)) :
    x.Waiting := by
  simp only [Prod.mk.injEq] at state
  exact ⟨state.1, state.2.1, state.2.2.1, state.2.2.2⟩

theorem waiting_pausedExchange : pausedExchange.Waiting := waiting_of_eq (by cbv)

theorem strides_made_twoStepsAtOnce :
    pausedExchange.worker.run.debugger.enabled = true ∧ pausedExchange.Waiting ∧
      (∀ s ∈ pausedExchange.history (happenings twoStepsAtOnce), s.deed = .ticked →
        s.result = .ok .executed ∨ s.result = .ok .paused) ∧
      (pausedExchange.afterAll (happenings twoStepsAtOnce)).Waiting ∧
      (pausedExchange.history (happenings twoStepsAtOnce)).filterMap Stage.made? = [.forth] ∧
      (pausedExchange.afterAll (happenings twoStepsAtOnce)).worker.run.SameWork
        (pausedExchange.worker.run.strideAll [.forth]) := by
  have enabled : pausedExchange.worker.run.debugger.enabled = true := by cbv
  have outline : (pausedExchange.history (happenings twoStepsAtOnce)).map
      (fun s => (s.deed, s.result)) =
      [(.took .step, .ok .executed), (.took .step, .ok .executed), (.turned, .ok .executed),
        (.ticked, .ok .executed), (.turned, .ok .paused), (.ticked, .ok .paused),
        (.turned, .ok .executed)] := by cbv
  have goesOn : ∀ s ∈ pausedExchange.history (happenings twoStepsAtOnce), s.deed = .ticked →
      s.result = .ok .executed ∨ s.result = .ok .paused := by
    intro s member ticked
    have listed := List.mem_map_of_mem (f := fun s : Stage => (s.deed, s.result)) member
    rw [outline, ticked] at listed
    simpa using listed
  have settled : (pausedExchange.afterAll (happenings twoStepsAtOnce)).Waiting :=
    waiting_of_eq (by cbv)
  obtain ⟨work, -, -, -, atOnce⟩ :=
    strides_made pausedExchange twoStepsAtOnce enabled waiting_pausedExchange goesOn settled
  have made : (pausedExchange.history (happenings twoStepsAtOnce)).filterMap Stage.made? =
      [.forth] := atOnce 7 rfl
  rw [made] at work
  exact ⟨enabled, waiting_pausedExchange, goesOn, settled, made, work⟩

/-- Two steps execute one instruction if they are sent at once, and two if they are sent one by
one. -/
theorem strides_timed :
    twoStepsAtOnce.reduceOption = twoStepsOneByOne.reduceOption ∧ pausedExchange.Waiting ∧
      pausedExchange.OneByOne twoStepsOneByOne ∧
      (pausedExchange.afterAll (happenings twoStepsAtOnce)).Waiting ∧
      (pausedExchange.afterAll (happenings twoStepsOneByOne)).Waiting ∧
      (pausedExchange.afterAll (happenings twoStepsAtOnce)).worker.run.stats.total = 1 ∧
      (pausedExchange.afterAll (happenings twoStepsOneByOne)).worker.run.stats.total = 2 := by
  have oneByOne : pausedExchange.OneByOne twoStepsOneByOne :=
    ⟨waiting_pausedExchange, waiting_of_eq (by cbv), trivial⟩
  exact ⟨rfl, waiting_pausedExchange, oneByOne, waiting_of_eq (by cbv), waiting_of_eq (by cbv),
    by cbv, by cbv⟩

end MipsLab.Exchange
