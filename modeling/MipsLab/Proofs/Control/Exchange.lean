import MipsLab.Control.Controller

/-! Controlled runs as they go on. Commands are sent, the sending may end, and the worker moves, in
whatever order. What the worker does is kept in a history, each deed together with the worker that
did it. Facts about controlled runs are inductions over such histories, with one case for each of
the four deeds; of the queue it has to be known that it hands on the commands in their order. -/
namespace MipsLab

theorem filterMap_toList {α β : Type} (f : α → Option β) (a : α) (rest : List α) :
    (a :: rest).filterMap f = (f a).toList ++ rest.filterMap f := by
  cases found : f a <;> simp [found]

/-- What a move of the worker consists in. -/
inductive Deed where
  | took (command : WorkerCommand)
  /-- All commands that had come were taken. -/
  | turned
  | ticked
  /-- No command can come any more, and the run is stopped. -/
  | gaveUp
  deriving DecidableEq

/-- A deed, and the worker as it was before it. -/
structure Stage where
  worker : Worker
  deed : Deed

namespace Stage

@[simp]
def command? (s : Stage) : Option WorkerCommand :=
  match s.deed with
  | .took command => some command
  | _ => none

def result (s : Stage) : TickResult := s.worker.run.tick.1

/-- The tick is a pause. -/
def Pauses (s : Stage) : Prop := s.deed = .ticked ∧ s.result = .ok .paused

/-- An instruction is executed, and the run goes on. -/
def Executes (s : Stage) : Prop := s.deed = .ticked ∧ s.result = .ok .executed

end Stage

namespace Worker

def does (w : Worker) : Deed → Worker
  | .took command => w.take command
  | .turned => { w with phase := .ready }
  | .ticked => w.tick
  | .gaveUp => { w with run := w.run.stop, phase := .exited }

/-- The worker does nothing before the next command. -/
inductive Waits (w : Worker) : Prop
  | paused (ready : w.phase = .ready) (paused : w.paused = true)
  | awaiting (awaiting : w.phase = .awaiting)

/-- What the worker may do, depending on the commands that have come. -/
inductive May (w : Worker) : Deed → Prop
  | take (command : WorkerCommand) (listens : w.phase = .draining ∨ w.Waits) : May w (.took command)
  | turn (draining : w.phase = .draining) : May w .turned
  | tick (ready : w.phase = .ready) (going : w.paused = false) : May w .ticked
  | giveUp (waits : w.Waits) : May w .gaveUp

def deed? (w : Worker) (queue : List WorkerCommand) (closed : Bool) : Option Deed :=
  if w.phase = .exited then none
  else if w.phase = .ready ∧ w.paused = false then some .ticked
  else
    match queue with
    | command :: _ => some (.took command)
    | [] => if w.phase = .draining then some .turned else if closed then some .gaveUp else none

/-- The commands that a deed leaves. -/
def left (queue : List WorkerCommand) : Deed → List WorkerCommand
  | .took _ => queue.tail
  | _ => queue

theorem advance?_eq (w : Worker) (queue : List WorkerCommand) (closed : Bool) :
    w.advance? queue closed =
      (w.deed? queue closed).map fun deed => (w.does deed, left queue deed) := by
  obtain ⟨run, paused, phase, error⟩ := w
  cases phase <;> cases queue <;> cases paused <;> cases closed <;> rfl

theorem run_tick (w : Worker) : w.tick.run = w.run.tick.2 := by
  unfold tick
  split <;> simp_all

theorem listens_of_held {w : Worker} (here : w.phase ≠ .exited)
    (held : ¬(w.phase = .ready ∧ w.paused = false)) : w.phase = .draining ∨ w.Waits := by
  cases phase : w.phase with
  | draining => exact .inl rfl
  | exited => exact absurd phase here
  | awaiting => exact .inr (.awaiting phase)
  | ready =>
    cases paused : w.paused with
    | true => exact .inr (.paused phase paused)
    | false => exact absurd ⟨phase, paused⟩ held

theorem may_of_deed? {w : Worker} {queue : List WorkerCommand} {closed : Bool} {deed : Deed}
    (done : w.deed? queue closed = some deed) :
    w.May deed ∧ ∀ command, deed = .took command → queue = command :: queue.tail := by
  unfold deed? at done
  split at done
  · exact absurd done nofun
  · next here =>
    split at done
    · next free =>
      obtain rfl := Option.some.inj done
      exact ⟨.tick free.1 free.2, nofun⟩
    · next held =>
      have listens := listens_of_held here held
      split at done
      · next command rest =>
        obtain rfl := Option.some.inj done
        refine ⟨.take command listens, fun other same => ?_⟩
        rw [Deed.took.inj same, List.tail_cons]
      · split at done
        · next draining =>
          obtain rfl := Option.some.inj done
          exact ⟨.turn draining, nofun⟩
        · next busy =>
          split at done
          · obtain rfl := Option.some.inj done
            exact ⟨.giveUp (listens.resolve_left busy), nofun⟩
          · exact absurd done nofun

theorem May.here {w : Worker} {deed : Deed} (may : w.May deed) : w.phase ≠ .exited := by
  intro exited
  have idle (waits : w.Waits) : False := by
    obtain ⟨ready, -⟩ | awaiting := waits
    · exact absurd (exited.symm.trans ready) nofun
    · exact absurd (exited.symm.trans awaiting) nofun
  cases may with
  | take command listens =>
    obtain draining | waits := listens
    · exact absurd (exited.symm.trans draining) nofun
    · exact idle waits
  | turn draining => exact absurd (exited.symm.trans draining) nofun
  | tick ready going => exact absurd (exited.symm.trans ready) nofun
  | giveUp waits => exact idle waits

/-- By the deeds of a history a worker comes to be another. -/
inductive Goes : Worker → List Stage → Worker → Prop
  | rest (w : Worker) : Goes w [] w
  | move {w last : Worker} {deed : Deed} {stages : List Stage} (may : w.May deed)
      (later : Goes (w.does deed) stages last) : Goes w (⟨w, deed⟩ :: stages) last

namespace Goes

variable {w last : Worker} {stages : List Stage}

theorem append {before after : List Stage} (goes : w.Goes (before ++ after) last) :
    ∃ middle, w.Goes before middle ∧ middle.Goes after last := by
  induction before generalizing w with
  | nil => exact ⟨w, .rest w, goes⟩
  | cons b before ih =>
    cases goes with
    | move may later =>
      obtain ⟨middle, first, rest⟩ := ih later
      exact ⟨middle, .move may first, rest⟩

theorem split {before after : List Stage} {s : Stage}
    (goes : w.Goes (before ++ s :: after) last) :
    w.Goes before s.worker ∧ s.worker.May s.deed ∧ (s.worker.does s.deed).Goes after last := by
  obtain ⟨middle, first, rest⟩ := goes.append
  cases rest with
  | move may later => exact ⟨first, may, later⟩

/-- What every deed keeps holds throughout. -/
theorem keeps {P : Worker → Prop} (step : ∀ w deed, w.May deed → P w → P (w.does deed))
    (goes : w.Goes stages last) (start : P w) : P last := by
  induction goes with
  | rest w => exact start
  | move may later ih => exact ih (step _ _ may start)

theorem exited (goes : w.Goes stages last) (exited : w.phase = .exited) :
    stages = [] ∧ last = w := by
  cases goes with
  | rest => exact ⟨rfl, rfl⟩
  | move may later => exact absurd exited may.here

/-- As long as the worker is here, none of its deeds has ended the run. -/
theorem unended (goes : w.Goes stages last) (here : last.phase ≠ .exited) :
    ∀ s ∈ stages, (s.worker.does s.deed).phase ≠ .exited := by
  intro s member ended
  obtain ⟨before, after, rfl⟩ := List.append_of_mem member
  obtain ⟨-, -, behind⟩ := goes.split
  obtain ⟨-, rfl⟩ := behind.exited ended
  exact here ended

end Goes

end Worker

/-- A worker, the commands on their way to it, and whether no more of them can be sent. -/
structure Exchange where
  worker : Worker
  queue : List WorkerCommand
  closed : Bool

inductive Happening where
  | sent (command : WorkerCommand)
  | closed
  /-- The worker has the time to move. -/
  | moved
  deriving DecidableEq

namespace Exchange

/-- The command that comes to the worker, if one is sent and can still be taken. -/
def accepts (x : Exchange) : Happening → Option WorkerCommand
  | .sent command => if x.closed ∨ x.worker.phase = .exited then none else some command
  | _ => none

def deed? (x : Exchange) : Option Deed := x.worker.deed? x.queue x.closed

def after (x : Exchange) : Happening → Exchange
  | .sent command => { x with queue := x.queue ++ (x.accepts (.sent command)).toList }
  | .closed => { x with closed := true }
  | .moved =>
    match x.worker.advance? x.queue x.closed with
    | some (worker, queue) => { x with worker, queue }
    | none => x

def stage? (x : Exchange) : Happening → Option Stage
  | .moved => x.deed?.map fun deed => ⟨x.worker, deed⟩
  | _ => none

def afterAll (x : Exchange) (happenings : List Happening) : Exchange := happenings.foldl after x

/-- What the worker does, in order. -/
def history : Exchange → List Happening → List Stage
  | _, [] => []
  | x, h :: rest => (x.stage? h).toList ++ (x.after h).history rest

/-- The commands that come to the worker. -/
def accepted : Exchange → List Happening → List WorkerCommand
  | _, [] => []
  | x, h :: rest => (x.accepts h).toList ++ (x.after h).accepted rest

def moved (x : Exchange) (deed : Deed) : Exchange :=
  { x with worker := x.worker.does deed, queue := Worker.left x.queue deed }

section Moved

variable {x : Exchange}

theorem after_moved {deed : Deed} (done : x.deed? = some deed) : x.after .moved = x.moved deed := by
  rw [after, Worker.advance?_eq, show x.worker.deed? x.queue x.closed = some deed from done]
  rfl

theorem after_stuck (stuck : x.deed? = none) : x.after .moved = x := by
  rw [after, Worker.advance?_eq, show x.worker.deed? x.queue x.closed = none from stuck]
  rfl

theorem history_moved {deed : Deed} (done : x.deed? = some deed) (rest : List Happening) :
    x.history (.moved :: rest) = ⟨x.worker, deed⟩ :: (x.moved deed).history rest := by
  rw [history, after_moved done, stage?, done]
  rfl

theorem history_stuck (stuck : x.deed? = none) (rest : List Happening) :
    x.history (.moved :: rest) = x.history rest := by
  rw [history, after_stuck stuck, stage?, stuck]
  rfl

end Moved

theorem history_append (x : Exchange) (first second : List Happening) :
    x.history (first ++ second) = x.history first ++ (x.afterAll first).history second := by
  induction first generalizing x with
  | nil => rfl
  | cons h rest ih =>
    rw [List.cons_append, history, history, ih, List.append_assoc]
    rfl

theorem goes_history (x : Exchange) (happenings : List Happening) :
    x.worker.Goes (x.history happenings) (x.afterAll happenings).worker := by
  induction happenings generalizing x with
  | nil => exact .rest x.worker
  | cons h rest ih =>
    have later := ih (x.after h)
    cases h with
    | sent | closed => exact later
    | moved =>
      cases done : x.deed? with
      | none =>
        rw [after_stuck done] at later
        rw [history_stuck done, afterAll, List.foldl_cons, after_stuck done]
        exact later
      | some deed =>
        rw [after_moved done] at later
        rw [history_moved done, afterAll, List.foldl_cons, after_moved done]
        exact .move (Worker.may_of_deed? done).1 later

theorem afterAll_stuck {x : Exchange} (stuck : x.after .moved = x) (n : Nat) :
    x.afterAll (List.replicate n .moved) = x := by
  induction n with
  | zero => rfl
  | succ n ih =>
    rw [List.replicate_succ, afterAll, List.foldl_cons, stuck]
    exact ih

/-- The worker takes the commands in the order in which they come, and none of them twice. -/
theorem taken_append_queue (x : Exchange) (happenings : List Happening) :
    (x.history happenings).filterMap Stage.command? ++ (x.afterAll happenings).queue =
      x.queue ++ x.accepted happenings := by
  induction happenings generalizing x with
  | nil => exact (List.append_nil _).symm
  | cons h rest ih =>
    have later := ih (x.after h)
    cases h with
    | sent command => exact later.trans (List.append_assoc _ _ _)
    | closed => exact later
    | moved =>
      cases done : x.deed? with
      | none =>
        rw [after_stuck done] at later
        rw [history_stuck done, afterAll, List.foldl_cons, accepted, after_stuck done]
        exact later
      | some deed =>
        rw [after_moved done] at later
        rw [history_moved done, afterAll, List.foldl_cons, accepted, after_moved done]
        cases deed with
        | took command =>
          have first := (Worker.may_of_deed? done).2 command rfl
          rw [first]
          exact congrArg (List.cons command) later
        | turned | ticked | gaveUp => exact later

end Exchange

namespace Worker

/-- A worker that settles moves until it can move no more. -/
theorem exchange_settle (w : Worker) (fuel : Nat) (queue : List WorkerCommand) :
    (⟨(w.settle fuel queue).1, (w.settle fuel queue).2, false⟩ : Exchange) =
      (⟨w, queue, false⟩ : Exchange).afterAll (List.replicate fuel .moved) := by
  induction fuel generalizing w queue with
  | zero => rfl
  | succ fuel ih =>
    rw [List.replicate_succ, Exchange.afterAll, List.foldl_cons, settle]
    split
    · next next rest moved =>
      rw [Exchange.after, moved]
      exact ih next rest
    · next stuck =>
      have idle : (⟨w, queue, false⟩ : Exchange).after .moved = ⟨w, queue, false⟩ := by
        rw [Exchange.after, stuck]
      rw [idle]
      exact (Exchange.afterAll_stuck idle fuel).symm

end Worker

namespace ControlledRun

def exchange (a : ControlledRun) : Exchange := ⟨a.worker, a.queue, false⟩

end ControlledRun

namespace Controller

/-- A program put into the hands of a worker, which is to pause at its first instruction or to go
on to the first breakpoint. -/
def opening (c : Controller) (program : Program) (paused : Bool) : Exchange :=
  let fresh : Run := .start program c.settings c.tree
  let r := if paused then fresh else { fresh with debugger := fresh.debugger.resume .continue }
  ⟨.start (withBreakpoints r c.breakpoints), [], false⟩

theorem exchange_start (c : Controller) (fuel : Nat) (program : Program) :
    (c.start fuel program).active.map ControlledRun.exchange =
      some ((c.stop fuel).2.opening program false) := rfl

theorem exchange_startPaused (c : Controller) (fuel : Nat) (program : Program) :
    (c.startPaused fuel program).active.map ControlledRun.exchange =
      some ((c.stop fuel).2.opening program true) := rfl

theorem exchange_send {c : Controller} {a : ControlledRun} (installed : c.active = some a)
    (command : WorkerCommand) :
    (c.send command).1 = (a.exchange.accepts (.sent command)).isSome ∧
      (c.send command).2.active.map ControlledRun.exchange =
        some (a.exchange.after (.sent command)) := by
  unfold send
  rw [installed]
  dsimp only
  split
  · next exited =>
    simp [Exchange.after, Exchange.accepts, ControlledRun.exchange, exited, installed]
  · next here => simp [Exchange.after, Exchange.accepts, ControlledRun.exchange, here]

theorem exchange_settle {c : Controller} {a : ControlledRun} (installed : c.active = some a)
    (fuel : Nat) : (c.settle fuel).active.map ControlledRun.exchange =
      some (a.exchange.afterAll (List.replicate fuel .moved)) := by
  unfold settle
  rw [installed]
  exact congrArg some (Worker.exchange_settle a.worker fuel a.queue)

end Controller

end MipsLab
