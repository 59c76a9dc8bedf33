import MipsLab.Proofs.Control.Exchange
import MipsLab.Proofs.Run.Input

/-! Delivered texts on their way to the services that read them. A run keeps one text at a time, so
that a text which comes before the last one was read takes its place. No text is read twice, none is
made up, their order is kept, and nothing else is lost. -/
namespace MipsLab

open scoped List

@[simp]
def WorkerCommand.text? : WorkerCommand → Option String
  | .input text => some text
  | _ => none

/-- The text that waits to be read. -/
def Worker.pending (w : Worker) : List String := w.run.channels.input.toList

namespace Stage

/-- The text that is delivered to the run. -/
@[simp]
def delivered? (s : Stage) : Option String := s.command?.bind WorkerCommand.text?

/-- The text that a service reads. -/
@[simp]
def consumed? (s : Stage) : Option String :=
  if s.deed = .ticked ∧ s.worker.run.reads then s.worker.run.channels.input else none

/-- A text is delivered before the last one was read. -/
@[simp]
def overwrites (s : Stage) : Bool :=
  s.delivered?.isSome && s.worker.run.channels.input.isSome

/-- What has waited, and is not overwritten. -/
def kept (s : Stage) : List String := if s.overwrites then [] else s.worker.pending

theorem kept_suffix (s : Stage) : s.kept <:+ s.worker.pending := by
  unfold kept
  split
  · exact List.nil_suffix
  · exact List.suffix_rfl

theorem length_kept (s : Stage) :
    s.kept.length + (if s.overwrites then 1 else 0) = s.worker.pending.length := by
  unfold kept
  split
  · next overwrites =>
    have waiting := (Bool.and_eq_true_iff.mp overwrites).2
    obtain ⟨text, found⟩ := Option.isSome_iff_exists.mp waiting
    rw [Worker.pending, found]
    rfl
  · rfl

end Stage

namespace Worker

/-- Every text that waits or is delivered is read or waits afterwards, if it is not overwritten. -/
theorem conveys (w : Worker) (deed : Deed) :
    let s : Stage := ⟨w, deed⟩
    s.consumed?.toList ++ (w.does deed).pending = s.kept ++ s.delivered?.toList := by
  cases deed with
  | took command =>
    cases command with
    | input text =>
      cases waiting : w.run.channels.input <;>
        simp [Stage.kept, pending, does, take, Run.setInput, waiting]
    | resume | pause | step => exact (List.append_nil w.pending).symm
    | reverse =>
      have kept : (w.does (.took .reverse)).pending = w.pending := by
        obtain ⟨machine, undo, stats, events, back⟩ := w.run.stepBack_eq
        rw [pending, does, take, back]
        rfl
      exact kept.trans (List.append_nil w.pending).symm
    | stop =>
      have kept : (w.does (.took .stop)).pending = w.pending :=
        congrArg Option.toList (w.run.input_finish false)
      exact kept.trans (List.append_nil w.pending).symm
  | turned => exact (List.append_nil w.pending).symm
  | ticked =>
    have after : (w.does .ticked).pending = if w.run.reads then [] else w.pending := by
      rw [pending, does, run_tick, Run.input_tick]
      split <;> rfl
    rw [after]
    cases reads : w.run.reads <;> simp [Stage.kept, pending, reads]
  | gaveUp =>
    have kept : (w.does .gaveUp).pending = w.pending :=
      congrArg Option.toList (w.run.input_finish false)
    exact kept.trans (List.append_nil w.pending).symm

namespace Goes

variable {w last : Worker} {stages : List Stage}

/-- What is read and what waits at last comes from what waited and was delivered, in its order. -/
theorem conveyed (goes : w.Goes stages last) :
    stages.filterMap Stage.consumed? ++ last.pending <+
      w.pending ++ stages.filterMap Stage.delivered? := by
  induction goes with
  | rest w =>
    rw [List.filterMap_nil, List.filterMap_nil, List.append_nil]
    exact .refl w.pending
  | @move w last deed stages may later ih =>
    let s : Stage := ⟨w, deed⟩
    rw [filterMap_toList, filterMap_toList]
    calc s.consumed?.toList ++ stages.filterMap Stage.consumed? ++ last.pending
      _ = s.consumed?.toList ++ (stages.filterMap Stage.consumed? ++ last.pending) :=
        List.append_assoc _ _ _
      _ <+ s.consumed?.toList ++ ((w.does deed).pending ++ stages.filterMap Stage.delivered?) :=
        (List.Sublist.refl _).append ih
      _ = s.kept ++ (s.delivered?.toList ++ stages.filterMap Stage.delivered?) := by
        rw [← List.append_assoc, w.conveys deed, List.append_assoc]
      _ <+ w.pending ++ (s.delivered?.toList ++ stages.filterMap Stage.delivered?) :=
        s.kept_suffix.sublist.append (.refl _)

/-- Whatever is not read in the end and does not wait was overwritten. -/
theorem accounted (goes : w.Goes stages last) :
    (stages.filterMap Stage.consumed?).length + last.pending.length +
        stages.countP Stage.overwrites =
      w.pending.length + (stages.filterMap Stage.delivered?).length := by
  induction goes with
  | rest w => exact Nat.zero_add _
  | @move w last deed stages may later ih =>
    have here := congrArg List.length (w.conveys deed)
    have waiting : _ = w.pending.length := Stage.length_kept ⟨w, deed⟩
    rw [List.length_append, List.length_append] at here
    rw [filterMap_toList, filterMap_toList, List.countP_cons, List.length_append,
      List.length_append]
    omega

theorem complete_iff (goes : w.Goes stages last) :
    stages.filterMap Stage.consumed? ++ last.pending =
        w.pending ++ stages.filterMap Stage.delivered? ↔
      ∀ s ∈ stages, s.overwrites = false := by
  have account := goes.accounted
  rw [← List.length_append, ← List.length_append] at account
  have unspoiled : stages.countP Stage.overwrites = 0 ↔ ∀ s ∈ stages, s.overwrites = false := by
    simp [List.countP_eq_zero]
  rw [← unspoiled]
  constructor
  · intro complete
    rw [complete] at account
    omega
  · intro none_lost
    exact goes.conveyed.eq_of_length (by omega)

/-- What waits was delivered last. -/
theorem newest (goes : w.Goes stages last) :
    last.pending <:+ w.pending ++ stages.filterMap Stage.delivered? := by
  induction goes with
  | rest w => rw [List.filterMap_nil, List.append_nil]
  | @move w last deed stages may later ih =>
    let s : Stage := ⟨w, deed⟩
    have here : (w.does deed).pending <:+ s.kept ++ s.delivered?.toList := by
      rw [← w.conveys deed]
      exact List.suffix_append _ _
    have before : s.kept ++ s.delivered?.toList <:+ w.pending ++ s.delivered?.toList :=
      List.suffix_append_self_iff.mpr s.kept_suffix
    rw [filterMap_toList, ← List.append_assoc]
    exact ih.trans (List.suffix_append_self_iff.mpr (here.trans before))

end Goes

end Worker

namespace Exchange

theorem pending_opening (c : Controller) (program : Program) (paused : Bool) :
    (c.opening program paused).worker.pending = [] := by cases paused <;> rfl

/-- Under every order of commands and moves of the worker, the services read texts that were sent,
each at most once and in the order of sending, and always the one that was delivered last. Of those
that were delivered they miss, besides one that may wait to be read, just those that were
overwritten; where none was, they have read the first of what was sent. -/
theorem opening_delivers (c : Controller) (program : Program) (paused : Bool)
    (happenings : List Happening) :
    let x := c.opening program paused
    let stages := x.history happenings
    let last := x.afterAll happenings
    let sent := (x.accepted happenings).filterMap WorkerCommand.text?
    let delivered := stages.filterMap Stage.delivered?
    let consumed := stages.filterMap Stage.consumed?
    delivered ++ last.queue.filterMap WorkerCommand.text? = sent ∧
    consumed ++ last.worker.pending <+ delivered ∧
    consumed.length + last.worker.pending.length + stages.countP Stage.overwrites =
      delivered.length ∧
    (consumed ++ last.worker.pending = delivered ↔ ∀ s ∈ stages, s.overwrites = false) ∧
    ((∀ s ∈ stages, s.overwrites = false) → consumed <+: sent) ∧
    (∀ before s after text, stages = before ++ s :: after → s.consumed? = some text →
      (before.filterMap Stage.delivered?).getLast? = some text) := by
  intro x stages last sent delivered consumed
  have goes : x.worker.Goes stages last.worker := goes_history x happenings
  have empty : x.worker.pending = [] := pending_opening c program paused
  have fifo : delivered ++ last.queue.filterMap WorkerCommand.text? = sent := by
    have taken := congrArg (List.filterMap WorkerCommand.text?) (x.taken_append_queue happenings)
    rw [List.filterMap_append, List.filterMap_filterMap] at taken
    exact taken
  have conveyed := goes.conveyed
  have account := goes.accounted
  have complete := goes.complete_iff
  rw [empty, List.nil_append] at conveyed complete
  rw [empty, List.length_nil, Nat.zero_add] at account
  refine ⟨fifo, conveyed, account, complete, ?_, ?_⟩
  · intro unspoiled
    have all : consumed ++ last.worker.pending = delivered := complete.mpr unspoiled
    rw [← fifo, ← all, List.append_assoc]
    exact List.prefix_append _ _
  · intro before s after text split read
    rw [split] at goes
    obtain ⟨first, -, -⟩ := goes.split
    have waiting : s.worker.pending = [text] := by
      unfold Stage.consumed? at read
      split at read
      · rw [Worker.pending, read]
        rfl
      · exact absurd read nofun
    have newest := first.newest
    rw [empty, List.nil_append, waiting] at newest
    obtain ⟨earlier, split⟩ := newest
    rw [← split, List.getLast?_concat]

def readingExchange : Exchange := (Controller.new {} ⟨[], []⟩).opening Run.readingLoop false

/-- Two characters are sent before a service reads one. -/
def hurriedInputs : List Happening :=
  [.sent (.input "a"), .sent (.input "b")] ++ List.replicate 7 .moved

/-- The first of two characters that come in a hurry is never read. -/
theorem delivers_hurriedInputs :
    let sent := (readingExchange.accepted hurriedInputs).filterMap WorkerCommand.text?
    let consumed := (readingExchange.history hurriedInputs).filterMap Stage.consumed?
    sent = ["a", "b"] ∧ consumed = ["b"] ∧ ¬ consumed <+: sent := by
  have sent : (readingExchange.accepted hurriedInputs).filterMap WorkerCommand.text? =
      ["a", "b"] := by cbv
  have consumed : (readingExchange.history hurriedInputs).filterMap Stage.consumed? = ["b"] := by
    cbv
  rw [sent, consumed]
  exact ⟨rfl, rfl, by decide⟩

end Exchange

end MipsLab
