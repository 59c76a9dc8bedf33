import MipsLab.Proofs.Machine.Control
import MipsLab.Proofs.Run.Transparent
import MipsLab.Run.Arguments

/-! What a run reports, whatever is done with it. Its reports only grow; the end is reported once
and is the last of them, a fault is followed by the end, and the console is what was printed. A run
ends in success only behind its text, by a service that exits, or when it is told to. -/
namespace MipsLab

open Exec

def Event.text? : Event → Option String
  | .console text => some text
  | _ => none

def Event.isEnd : Event → Bool
  | .ended _ => true
  | _ => false

def Event.isOngoing : Event → Bool
  | .error _ | .ended _ => false
  | _ => true

/-- The services that end a run. -/
def Service.exits : Service → Bool
  | .exit | .exitWith => true
  | _ => false

def Control.Stays (control : Control) : Prop := ∀ code, control ≠ .exit code

theorem Control.Moves.stays {control : Control} (moves : control.Moves) : control.Stays := by
  obtain rfl | ⟨address, rfl⟩ := moves <;> exact fun code => nofun

namespace Syscall

theorem stays_next : (pure .next : Exec Station Control).Returns Control.Stays :=
  returns_pure fun _ => nofun

theorem stays_answer (value : Word) : (answer value).Returns Control.Stays :=
  returns_bind fun _ => stays_next

theorem stays_printing (text : Except Fault String) : (printing text).Returns Control.Stays :=
  returns_bind fun _ => returns_bind fun _ => stays_next

theorem stays_reading (use : String → Exec Machine Unit) : (reading use).Returns Control.Stays := by
  refine returns_bind fun delivered => ?_
  cases delivered with
  | none => exact returns_pure fun _ => nofun
  | some text => exact returns_bind fun _ => stays_next

theorem stays_openFile : openFile.Returns Control.Stays :=
  returns_bind fun _ => returns_bind fun _ => returns_bind fun _ => stays_answer _

theorem stays_readFile : readFile.Returns Control.Stays := by
  refine returns_bind fun s => ?_
  dsimp only
  split
  · exact stays_answer _
  · split
    · exact stays_reading _
    · split
      · exact stays_answer _
      · exact returns_bind fun _ => returns_bind fun _ => stays_next

theorem stays_writeFile : writeFile.Returns Control.Stays := by
  refine returns_bind fun s => returns_bind fun data => ?_
  split
  · exact returns_bind fun _ => stays_answer _
  · split
    · exact returns_bind fun _ => stays_answer _
    · exact stays_answer _

theorem stays_serve {service : Service} (stays : service.exits = false) :
    (serve service).Returns Control.Stays := by
  refine returns_bind fun s => ?_
  cases service with
  | printInt | printFloat | printDouble | printString | printChar | dumpMemory | printHex
  | printBinary | printUnsigned => exact stays_printing _
  | readInt | readFloat | readDouble | readChar | readString => exact stays_reading _
  | extendHeap | closeFile => exact returns_bind fun _ => stays_next
  | exit | exitWith => exact absurd stays.symm Bool.false_ne_true
  | openFile => exact stays_openFile
  | readFile => exact stays_readFile
  | writeFile => exact stays_writeFile

end Syscall

namespace Run

/-- Only a system call exits, and only for a service that does. -/
theorem react_exit {pc : Word} {i : Instruction} {s t : Station} {code : Word}
    (ran : react pc i s = .ok (.exit code) t) : i = .syscall ∧ ∃ service,
      Service.ofCode? (s.machine.regs.read Register.v0) = some service ∧ service.exits = true := by
  by_cases call : i = .syscall
  · subst call
    have performed : Syscall.perform.Meets s (fun control _ => ¬ control.Stays → ∃ service,
        Service.ofCode? (s.machine.regs.read Register.v0) = some service ∧ service.exits = true)
        fun _ => True := by
      refine meets_bind (meets_get ?_)
      dsimp only
      split
      · next service found =>
        cases exits : service.exits with
        | true =>
          exact meets_always fun _ _ _ => ⟨service, found, exits⟩
        | false =>
          refine Meets.mono (Syscall.stays_serve exits s) (fun _ _ stays goes => ?_) ?_
          · exact absurd stays goes
          · exact fun _ _ => trivial
      · exact meets_throw trivial
    exact ⟨rfl, performed.of_ok ran fun stays => stays code rfl⟩
  · have moves : (react pc i).Meets s (fun control _ => control.Moves) fun _ => True := by
      rw [react_work call]
      exact Station.meets_onMachine (Machine.moves_execute pc i s.machine)
    exact absurd rfl ((moves.of_ok ran).stays code)

end Run

/-- What is seen of a run from outside; its reports come newest first. -/
structure Log where
  ended : Bool
  console : String
  events : List Event

/-- What may become of the log `l` of a run. It grows while the run has not ended, and ends in
success only if that is `earned`. -/
inductive Log.Grows (earned : Prop) (l : Log) : Log → Prop
  | refl : Grows earned l l
  | report {k : Log} (before : Grows earned l k) (running : k.ended = false) (e : Event)
      (ongoing : e.isOngoing = true) :
      Grows earned l { k with console := k.console ++ e.text?.getD "", events := e :: k.events }
  | finish {k : Log} (before : Grows earned l k) (running : k.ended = false) (success : Bool)
      (deserved : success = true → earned) :
      Grows earned l { k with ended := true, events := .ended success :: k.events }
  | fail {k : Log} (before : Grows earned l k) (running : k.ended = false) (e : RunError) :
      Grows earned l { k with ended := true, events := .ended false :: .error e :: k.events }

/-- A log in order: while the run goes on, nothing but its going on was reported; afterwards its
end, or its fault and its end, stand before everything else. -/
structure Log.Orderly (l : Log) : Prop where
  console : l.console = String.join (l.events.reverse.filterMap Event.text?)
  running : l.ended = false → ∀ e ∈ l.events, e.isOngoing = true
  closed : l.ended = true → ∃ earlier : List Event, (∀ e ∈ earlier, e.isOngoing = true) ∧
    ((∃ success, l.events = .ended success :: earlier) ∨
      ∃ e, l.events = .ended false :: .error e :: earlier)

namespace Log

variable {earned : Prop} {l k : Log}

theorem Grows.trans {j : Log} (first : l.Grows earned k) (second : k.Grows earned j) :
    l.Grows earned j := by
  induction second with
  | refl => exact first
  | report _ running e ongoing ih => exact ih.report running e ongoing
  | finish _ running success deserved ih => exact ih.finish running success deserved
  | fail _ running e ih => exact ih.fail running e

theorem Grows.mono {easier : Prop} (grows : l.Grows earned k) (weaker : earned → easier) :
    l.Grows easier k := by
  induction grows with
  | refl => exact .refl
  | report _ running e ongoing ih => exact ih.report running e ongoing
  | finish _ running success deserved ih =>
    exact ih.finish running success fun well => weaker (deserved well)
  | fail _ running e ih => exact ih.fail running e

theorem Grows.suffix (grows : l.Grows earned k) : l.events <:+ k.events := by
  induction grows with
  | refl => exact List.suffix_refl _
  | report _ _ _ _ ih | finish _ _ _ _ ih => exact ih.trans (List.suffix_cons _ _)
  | fail _ _ _ ih => exact ih.trans ((List.suffix_cons _ _).trans (List.suffix_cons _ _))

/-- A success that is reported was reported before or is earned. -/
theorem Grows.success (grows : l.Grows earned k) (success : .ended true ∈ k.events) :
    .ended true ∈ l.events ∨ earned := by
  induction grows with
  | refl => exact .inl success
  | report _ _ e ongoing ih =>
    rcases List.mem_cons.mp success with rfl | earlier
    · exact absurd ongoing Bool.false_ne_true
    · exact ih earlier
  | finish _ _ well deserved ih =>
    rcases List.mem_cons.mp success with same | earlier
    · obtain rfl := Event.ended.inj same
      exact .inr (deserved rfl)
    · exact ih earlier
  | fail _ _ _ ih => exact ih (by simpa using success)

theorem join_texts (e : Event) (events : List Event) :
    String.join ((e :: events).reverse.filterMap Event.text?) =
      String.join (events.reverse.filterMap Event.text?) ++ e.text?.getD "" := by
  rw [List.reverse_cons, List.filterMap_append, String.join_append]
  cases e <;> simp [Event.text?, String.join, List.filterMap_cons]

theorem Grows.orderly (grows : l.Grows earned k) (start : l.Orderly) : k.Orderly := by
  induction grows with
  | refl => exact start
  | report _ running e ongoing ih =>
    refine ⟨?_, fun _ x member => ?_, fun ended => absurd (ended.symm.trans running) nofun⟩
    · rw [join_texts, ih.console]
    · rcases List.mem_cons.mp member with rfl | earlier
      · exact ongoing
      · exact ih.running running x earlier
  | @finish k _ running success _ ih =>
    refine ⟨?_, nofun, fun _ => ⟨k.events, ih.running running, .inl ⟨success, rfl⟩⟩⟩
    rw [join_texts, ← ih.console]
    exact String.append_empty.symm
  | @fail k _ running e ih =>
    refine ⟨?_, nofun, fun _ => ⟨k.events, ih.running running, .inr ⟨e, rfl⟩⟩⟩
    rw [join_texts, join_texts, ← ih.console]
    simp [Event.text?]

end Log

namespace Run

def log (r : Run) : Log := ⟨r.ended, r.console, r.events⟩

/-- A tick that is to end the run in success: the program counter stands behind the text, or the
instruction is a system call for a service that exits. -/
inductive EndsWell (r : Run) : Prop
  | pastEnd (running : r.ended = false) (past : r.program.isPastEnd r.pc = true)
  | exits (running : r.ended = false) (entry : TextEntry) (found : r.next? = some entry)
      (call : entry.instr = .syscall) (service : Service)
      (asked : Service.ofCode? (r.machine.regs.read Register.v0) = some service)
      (exits : service.exits = true)

section Grow

variable {earned : Prop} {r : Run} {l : Log}

theorem grows_emit (before : l.Grows earned r.log) (running : r.ended = false) {e : Event}
    (ongoing : e.isOngoing = true) (silent : e.text? = none) : l.Grows earned (r.emit e).log := by
  have told := before.report running e ongoing
  rw [silent, Option.getD_none, String.append_empty] at told
  exact told

theorem grows_finish (before : l.Grows earned r.log) {success : Bool}
    (deserved : r.ended = false → success = true → earned) :
    l.Grows earned (r.finish success).log := by
  cases running : r.ended with
  | false =>
    rw [finish_running r running]
    exact before.finish running success (deserved running)
  | true =>
    rw [finish, if_pos running]
    exact before

theorem grows_fail (before : l.Grows earned r.log) (running : r.ended = false) (pc : Word)
    (fault : Fault) : l.Grows earned (r.fail pc fault).2.log := by
  have failed := before.fail running ⟨pc, (r.program.entryAt? pc).map (·.tag), fault⟩
  rw [fail, finish_running _ (by exact running)]
  exact failed

theorem grows_absorb (before : l.Grows earned r.log) (running : r.ended = false) (s : Station) :
    l.Grows earned (r.absorb s).log ∧ (r.absorb s).ended = false := by
  have printed (texts : List String) : l.Grows earned (texts.foldl print r).log ∧
      (texts.foldl print r).ended = false := by
    induction texts generalizing r with
    | nil => exact ⟨before, running⟩
    | cons text rest ih => exact ih (before.report running (.console text) rfl) running
  exact printed s.printed

theorem grows_follow (before : l.Grows earned r.log) (running : r.ended = false) {pc : Word}
    {control : Control} (deserved : ∀ code, control = .exit code → earned) :
    l.Grows earned (r.follow pc control).2.log := by
  cases control with
  | exit code => exact grows_finish before fun _ _ => deserved code rfl
  | jump address => exact grows_emit before running rfl rfl
  | next | await => exact grows_emit before running rfl rfl

theorem grows_executeEntry (running : r.ended = false) {entry : TextEntry}
    (found : r.next? = some entry) :
    r.log.Grows r.EndsWell (r.executeEntry r.pc entry).2.log := by
  unfold executeEntry
  split
  · exact grows_fail .refl running r.pc _
  · split
    · next f s _ =>
      obtain ⟨grown, still⟩ :
          r.log.Grows r.EndsWell (r.absorb s).log ∧ (r.absorb s).ended = false :=
        grows_absorb .refl running s
      exact grows_fail grown still r.pc f
    · next s _ => exact (grows_absorb .refl running s).1
    · next control s _ ran =>
      obtain ⟨grown, still⟩ :
          r.log.Grows r.EndsWell (r.absorb s).log ∧ (r.absorb s).ended = false :=
        grows_absorb .refl running s
      refine grows_follow (r := (r.absorb s).complete entry.instr _) grown still ?_
      intro code exits
      subst exits
      obtain ⟨call, service, asked, exits⟩ := react_exit ran
      exact .exits running entry found call service asked exits

/-- A tick reports in order, and reports a success only where the run ends well. -/
theorem grows_tick (r : Run) : r.log.Grows r.EndsWell r.tick.2.log := by
  cases running : r.ended with
  | true =>
    rw [tick_ended running]
    exact .refl
  | false =>
    cases past : r.program.isPastEnd r.pc with
    | true =>
      rw [tick_pastEnd running past]
      exact grows_finish .refl fun _ _ => .pastEnd running past
    | false =>
      cases fetched : r.entry? with
      | none =>
        rw [tick_astray running past fetched]
        exact grows_fail .refl running r.pc _
      | some entry =>
        have found : r.next? = some entry := by simp [next?, past, fetched]
        cases pauses : r.pausesAt entry with
        | true =>
          rw [tick_pausing running found pauses]
          exact grows_emit .refl running rfl rfl
        | false =>
          rw [tick_passing running found pauses, passEntry]
          split
          · exact grows_fail .refl running r.pc _
          · exact grows_executeEntry running found

theorem grows_stepBack (r : Run) : r.log.Grows earned r.stepBack.2.log := by
  unfold stepBack
  split
  · exact .refl
  · next running =>
    rw [Bool.not_eq_true] at running
    split
    · exact grows_emit .refl running rfl rfl
    · dsimp only
      split <;> exact grows_emit (r := { r with .. }) .refl running rfl rfl

end Grow

/-- What may be asked of a run from outside: moves, lines at the prompt, and its end. -/
inductive Operation where
  | act (a : Act)
  | stepBack
  | stop
  | finish (success : Bool)
  deriving DecidableEq

def operate (r : Run) : Operation → Run
  | .act a => r.act a
  | .stepBack => r.stepBack.2
  | .stop => r.stop
  | .finish success => r.finish success

def operateAll (r : Run) (operations : List Operation) : Run := operations.foldl operate r

/-- The states in which `run` ticks. -/
def tickedByRun : (fuel : Nat) → Run → List Run
  | 0, _ => []
  | fuel + 1, r => r :: if r.tick.1 = .ok .executed then r.tick.2.tickedByRun fuel else []

def tickedBy (r : Run) : Operation → List Run
  | .act (.move .tick) => [r]
  | .act (.move .step) => [{ r with skipCheck := true }]
  | .act (.move (.run fuel)) => r.tickedByRun fuel
  | _ => []

/-- What a success is owed to: it is asked for, or a tick ends the run well. -/
def Earned (r : Run) (operation : Operation) : Prop :=
  operation = .finish true ∨ ∃ s ∈ r.tickedBy operation, s.EndsWell

theorem grows_run (fuel : Nat) (r : Run) :
    r.log.Grows (∃ s ∈ r.tickedByRun fuel, s.EndsWell) (r.run fuel).2.log := by
  induction fuel generalizing r with
  | zero => exact .refl
  | succ fuel ih =>
    have first : r.log.Grows (∃ s ∈ r.tickedByRun (fuel + 1), s.EndsWell) r.tick.2.log :=
      r.grows_tick.mono fun well => ⟨r, List.mem_cons_self, well⟩
    by_cases going : r.tick.1 = .ok .executed
    · rw [run_going going]
      refine first.trans ((ih r.tick.2).mono ?_)
      rintro ⟨s, member, well⟩
      refine ⟨s, ?_, well⟩
      rw [tickedByRun, if_pos going]
      exact List.mem_cons_of_mem r member
    · rw [run_stopped going]
      exact first

theorem grows_obeyLine (r : Run) (text : String) :
    r.log.Grows earned (r.obeyLine text).2.log := by
  unfold obeyLine
  cases PromptCommand.ofLine? text with
  | none => exact .refl
  | some command =>
    cases command with
    | quit => exact grows_finish .refl fun _ => nofun
    | reverse => exact r.grows_stepBack
    | _ => exact .refl

theorem grows_operate (r : Run) (operation : Operation) :
    r.log.Grows (r.Earned operation) (r.operate operation).log := by
  cases operation with
  | stepBack => exact r.grows_stepBack
  | stop => exact grows_finish .refl fun _ => nofun
  | finish success =>
    refine grows_finish .refl fun _ well => ?_
    subst well
    exact .inl rfl
  | act a =>
    cases a with
    | line text => exact r.grows_obeyLine text
    | move m =>
      cases m with
      | tick => exact r.grows_tick.mono fun well => .inr ⟨r, List.mem_singleton_self r, well⟩
      | step =>
        have stepped := grows_tick { r with skipCheck := true }
        exact stepped.mono fun well => .inr ⟨_, List.mem_singleton_self _, well⟩
      | run fuel => exact (r.grows_run fuel).mono .inr
      | _ => exact .refl

def reports (r : Run) : List Event := r.events.reverse

/-- How a run reports: the end at most once and behind everything else, a fault directly before an
end that is no success, and every text that was printed. -/
structure ReportsInOrder (r : Run) : Prop where
  once : r.reports.countP Event.isEnd ≤ 1
  last : ∀ before success after, r.reports = before ++ .ended success :: after → after = []
  faults : ∀ before e after, r.reports = before ++ .error e :: after → after = [.ended false]
  ended : r.ended = true ↔ ∃ success, .ended success ∈ r.reports
  console : r.console = String.join (r.reports.filterMap Event.text?)

/-- The reports of a run that has come to its end, or has not, as `closing` tells. -/
inductive Closes (ended : Bool) : (closing : List Event) → Prop
  | running (still : ended = false) : Closes ended []
  | ended (closed : ended = true) (success : Bool) : Closes ended [.ended success]
  | failed (closed : ended = true) (e : RunError) : Closes ended [.error e, .ended false]

section Closes

variable {ended : Bool} {closing between after : List Event}

theorem Closes.last (closes : Closes ended closing) {success : Bool}
    (same : closing = between ++ .ended success :: after) : after = [] := by
  cases closes <;> rcases between with _ | ⟨x, _ | ⟨y, rest⟩⟩ <;> simp_all

theorem Closes.fault (closes : Closes ended closing) {e : RunError}
    (same : closing = between ++ .error e :: after) : after = [.ended false] := by
  cases closes <;> rcases between with _ | ⟨x, _ | ⟨y, rest⟩⟩ <;> simp_all

end Closes

theorem orderly_shape {r : Run} (orderly : r.log.Orderly) : ∃ ongoing closing,
    r.reports = ongoing ++ closing ∧ (∀ e ∈ ongoing, e.isOngoing = true) ∧
      Closes r.ended closing := by
  have reversed {events : List Event} (ongoing : ∀ e ∈ events, e.isOngoing = true) :
      ∀ e ∈ events.reverse, e.isOngoing = true := fun e member =>
    ongoing e (List.mem_reverse.mp member)
  cases state : r.ended with
  | false =>
    exact ⟨r.reports, [], (List.append_nil _).symm, reversed (orderly.running state), .running rfl⟩
  | true =>
    obtain ⟨earlier, ongoing, ⟨success, closed⟩ | ⟨e, closed⟩⟩ := orderly.closed state
    · refine ⟨earlier.reverse, [.ended success], ?_, reversed ongoing, .ended rfl success⟩
      exact (congrArg List.reverse closed).trans List.reverse_cons
    · refine ⟨earlier.reverse, [.error e, .ended false], ?_, reversed ongoing, .failed rfl e⟩
      refine (congrArg List.reverse closed).trans ?_
      simp

/-- A report that is none of the going on is one of those that close. -/
theorem closing_split {ongoing closing before after : List Event} {e : Event}
    (all : ∀ e ∈ ongoing, e.isOngoing = true) (closes : e.isOngoing = false)
    (split : ongoing ++ closing = before ++ e :: after) :
    ∃ between, closing = between ++ e :: after := by
  obtain ⟨between, rfl, same⟩ | ⟨between, rfl, same⟩ := List.append_eq_append_iff.mp split
  · exact ⟨between, same⟩
  · cases between with
    | nil => exact ⟨[], same.symm⟩
    | cons x rest =>
      obtain ⟨rfl, -⟩ := List.cons.inj same
      have ongoing := all e (List.mem_append_right before List.mem_cons_self)
      exact absurd (closes.symm.trans ongoing) Bool.false_ne_true

theorem reportsInOrder {r : Run} (orderly : r.log.Orderly) : r.ReportsInOrder := by
  obtain ⟨ongoing, closing, reports, all, closes⟩ := orderly_shape orderly
  have none_ends : ongoing.countP Event.isEnd = 0 := by
    rw [List.countP_eq_zero]
    intro e member
    have going := all e member
    cases e <;> simp_all [Event.isEnd, Event.isOngoing]
  constructor
  · rw [reports, List.countP_append, none_ends]
    cases closes <;> simp [Event.isEnd]
  · intro before success after split
    obtain ⟨between, same⟩ := closing_split all rfl (reports.symm.trans split)
    exact closes.last same
  · intro before e after split
    obtain ⟨between, same⟩ := closing_split all rfl (reports.symm.trans split)
    exact closes.fault same
  · constructor
    · intro closed
      cases closes with
      | running still => exact absurd (still.symm.trans closed) Bool.false_ne_true
      | ended _ success => exact ⟨success, by simp [reports]⟩
      | failed _ e => exact ⟨false, by simp [reports]⟩
    · rintro ⟨success, member⟩
      obtain ⟨before, after, split⟩ := List.append_of_mem member
      obtain ⟨between, same⟩ := closing_split all rfl (reports.symm.trans split)
      cases closes with
      | running => simp at same
      | ended closed _ | failed closed _ => exact closed
  · exact orderly.console

def launch (program : Program) (settings : Settings) (tree : FileTree) (args : List String) : Run :=
  (start program settings tree).setArguments args

theorem orderly_operateAll {r : Run} (start : r.log.Orderly) (operations : List Operation) :
    (r.operateAll operations).log.Orderly := by
  induction operations generalizing r with
  | nil => exact start
  | cons operation rest ih => exact ih ((r.grows_operate operation).orderly start)

theorem orderly_launch (program : Program) (settings : Settings) (tree : FileTree)
    (args : List String) : (launch program settings tree args).log.Orderly := by
  have fresh : (launch program settings tree args).log = ⟨false, "", []⟩ := by
    unfold launch setArguments
    split <;> rfl
  rw [fresh]
  exact ⟨rfl, fun _ => nofun, nofun⟩

/-- Whatever is done with a run, and after its end as well, it reports in order. What it has
reported stays as it is, and a success is added only where it is earned: by an explicit end, or by a
tick behind the text or of a system call that exits. A `run` that would never stop is covered by
its beginnings. -/
theorem operateAll_reports (program : Program) (settings : Settings) (tree : FileTree)
    (args : List String) (operations : List Operation) :
    ((launch program settings tree args).operateAll operations).ReportsInOrder ∧
    ∀ next : Operation,
      let r := (launch program settings tree args).operateAll operations
      r.reports <+: (r.operate next).reports ∧
        (.ended true ∈ (r.operate next).reports → .ended true ∈ r.reports ∨ r.Earned next) := by
  have orderly := orderly_operateAll (orderly_launch program settings tree args) operations
  refine ⟨reportsInOrder orderly, fun next => ⟨?_, ?_⟩⟩
  · exact List.reverse_prefix.mpr (grows_operate _ next).suffix
  · intro success
    rw [reports, List.mem_reverse] at success ⊢
    exact (grows_operate _ next).success success

end Run

end MipsLab
