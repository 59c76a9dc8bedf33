import MipsLab.Debug.Prompt
import MipsLab.Proofs.Run.Reversal

/-! Debugging is transparent. The debugger decides before which instructions a run pauses, but not
what an instruction does or whether it can be executed. A tick that does not pause is the same
under all debuggers, and by induction a debugged run executes what a plain run executes that is
given the same inputs at the same places. -/
namespace MipsLab.Run

/-- Two runs that differ at most in their debuggers and in what they have reported. -/
structure SameWork (a b : Run) : Prop where
  program : a.program = b.program
  machine : a.machine = b.machine
  channels : a.channels = b.channels
  stats : a.stats = b.stats
  limit : a.limit = b.limit
  console : a.console = b.console
  ended : a.ended = b.ended

/-- Two outcomes of a tick with the same result, in runs that differ at most so. -/
structure Coincide (x y : TickResult × Run) : Prop where
  result : x.1 = y.1
  work : x.2.SameWork y.2

namespace SameWork

variable {a b c : Run}

theorem refl (r : Run) : r.SameWork r := ⟨rfl, rfl, rfl, rfl, rfl, rfl, rfl⟩

theorem symm (same : a.SameWork b) : b.SameWork a :=
  ⟨same.program.symm, same.machine.symm, same.channels.symm, same.stats.symm, same.limit.symm,
    same.console.symm, same.ended.symm⟩

theorem trans (first : a.SameWork b) (second : b.SameWork c) : a.SameWork c :=
  ⟨first.program.trans second.program, first.machine.trans second.machine,
    first.channels.trans second.channels, first.stats.trans second.stats,
    first.limit.trans second.limit, first.console.trans second.console,
    first.ended.trans second.ended⟩

theorem pc (same : a.SameWork b) : a.pc = b.pc := by
  unfold Run.pc
  rw [same.machine]

theorem entry? (same : a.SameWork b) : a.entry? = b.entry? := by
  unfold Run.entry?
  rw [same.program, same.pc]

theorem station (same : a.SameWork b) : a.station = b.station := by
  unfold Run.station
  rw [same.machine, same.channels]

theorem reachedLimit? (same : a.SameWork b) : a.reachedLimit? = b.reachedLimit? := by
  unfold Run.reachedLimit?
  rw [same.limit, same.stats]

/-- The debugger, its mark and the reports may be exchanged. -/
theorem exchanged (r : Run) (debugger : Debugger) (skipCheck : Bool) (events : List Event) :
    r.SameWork { r with debugger, skipCheck, events } := ⟨rfl, rfl, rfl, rfl, rfl, rfl, rfl⟩

theorem emit (same : a.SameWork b) (e f : Event) : (a.emit e).SameWork (b.emit f) :=
  ⟨same.program, same.machine, same.channels, same.stats, same.limit, same.console, same.ended⟩

theorem print (same : a.SameWork b) (text : String) : (a.print text).SameWork (b.print text) :=
  ⟨same.program, same.machine, same.channels, same.stats, same.limit,
    congrArg (· ++ text) same.console, same.ended⟩

theorem setInput (same : a.SameWork b) (text : String) :
    (a.setInput text).SameWork (b.setInput text) := by
  refine ⟨same.program, same.machine, ?_, same.stats, same.limit, same.console, same.ended⟩
  unfold Run.setInput
  rw [same.channels]

theorem absorb (same : a.SameWork b) (s : Station) : (a.absorb s).SameWork (b.absorb s) := by
  have printed : (s.printed.foldl Run.print a).SameWork (s.printed.foldl Run.print b) := by
    generalize s.printed = texts
    induction texts generalizing a b with
    | nil => exact same
    | cons text rest ih => exact ih (same.print text)
  exact ⟨printed.program, rfl, rfl, printed.stats, printed.limit, printed.console, printed.ended⟩

theorem complete (same : a.SameWork b) (i : Instruction) (change : Change) :
    (a.complete i change).SameWork (b.complete i change) :=
  ⟨same.program, same.machine, same.channels, congrArg (Statistics.record · i.category) same.stats,
    same.limit, same.console, same.ended⟩

theorem finish (same : a.SameWork b) (success : Bool) :
    (a.finish success).SameWork (b.finish success) := by
  unfold Run.finish
  rw [same.ended, same.channels]
  split
  · exact same
  · exact ⟨same.program, same.machine, rfl, same.stats, same.limit, same.console, rfl⟩

theorem fail (same : a.SameWork b) (pc : Word) (fault : Fault) :
    Coincide (a.fail pc fault) (b.fail pc fault) := by
  constructor
  · simp only [Run.fail, same.program]
  · exact (same.emit _ _).finish false

theorem moveTo (same : a.SameWork b) (pc : Word) : (a.moveTo pc).SameWork (b.moveTo pc) :=
  ⟨same.program, congrArg (Machine.setPc · pc) same.machine, same.channels, same.stats,
    same.limit, same.console, same.ended⟩

theorem follow (same : a.SameWork b) (pc : Word) (control : Control) :
    (a.follow pc control).1 = (b.follow pc control).1 ∧
      (a.follow pc control).2.SameWork (b.follow pc control).2 := by
  cases control with
  | exit code => exact ⟨rfl, same.finish true⟩
  | jump address => exact ⟨rfl, same.moveTo address⟩
  | next | await => exact ⟨rfl, same.moveTo (pc + 4)⟩

/-- An instruction is executed alike, whether its record is kept or not. -/
theorem executeEntry (same : a.SameWork b) (pc : Word) (entry : TextEntry) :
    Coincide (a.executeEntry pc entry) (b.executeEntry pc entry) := by
  unfold Run.executeEntry
  rw [same.machine, same.station]
  cases Change.capture b.machine pc entry.instr with
  | error f => exact same.fail pc f
  | ok change =>
    dsimp only
    split
    · exact (same.absorb _).fail pc _
    · exact ⟨rfl, same.absorb _⟩
    · next control s _ _ =>
      have followed := ((same.absorb s).complete entry.instr change).follow pc control
      exact ⟨congrArg Except.ok followed.1, followed.2⟩

end SameWork

/-- The entry that the next tick would execute. -/
def next? (r : Run) : Option TextEntry :=
  if r.program.isPastEnd r.pc then none else r.entry?

theorem SameWork.next? {a b : Run} (same : a.SameWork b) : a.next? = b.next? := by
  unfold Run.next?
  rw [same.program, same.pc, same.entry?]

section Tick

variable {r : Run}

theorem tick_ended (ended : r.ended = true) : r.tick = (.ok .finished, r) := by
  unfold tick
  rw [if_pos ended]

theorem tick_pastEnd (running : r.ended = false) (past : r.program.isPastEnd r.pc = true) :
    r.tick = (.ok .finished, r.finish true) := by
  unfold tick
  rw [if_neg (by simp [running]), if_pos past]

theorem tick_astray (running : r.ended = false) (inside : r.program.isPastEnd r.pc = false)
    (missing : r.entry? = none) : r.tick = r.fail r.pc (.invalidProgramCounter r.pc) := by
  unfold tick
  rw [if_neg (by simp [running]), if_neg (by simp [inside]), missing]

/-- What a tick does at an entry once the debugger lets it pass. -/
def passEntry (r : Run) (entry : TextEntry) : TickResult × Run :=
  match r.reachedLimit? with
  | some limit => r.fail r.pc (.instructionLimit limit)
  | none => r.executeEntry r.pc entry

/-- Whether the debugger is asked before an entry, and says that the run has to pause. -/
def pausesAt (r : Run) (entry : TextEntry) : Bool :=
  !r.skipCheck && (r.debugger.shouldBreak entry).1

theorem entry?_of_next? {entry : TextEntry} (found : r.next? = some entry) :
    r.program.isPastEnd r.pc = false ∧ r.entry? = some entry := by
  unfold next? at found
  split at found
  · exact absurd found (by simp)
  · next inside => exact ⟨by simpa using inside, found⟩

theorem tick_pausing {entry : TextEntry} (running : r.ended = false)
    (found : r.next? = some entry) (pauses : r.pausesAt entry = true) :
    r.tick = (.ok .paused, { r with
      debugger := (r.debugger.shouldBreak entry).2, skipCheck := true }.emit (.paused r.pc)) := by
  obtain ⟨inside, fetched⟩ := entry?_of_next? found
  obtain ⟨asked, hit⟩ : r.skipCheck = false ∧ (r.debugger.shouldBreak entry).1 = true := by
    simpa [pausesAt] using pauses
  unfold tick
  rw [if_neg (by simp [running]), if_neg (by simp [inside]), fetched]
  simp only [asked, Bool.false_eq_true, if_false]
  rw [if_pos hit]

theorem tick_passing {entry : TextEntry} (running : r.ended = false)
    (found : r.next? = some entry) (passes : r.pausesAt entry = false) :
    r.tick = r.passEntry entry := by
  obtain ⟨inside, fetched⟩ := entry?_of_next? found
  have answer : (if r.skipCheck then (false, r.debugger) else r.debugger.shouldBreak entry) =
      (false, r.debugger) := by
    split
    · rfl
    · next asked =>
      have passed : (r.debugger.shouldBreak entry).1 = false := by
        simpa [pausesAt, asked] using passes
      have kept := Debugger.shouldBreak_pass (Prod.ext passed rfl)
      exact Prod.ext passed kept
  unfold tick
  rw [if_neg (by simp [running]), if_neg (by simp [inside]), fetched]
  simp only [answer, Bool.false_eq_true, if_false]
  rfl

end Tick

theorem fail_ne_paused (r : Run) (pc : Word) (fault : Fault) :
    (r.fail pc fault).1 ≠ .ok .paused := by
  simp [fail]

theorem executeEntry_ne_paused (r : Run) (pc : Word) (entry : TextEntry) :
    (r.executeEntry pc entry).1 ≠ .ok .paused := by
  unfold executeEntry
  split
  · exact r.fail_ne_paused pc _
  · split
    · exact fail_ne_paused _ pc _
    · simp
    · next control _ _ _ => cases control <;> simp [follow]

theorem passEntry_ne_paused (r : Run) (entry : TextEntry) :
    (r.passEntry entry).1 ≠ .ok .paused := by
  unfold passEntry
  split
  · exact r.fail_ne_paused r.pc _
  · exact r.executeEntry_ne_paused r.pc entry

/-- A tick pauses just where the debugger is asked before an entry and says so. -/
theorem tick_paused_iff {r : Run} (running : r.ended = false) :
    r.tick.1 = .ok .paused ↔ ∃ entry, r.next? = some entry ∧ r.pausesAt entry = true := by
  constructor
  · intro paused
    cases past : r.program.isPastEnd r.pc with
    | true => simp [tick_pastEnd running past] at paused
    | false =>
      cases fetched : r.entry? with
      | none =>
        rw [tick_astray running past fetched] at paused
        exact absurd paused (r.fail_ne_paused _ _)
      | some entry =>
        have found : r.next? = some entry := by simp [next?, past, fetched]
        refine ⟨entry, found, ?_⟩
        by_contra passes
        rw [Bool.not_eq_true] at passes
        rw [tick_passing running found passes] at paused
        exact r.passEntry_ne_paused entry paused
  · rintro ⟨entry, found, pauses⟩
    rw [tick_pausing running found pauses]

namespace SameWork

variable {a b : Run}

theorem passEntry (same : a.SameWork b) (entry : TextEntry) :
    Coincide (a.passEntry entry) (b.passEntry entry) := by
  unfold Run.passEntry
  rw [same.reachedLimit?, same.pc]
  split
  · exact same.fail b.pc _
  · exact same.executeEntry b.pc entry

/-- Ticks that do not pause do the same work. -/
theorem tick (same : a.SameWork b) (first : a.tick.1 ≠ .ok .paused)
    (second : b.tick.1 ≠ .ok .paused) : Coincide a.tick b.tick := by
  cases ended : a.ended with
  | true =>
    have endedToo : b.ended = true := same.ended.symm.trans ended
    rw [tick_ended ended, tick_ended endedToo]
    exact ⟨rfl, same⟩
  | false =>
    have running : b.ended = false := same.ended.symm.trans ended
    cases past : a.program.isPastEnd a.pc with
    | true =>
      have pastToo : b.program.isPastEnd b.pc = true := by rw [← same.program, ← same.pc, past]
      rw [tick_pastEnd ended past, tick_pastEnd running pastToo]
      exact ⟨rfl, same.finish true⟩
    | false =>
      have inside : b.program.isPastEnd b.pc = false := by rw [← same.program, ← same.pc, past]
      cases fetched : a.entry? with
      | none =>
        rw [tick_astray ended past fetched,
          tick_astray running inside (same.entry?.symm.trans fetched), same.pc]
        exact same.fail b.pc _
      | some entry =>
        have found : a.next? = some entry := by simp [Run.next?, past, fetched]
        have foundToo : b.next? = some entry := same.next?.symm.trans found
        have passes : a.pausesAt entry = false := by
          by_contra pauses
          exact first ((tick_paused_iff ended).mpr ⟨entry, found, by simpa using pauses⟩)
        have passesToo : b.pausesAt entry = false := by
          by_contra pauses
          exact second ((tick_paused_iff running).mpr ⟨entry, foundToo, by simpa using pauses⟩)
        rw [tick_passing ended found passes, tick_passing running foundToo passesToo]
        exact same.passEntry entry

end SameWork

theorem tick_of_paused {r : Run} (paused : r.tick.1 = .ok .paused) :
    ∃ state continuing, r.tick.2 = { r with
      debugger := { r.debugger with state, continuing }
      skipCheck := true }.emit (.paused r.pc) := by
  have running : r.ended = false := by
    by_contra ended
    rw [tick_ended (by simpa using ended)] at paused
    simp at paused
  obtain ⟨entry, found, pauses⟩ := (tick_paused_iff running).mp paused
  have hit : (r.debugger.shouldBreak entry).1 = true := (Bool.and_eq_true_iff.mp pauses).2
  have answer : r.debugger.shouldBreak entry = (true, (r.debugger.shouldBreak entry).2) :=
    Prod.ext hit rfl
  obtain ⟨state, continuing, told⟩ := Debugger.shouldBreak_hit answer
  refine ⟨state, continuing, ?_⟩
  rw [tick_pausing running found pauses, told]

/-- A tick that pauses has done no work. -/
theorem sameWork_of_paused {r : Run} (paused : r.tick.1 = .ok .paused) :
    r.tick.2.SameWork r := by
  obtain ⟨state, continuing, stopped⟩ := tick_of_paused paused
  rw [stopped]
  exact ⟨rfl, rfl, rfl, rfl, rfl, rfl, rfl⟩

theorem tick_ne_paused_of_disabled {r : Run} (disabled : r.debugger.enabled = false) :
    r.tick.1 ≠ .ok .paused := by
  intro paused
  cases ended : r.ended with
  | true => simp [tick_ended ended] at paused
  | false =>
    obtain ⟨entry, -, pauses⟩ := (tick_paused_iff ended).mp paused
    simp [pausesAt, Debugger.shouldBreak, disabled] at pauses

/-- An executed instruction, and the machine that it left. -/
structure Executed where
  pc : Word
  instr : Instruction
  machine : Machine
  deriving DecidableEq

/-- What the next tick executes, if it executes an instruction. -/
def executed? (r : Run) : Option Executed :=
  if r.tick.1.executions = 0 then none
  else r.next?.map fun entry => ⟨r.pc, entry.instr, r.tick.2.machine⟩

theorem executed?_paused {r : Run} (paused : r.tick.1 = .ok .paused) : r.executed? = none := by
  simp [executed?, paused, TickResult.executions]

theorem SameWork.executed? {a b : Run} (same : a.SameWork b) (ticked : Coincide a.tick b.tick) :
    a.executed? = b.executed? := by
  unfold Run.executed?
  rw [ticked.result, ticked.work.machine, same.next?, same.pc]

/-- What may be done with a run under a debugger: moves, and lines at the prompt. -/
inductive Act where
  | move (m : Move)
  | line (text : String)
  deriving DecidableEq

/-- Everything but the lines that leave the run or step it back. -/
def Act.Forward : Act → Prop
  | .move _ => True
  | .line text =>
    PromptCommand.ofLine? text ≠ some .quit ∧ PromptCommand.ofLine? text ≠ some .reverse

instance : DecidablePred Act.Forward
  | .move _ => .isTrue trivial
  | .line _ => inferInstanceAs (Decidable (_ ∧ _))

def act (r : Run) : Act → Run
  | .move m => r.perform m
  | .line text => (r.obeyLine text).2

def actAll (r : Run) (acts : List Act) : Run := acts.foldl act r

def executedByRun : (fuel : Nat) → Run → List Executed
  | 0, _ => []
  | fuel + 1, r =>
    r.executed?.toList ++
      if r.tick.1 = .ok .executed then r.tick.2.executedByRun fuel else []

def executedBy (r : Run) : Act → List Executed
  | .move .tick => r.executed?.toList
  | .move .step => { r with skipCheck := true }.executed?.toList
  | .move (.run fuel) => r.executedByRun fuel
  | _ => []

/-- The instructions that a schedule executes, in order. -/
def history : Run → List Act → List Executed
  | _, [] => []
  | r, a :: rest => r.executedBy a ++ (r.act a).history rest

/-- The tick of a plain run in place of a tick, unless that only pauses. -/
def plainTick (r : Run) : List Act :=
  if r.tick.1 = .ok .paused then [] else [.move .tick]

def plainRun : (fuel : Nat) → Run → List Act
  | 0, _ => []
  | fuel + 1, r =>
    r.plainTick ++ if r.tick.1 = .ok .executed then r.tick.2.plainRun fuel else []

def plainAct (r : Run) : Act → List Act
  | .move .tick => r.plainTick
  | .move .step => { r with skipCheck := true }.plainTick
  | .move (.run fuel) => r.plainRun fuel
  | .move (.setInput text) => [.move (.setInput text)]
  | _ => []

/-- What is left of a schedule without a debugger: the inputs, and the ticks that do not pause. -/
def plain : Run → List Act → List Act
  | _, [] => []
  | r, a :: rest => r.plainAct a ++ (r.act a).plain rest

theorem history_append (r : Run) (first second : List Act) :
    r.history (first ++ second) = r.history first ++ (r.actAll first).history second := by
  induction first generalizing r with
  | nil => rfl
  | cons a rest ih =>
    simp only [List.cons_append, history, ih, List.append_assoc]
    rfl

theorem actAll_append (r : Run) (first second : List Act) :
    r.actAll (first ++ second) = (r.actAll first).actAll second := by
  simp only [actAll, List.foldl_append]

/-- By a plan a plain run follows a debugged one, which has executed something and come to
`later`. -/
structure Follows (b later : Run) (executed : List Executed) (plan : List Act) : Prop where
  executed : b.history plan = executed
  work : later.SameWork (b.actAll plan)
  disabled : (b.actAll plan).debugger.enabled = false

section Follow

variable {a b : Run}

theorem Follows.idle {later : Run} (same : later.SameWork b)
    (disabled : b.debugger.enabled = false) : Follows b later [] [] :=
  ⟨rfl, same, disabled⟩

theorem Follows.trans {c later : Run} {e f : List Executed} {p q : List Act}
    (first : Follows b c e p) (second : Follows (b.actAll p) later f q) :
    Follows b later (e ++ f) (p ++ q) := by
  constructor
  · rw [history_append, first.executed, second.executed]
  · rw [actAll_append]
    exact second.work
  · rw [actAll_append]
    exact second.disabled

theorem follows_tick (same : a.SameWork b) (disabled : b.debugger.enabled = false) :
    Follows b a.tick.2 a.executed?.toList a.plainTick := by
  by_cases paused : a.tick.1 = .ok .paused
  · have idle : a.tick.2.SameWork b := (sameWork_of_paused paused).trans same
    simpa [plainTick, paused, executed?_paused paused] using Follows.idle idle disabled
  · have ticked := same.tick paused (tick_ne_paused_of_disabled disabled)
    have kept := b.ahead_tick.enabled
    rw [plainTick, if_neg paused, same.executed? ticked]
    exact ⟨List.append_nil _, ticked.work, kept.trans disabled⟩

theorem run_going {r : Run} (going : r.tick.1 = .ok .executed) (fuel : Nat) :
    r.run (fuel + 1) = r.tick.2.run fuel := by
  rw [run]
  split
  · next next ticked => rw [ticked]
  · next stopped => exact (stopped r.tick.2 (Prod.ext going rfl)).elim

theorem run_stopped {r : Run} (stopped : r.tick.1 ≠ .ok .executed) (fuel : Nat) :
    r.run (fuel + 1) = r.tick := by
  rw [run]
  split
  · next next ticked => exact absurd (congrArg Prod.fst ticked) stopped
  · rfl

theorem follows_run (fuel : Nat) (same : a.SameWork b) (disabled : b.debugger.enabled = false) :
    Follows b (a.run fuel).2 (a.executedByRun fuel) (a.plainRun fuel) := by
  induction fuel generalizing a b with
  | zero => exact .idle same disabled
  | succ fuel ih =>
    have first := follows_tick same disabled
    unfold executedByRun plainRun
    by_cases going : a.tick.1 = .ok .executed
    · rw [run_going going, if_pos going, if_pos going]
      exact first.trans (ih first.work first.disabled)
    · rw [run_stopped going, if_neg going, if_neg going, List.append_nil, List.append_nil]
      exact first

/-- Changes to the debugger do no work. -/
theorem sameWork_obeyLine {r : Run} {text : String} (forward : (Act.line text).Forward) :
    (r.obeyLine text).2.SameWork r := by
  obtain ⟨stays, goes⟩ := forward
  unfold obeyLine
  cases command : PromptCommand.ofLine? text with
  | none => exact .refl r
  | some c =>
    cases c with
    | quit => exact absurd command stays
    | reverse => exact absurd command goes
    | _ => exact ⟨rfl, rfl, rfl, rfl, rfl, rfl, rfl⟩

theorem follows_act {act : Act} (forward : act.Forward) (same : a.SameWork b)
    (disabled : b.debugger.enabled = false) :
    Follows b (a.act act) (a.executedBy act) (a.plainAct act) := by
  cases act with
  | line text => exact .idle ((sameWork_obeyLine forward).trans same) disabled
  | move m =>
    cases m with
    | tick => exact follows_tick same disabled
    | step =>
      have marked : ({ a with skipCheck := true } : Run).SameWork b :=
        ⟨same.program, same.machine, same.channels, same.stats, same.limit, same.console,
          same.ended⟩
      exact follows_tick marked disabled
    | run fuel => exact follows_run fuel same disabled
    | setInput text => exact ⟨rfl, same.setInput text, disabled⟩
    | resume | addBreakpoint | removeBreakpoint | clearBreakpoints =>
      refine .idle ?_ disabled
      exact ⟨same.program, same.machine, same.channels, same.stats, same.limit, same.console,
        same.ended⟩

theorem follows_actAll {acts : List Act} (forward : ∀ act ∈ acts, act.Forward)
    (same : a.SameWork b) (disabled : b.debugger.enabled = false) :
    Follows b (a.actAll acts) (a.history acts) (a.plain acts) := by
  induction acts generalizing a b with
  | nil => exact .idle same disabled
  | cons act rest ih =>
    obtain ⟨first, others⟩ := List.forall_mem_cons.mp forward
    have moved := follows_act first same disabled
    exact moved.trans (ih others moved.work moved.disabled)

end Follow

def Act.input? : Act → Option String
  | .move (.setInput text) => some text
  | _ => none

theorem inputs_plainTick (r : Run) : r.plainTick.filterMap Act.input? = [] := by
  unfold plainTick
  split <;> rfl

theorem inputs_plainRun (fuel : Nat) (r : Run) : (r.plainRun fuel).filterMap Act.input? = [] := by
  induction fuel generalizing r with
  | zero => rfl
  | succ fuel ih =>
    unfold plainRun
    rw [List.filterMap_append, inputs_plainTick]
    split
    · exact ih _
    · rfl

theorem inputs_plain (r : Run) (acts : List Act) :
    (r.plain acts).filterMap Act.input? = acts.filterMap Act.input? := by
  induction acts generalizing r with
  | nil => rfl
  | cons act rest ih =>
    have first : (r.plainAct act).filterMap Act.input? = [act].filterMap Act.input? := by
      cases act with
      | line text => rfl
      | move m =>
        cases m with
        | tick => exact r.inputs_plainTick
        | step => exact inputs_plainTick _
        | run fuel => exact r.inputs_plainRun fuel
        | _ => rfl
    rw [plain, List.filterMap_append, first, ih, ← List.filterMap_append]
    rfl

/-- The debugger does not reach the program. Of two runs that differ at most in their debuggers,
ticks that do not pause give the same result and leave the same machine, channels, console and
counts. Hence under any schedule that does not step back, a debugged run executes the instructions
of a plain run that gets the same inputs, and with the same machines. -/
theorem tick_transparent {a b : Run} (same : a.SameWork b) :
    (a.tick.1 ≠ .ok .paused → b.tick.1 ≠ .ok .paused →
      a.tick.1 = b.tick.1 ∧ a.tick.2.SameWork b.tick.2) ∧
    (b.debugger.enabled = false → ∀ acts : List Act, (∀ act ∈ acts, act.Forward) →
      (a.plain acts).filterMap Act.input? = acts.filterMap Act.input? ∧
        b.history (a.plain acts) = a.history acts ∧
        (a.actAll acts).SameWork (b.actAll (a.plain acts))) := by
  refine ⟨?_, ?_⟩
  · intro first second
    have ticked := same.tick first second
    exact ⟨ticked.result, ticked.work⟩
  · intro disabled acts forward
    have follows := follows_actAll forward same disabled
    exact ⟨a.inputs_plain acts, follows.executed, follows.work⟩

def plainReading : Run := .start readingLoop {} ⟨[], []⟩

/-- Pauses at the start, asks for the breakpoints, steps once, and goes on without an input. -/
def watchedReading : List Act :=
  [.move .tick, .line "i", .move (.resume .step), .move .tick, .move (.resume .continue),
    .move (.run 2)]

theorem tick_transparent_watchedReading :
    readingRun.SameWork plainReading ∧ plainReading.debugger.enabled = false ∧
      (∀ act ∈ watchedReading, act.Forward) ∧
      readingRun.plain watchedReading = [.move .tick, .move .tick] ∧
      plainReading.history [.move .tick, .move .tick] = readingRun.history watchedReading ∧
      (readingRun.actAll watchedReading).SameWork
        (plainReading.actAll [.move .tick, .move .tick]) := by
  have same : readingRun.SameWork plainReading := ⟨rfl, rfl, rfl, rfl, rfl, rfl, rfl⟩
  have forward : ∀ act ∈ watchedReading, act.Forward := by decide +kernel
  have plan : readingRun.plain watchedReading = [.move .tick, .move .tick] := by cbv
  have transparent := (tick_transparent same).2 rfl watchedReading forward
  rw [plan] at transparent
  exact ⟨same, rfl, forward, plan, transparent.2.1, transparent.2.2⟩

end MipsLab.Run
