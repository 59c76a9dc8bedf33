import MipsLab.Proofs.Run.Chronicle
import MipsLab.Proofs.Run.Reports

/-! The counts of a run beside its undo log. An executed instruction is counted in the category of
the entry that was executed, and taken off the count in the category of the entry that its record
leads back to; as programs do not change, these are the same. Hence no count ever falls short of
the records that may still be taken back, and nothing is subtracted from a count of zero. -/
namespace MipsLab

namespace Statistics

/-- The counts of all categories together. -/
def counted (s : Statistics) : Nat := (InstrClass.rows.map fun row => s.count row.1).sum

variable (s : Statistics) (c : InstrClass)

theorem total_record : (s.record c).total = s.total + 1 := rfl

theorem count_record (d : InstrClass) :
    (s.record c).count d = s.count d + if c = d then 1 else 0 := by
  cases c <;> cases d <;> simp [record, setCount, count, InstrClass.index]

theorem count_unrecord (d : InstrClass) :
    (s.unrecord c).count d = s.count d - if c = d then 1 else 0 := by
  cases c <;> cases d <;> simp [unrecord, setCount, count, InstrClass.index]

theorem counted_record : (s.record c).counted = s.counted + 1 := by
  simp only [counted, InstrClass.rows, List.map_cons, List.map_nil, List.sum_cons, List.sum_nil,
    count_record]
  cases c <;> simp <;> omega

/-- A count that is not zero is restored by counting again. -/
theorem record_unrecord {s : Statistics} {c : InstrClass} (all : 0 < s.total)
    (some : 0 < s.count c) : (s.unrecord c).record c = s := by
  obtain ⟨total, counts⟩ := s
  have back : total - 1 + 1 = total := Nat.sub_add_cancel all
  have same : counts[(c.index : Nat)] - 1 + 1 = counts[(c.index : Nat)] := Nat.sub_add_cancel some
  simp [record, unrecord, setCount, count, back, same]

theorem counted_unrecord {s : Statistics} {c : InstrClass} (all : 0 < s.total)
    (some : 0 < s.count c) : (s.unrecord c).counted + 1 = s.counted := by
  rw [← counted_record _ c, record_unrecord all some]

theorem count_le_counted : s.count c ≤ s.counted := by
  simp only [counted, InstrClass.rows, List.map_cons, List.map_nil, List.sum_cons, List.sum_nil]
  cases c <;> omega

end Statistics

namespace Run

/-- Everything that may be done with a run and its debugger. -/
inductive Handling where
  | operate (o : Operation)
  /-- The debugger leaves its pause, but is asked again before the next instruction. -/
  | release (mode : ResumeMode)
  | enable (enabled : Bool)
  | clearUndo
  deriving DecidableEq

def handle (r : Run) : Handling → Run
  | .operate o => r.operate o
  | .release mode => { r with debugger := r.debugger.resume mode }
  | .enable enabled => { r with debugger := r.debugger.setEnabled enabled }
  | .clearUndo => { r with debugger := { r.debugger with undo := [] } }

def handleAll (r : Run) (handlings : List Handling) : Run := handlings.foldl handle r

/-- Whether the undo log goes on to have every executed instruction. -/
def Handling.keepsLog : Handling → Bool
  | .enable enabled => enabled
  | .clearUndo => false
  | _ => true

/-- Whether a record leads back to an instruction of a category. -/
def leadsTo (p : Program) (c : InstrClass) (change : Change) : Bool :=
  (p.entryAt? change.pc).any (·.instr.category = c)

/-- How many records lead back to an instruction of a category. -/
def recorded (r : Run) (c : InstrClass) : Nat := r.debugger.undo.countP (leadsTo r.program c)

/-- The counts add up, and they cover the records. If the log is `full`, it has a record for each
instruction that is counted. -/
structure Accounts (full : Prop) (r : Run) : Prop where
  total : r.stats.total = r.stats.counted
  placed : ∀ change ∈ r.debugger.undo, ∃ entry, r.program.entryAt? change.pc = some entry
  covered : ∀ c, r.recorded c ≤ r.stats.count c
  all : full → r.debugger.enabled = true ∧ r.debugger.undo.length = r.stats.total

variable {full : Prop} {r next : Run}

theorem Accounts.of_same (accounts : Accounts full r) (program : next.program = r.program)
    (undo : next.debugger.undo = r.debugger.undo) (stats : next.stats = r.stats)
    (enabled : next.debugger.enabled = r.debugger.enabled) : Accounts full next := by
  constructor
  · rw [stats]
    exact accounts.total
  · rw [undo, program]
    exact accounts.placed
  · unfold recorded
    rw [undo, program, stats]
    exact accounts.covered
  · rw [enabled, undo, stats]
    exact accounts.all

/-- An instruction is counted, and its record is kept if debugging is enabled. -/
theorem Accounts.executed (accounts : Accounts full r) {entry : TextEntry} {change : Change}
    (found : r.program.entryAt? change.pc = some entry) (program : next.program = r.program)
    (undo : next.debugger.undo =
      if r.debugger.enabled then change :: r.debugger.undo else r.debugger.undo)
    (stats : next.stats = r.stats.record entry.instr.category)
    (enabled : next.debugger.enabled = r.debugger.enabled) : Accounts full next := by
  have records (c : InstrClass) :
      next.recorded c ≤ r.recorded c + if entry.instr.category = c then 1 else 0 := by
    unfold recorded
    rw [undo, program]
    split
    · rw [List.countP_cons, leadsTo, found]
      simp
    · omega
  constructor
  · rw [stats, Statistics.total_record, Statistics.counted_record, accounts.total]
  · intro old member
    rw [undo] at member
    rw [program]
    split at member
    · rcases List.mem_cons.mp member with rfl | member
      · exact ⟨entry, found⟩
      · exact accounts.placed old member
    · exact accounts.placed old member
  · intro c
    rw [stats, Statistics.count_record]
    have := records c
    have := accounts.covered c
    omega
  · intro always
    obtain ⟨on, length⟩ := accounts.all always
    rw [enabled, undo, if_pos on, stats, Statistics.total_record, List.length_cons, length]
    exact ⟨on, rfl⟩

/-- What the newest record leads back to has been counted. -/
theorem Accounts.newest (accounts : Accounts full r) {change : Change} {undo : List Change}
    (log : r.debugger.undo = change :: undo) :
    ∃ entry, r.program.entryAt? change.pc = some entry ∧ 0 < r.stats.total ∧
      0 < r.stats.count entry.instr.category := by
  obtain ⟨entry, found⟩ := accounts.placed change (log ▸ List.mem_cons_self)
  have counted : 0 < r.recorded entry.instr.category := by
    unfold recorded
    rw [log, List.countP_cons_of_pos (by simp [leadsTo, found])]
    omega
  have some : 0 < r.stats.count entry.instr.category :=
    Nat.lt_of_lt_of_le counted (accounts.covered _)
  have part := r.stats.count_le_counted entry.instr.category
  rw [← accounts.total] at part
  exact ⟨entry, found, Nat.lt_of_lt_of_le some part, some⟩

theorem enabled_stepBack (r : Run) : r.stepBack.2.debugger.enabled = r.debugger.enabled := by
  obtain ⟨machine, undo, stats, events, same⟩ := r.stepBack_eq
  rw [same]

theorem program_stepBack (r : Run) : r.stepBack.2.program = r.program := by
  obtain ⟨machine, undo, stats, events, same⟩ := r.stepBack_eq
  rw [same]

theorem Accounts.stepBack (accounts : Accounts full r) : Accounts full r.stepBack.2 := by
  cases ended : r.ended with
  | true =>
    rw [stepBack_ended ended]
    exact accounts
  | false =>
    cases log : r.debugger.undo with
    | nil =>
      rw [stepBack_empty ended log]
      exact accounts.of_same rfl rfl rfl rfl
    | cons change undo =>
      obtain ⟨entry, found, all, some⟩ := accounts.newest log
      obtain ⟨-, alike⟩ := stepBack_newest ended log found
      have kept : r.stepBack.2.debugger.undo = undo := alike.undo
      have stats : r.stepBack.2.stats = r.stats.unrecord entry.instr.category := alike.stats
      have records (c : InstrClass) : r.recorded c =
          r.stepBack.2.recorded c + if entry.instr.category = c then 1 else 0 := by
        unfold recorded
        rw [log, kept, program_stepBack, List.countP_cons, leadsTo, found]
        simp
      constructor
      · have counted := Statistics.counted_unrecord all some
        have total : (r.stats.unrecord entry.instr.category).total + 1 = r.stats.total :=
          Nat.sub_add_cancel all
        have := accounts.total
        rw [stats]
        omega
      · intro old member
        rw [kept] at member
        rw [program_stepBack]
        exact accounts.placed old (log ▸ List.mem_cons_of_mem change member)
      · intro c
        have := records c
        have := accounts.covered c
        rw [stats, Statistics.count_unrecord]
        omega
      · intro always
        obtain ⟨on, length⟩ := accounts.all always
        rw [log, List.length_cons] at length
        have total : (r.stats.unrecord entry.instr.category).total = r.stats.total - 1 := rfl
        rw [enabled_stepBack, kept, stats, total, ← length]
        exact ⟨on, rfl⟩

theorem Accounts.finish (accounts : Accounts full r) (success : Bool) :
    Accounts full (r.finish success) := by
  unfold Run.finish
  split
  · exact accounts
  · exact accounts.of_same rfl rfl rfl rfl

theorem accounts_ticks {result : TickResult} (ways : r.Ticks result next)
    (accounts : Accounts full r) : Accounts full next := by
  cases ways with
  | finished => exact accounts.finish true
  | paused running entry d hit =>
    obtain ⟨state, continuing, rfl⟩ := Debugger.shouldBreak_hit hit
    exact accounts.of_same rfl rfl rfl rfl
  | failed running channels fault =>
    have told (e : Event) : Accounts full (emit { r with channels } e) :=
      accounts.of_same rfl rfl rfl rfl
    exact (told _).finish false
  | awaiting running => exact accounts
  | executed running entry change s control found place undone =>
    have completed : Accounts full ((r.absorb s).complete entry.instr change) := by
      obtain ⟨console, events, taken⟩ := r.absorb_eq s
      rw [taken]
      exact accounts.executed (place ▸ found) rfl (undo_completed r.debugger entry.instr change) rfl
        (enabled_remember_breakIn r.debugger entry.instr change)
    cases control with
    | exit code => exact completed.finish true
    | jump | next | await => exact completed.of_same rfl rfl rfl rfl

theorem Accounts.tick (accounts : Accounts full r) : Accounts full r.tick.2 :=
  accounts_ticks r.ticks_tick accounts

theorem Accounts.run (fuel : Nat) (accounts : Accounts full r) : Accounts full (r.run fuel).2 := by
  induction fuel generalizing r with
  | zero => exact accounts
  | succ fuel ih =>
    by_cases going : r.tick.1 = .ok .executed
    · rw [run_going going]
      exact ih accounts.tick
    · rw [run_stopped going]
      exact accounts.tick

theorem Accounts.addBreakpoint (accounts : Accounts full r) (file : String) (line : Nat) :
    Accounts full { r with debugger := (r.debugger.addBreakpoint file line).2.2 } := by
  unfold Debugger.addBreakpoint
  dsimp only
  split <;> exact accounts.of_same rfl rfl rfl rfl

theorem Accounts.perform (accounts : Accounts full r) (move : Move) :
    Accounts full (r.perform move) := by
  cases move with
  | tick => exact accounts.tick
  | step =>
    have marked : Accounts full { r with skipCheck := true } := accounts.of_same rfl rfl rfl rfl
    exact marked.tick
  | run fuel => exact accounts.run fuel
  | setInput | removeBreakpoint | clearBreakpoints => exact accounts.of_same rfl rfl rfl rfl
  | resume mode => cases mode <;> exact accounts.of_same rfl rfl rfl rfl
  | addBreakpoint file line => exact accounts.addBreakpoint file line

theorem Accounts.operate (accounts : Accounts full r) (o : Operation) :
    Accounts full (r.operate o) := by
  cases o with
  | stepBack => exact accounts.stepBack
  | stop => exact accounts.finish false
  | finish success => exact accounts.finish success
  | act a =>
    cases a with
    | move m => exact accounts.perform m
    | line text =>
      change Accounts full (r.obeyLine text).2
      unfold obeyLine
      cases PromptCommand.ofLine? text with
      | none => exact accounts
      | some command =>
        cases command with
        | quit => exact accounts.finish false
        | reverse => exact accounts.stepBack
        | setBreak file line => exact accounts.addBreakpoint file line
        | _ => exact accounts.of_same rfl rfl rfl rfl

/-- A log that is to stay full must be kept. -/
theorem Accounts.handle (accounts : Accounts full r) (h : Handling)
    (kept : full → h.keepsLog = true) : Accounts full (r.handle h) := by
  cases h with
  | operate o => exact accounts.operate o
  | release mode => cases mode <;> exact accounts.of_same rfl rfl rfl rfl
  | enable enabled =>
    exact ⟨accounts.total, accounts.placed, accounts.covered, fun always =>
      ⟨kept always, (accounts.all always).2⟩⟩
  | clearUndo =>
    refine ⟨accounts.total, fun _ member => absurd member List.not_mem_nil, fun c => ?_, ?_⟩
    · exact Nat.zero_le _
    · exact fun always => absurd (kept always) Bool.false_ne_true

theorem Accounts.handleAll (accounts : Accounts full r) (handlings : List Handling)
    (kept : full → ∀ h ∈ handlings, h.keepsLog = true) : Accounts full (r.handleAll handlings) := by
  induction handlings generalizing r with
  | nil => exact accounts
  | cons h rest ih =>
    have first := accounts.handle h fun always => kept always h List.mem_cons_self
    exact ih first fun always other member => kept always other (List.mem_cons_of_mem h member)

theorem accounts_launch (program : Program) (settings : Settings) (tree : FileTree)
    (args : List String) (recording : full → settings.debug = true) :
    Accounts full (launch program settings tree args) := by
  have started : Accounts full (start program settings tree) :=
    ⟨rfl, fun _ member => absurd member List.not_mem_nil, fun _ => Nat.zero_le _,
      fun always => ⟨recording always, rfl⟩⟩
  unfold launch setArguments
  split
  · exact started
  · exact started.of_same rfl rfl rfl rfl

/-- Whatever is done with a run and its debugger, the counts add up to the total, and each of them
covers the records that lead back to its category. So a step back always subtracts from counts that
are not zero, and counting the instruction again would restore them. As long as debugging has
been enabled from the start and the log has been kept, the log has a record for each instruction
that is counted. -/
theorem handleAll_accounts (program : Program) (settings : Settings) (tree : FileTree)
    (args : List String) (handlings : List Handling) :
    let r := (launch program settings tree args).handleAll handlings
    r.stats.total = (InstrClass.rows.map fun row => r.stats.count row.1).sum ∧
    (∀ c, r.debugger.undo.countP (leadsTo r.program c) ≤ r.stats.count c) ∧
    (r.stepBack.1 = true → ∃ entry, Run.entry? r.stepBack.2 = some entry ∧
      0 < r.stats.total ∧ 0 < r.stats.count entry.instr.category ∧
      r.stepBack.2.stats = r.stats.unrecord entry.instr.category ∧
      r.stepBack.2.stats.record entry.instr.category = r.stats) ∧
    (settings.debug = true → (∀ h ∈ handlings, h.keepsLog = true) →
      r.debugger.undo.length = r.stats.total) := by
  intro r
  have accounts : Accounts (settings.debug = true ∧ ∀ h ∈ handlings, h.keepsLog = true) r :=
    (accounts_launch program settings tree args And.left).handleAll handlings And.right
  refine ⟨accounts.total, accounts.covered, fun back => ?_, fun on kept => ?_⟩
  · cases ended : r.ended with
    | true =>
      rw [stepBack_ended ended] at back
      exact absurd back Bool.false_ne_true
    | false =>
      cases log : r.debugger.undo with
      | nil =>
        rw [stepBack_empty ended log] at back
        exact absurd back Bool.false_ne_true
      | cons change undo =>
        obtain ⟨entry, found, all, some⟩ := accounts.newest log
        obtain ⟨-, alike⟩ := stepBack_newest ended log found
        have stats : r.stepBack.2.stats = r.stats.unrecord entry.instr.category := alike.stats
        have there : Run.entry? r.stepBack.2 = r.program.entryAt? change.pc := by
          unfold Run.entry?
          rw [program_stepBack, (stepBack_record ended log).2.2]
        rw [stats]
        exact ⟨entry, there.trans found, all, some, rfl, Statistics.record_unrecord all some⟩
  · exact (accounts.all ⟨on, kept⟩).2

/-- Reads a character, waits for the next one, and takes two instructions back. -/
def takenBack : List Handling :=
  readingMoves.map (.operate <| .act <| .move ·) ++
    [.operate .stepBack, .enable true, .operate .stepBack]

def launchedReading : Run := launch readingLoop { debug := true } ⟨[], []⟩ []

theorem handleAll_accounts_takenBack : (∀ h ∈ takenBack, h.keepsLog = true) ∧
    (launchedReading.handleAll takenBack).stats.total = 3 ∧
    (launchedReading.handleAll takenBack).debugger.undo.length = 3 ∧
    (launchedReading.handleAll takenBack).stepBack.1 = true ∧
    (launchedReading.handleAll takenBack).stepBack.2.stats.total = 2 := by
  have kept : ∀ h ∈ takenBack, h.keepsLog = true := by decide +kernel
  have total : (launchedReading.handleAll takenBack).stats.total = 3 := by cbv
  have back : (launchedReading.handleAll takenBack).stepBack.1 = true := by cbv
  have accounts := handleAll_accounts readingLoop { debug := true } ⟨[], []⟩ [] takenBack
  obtain ⟨-, -, taken, full⟩ := accounts
  obtain ⟨entry, -, -, -, stats, -⟩ := taken back
  refine ⟨kept, total, (full rfl kept).trans total, back, ?_⟩
  exact (congrArg Statistics.total stats).trans (congrArg (· - 1) total)

end Run

end MipsLab
