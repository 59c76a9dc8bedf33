import Mathlib
import MipsLab.Proofs.Run.Tick

/-! Reversal of whole runs. Whatever moves a run forward, stepping back once for each executed
instruction returns to where it was. One executed instruction is undone by its record; longer runs
are put together from that, since stepping back depends on nothing but what it restores. -/
namespace MipsLab

theorem Statistics.unrecord_record (s : Statistics) (c : InstrClass) :
    (s.record c).unrecord c = s := by
  obtain ⟨total, counts⟩ := s
  simp [record, unrecord, setCount, count]

/-- Undoing an executed instruction returns to the machine before it, wherever control went. -/
theorem Change.revert_setPc {change : Change} {m k : Machine} {pc : Word}
    (undone : change.prior.restore k = m) (at_ : change.pc = m.regs.pc) :
    change.revert (k.setPc pc) = m := by
  rw [revert, Prior.restore_setPc, undone, at_]
  rfl

def TickResult.executions : TickResult → Nat
  | .ok .executed | .ok (.exited _) => 1
  | _ => 0

namespace Run

/-- What may be done with a run while it goes forward. -/
inductive Move where
  | tick
  | step
  | run (fuel : Nat)
  | setInput (text : String)
  | resume (mode : ResumeMode)
  | addBreakpoint (file : String) (line : Nat)
  | removeBreakpoint (file : String) (line : Nat)
  | clearBreakpoints
  deriving DecidableEq

def perform (r : Run) : Move → Run
  | .tick => r.tick.2
  | .step => r.step.2
  | .run fuel => (r.run fuel).2
  | .setInput text => r.setInput text
  | .resume mode => r.resume mode
  | .addBreakpoint file line => { r with debugger := (r.debugger.addBreakpoint file line).2.2 }
  | .removeBreakpoint file line => { r with debugger := (r.debugger.removeBreakpoint file line).2 }
  | .clearBreakpoints => { r with debugger := r.debugger.clearBreakpoints }

/-- The number of instructions that `run` executes. -/
def executionsOfRun : (fuel : Nat) → Run → Nat
  | 0, _ => 0
  | fuel + 1, r =>
    match r.tick with
    | (.ok .executed, next) => 1 + next.executionsOfRun fuel
    | (result, _) => result.executions

def executions (r : Run) : Move → Nat
  | .tick => r.tick.1.executions
  | .step => r.step.1.executions
  | .run fuel => r.executionsOfRun fuel
  | _ => 0

def performAll (r : Run) (moves : List Move) : Run := moves.foldl perform r

def executionsOfAll : Run → List Move → Nat
  | _, [] => 0
  | r, move :: rest => r.executions move + (r.perform move).executionsOfAll rest

/-- Steps back `n` times, and returns the answers in their order. -/
def rewind : (n : Nat) → Run → List Bool × Run
  | 0, r => ([], r)
  | n + 1, r =>
    let (answer, back) := r.stepBack
    let (answers, last) := back.rewind n
    (answer :: answers, last)

/-- Stepping back touches nothing but the machine, the undo log, the counts and the reports. -/
theorem stepBack_eq (r : Run) : ∃ machine undo stats events,
    r.stepBack.2 = { r with machine, debugger := { r.debugger with undo }, stats, events } := by
  unfold stepBack
  split
  · exact ⟨_, _, _, _, rfl⟩
  · split
    · exact ⟨_, _, _, _, rfl⟩
    · dsimp only
      split <;> exact ⟨_, _, _, _, rfl⟩

/-- What stepping back depends on, and what it restores. -/
structure Alike (a b : Run) : Prop where
  program : a.program = b.program
  machine : a.machine = b.machine
  undo : a.debugger.undo = b.debugger.undo
  stats : a.stats = b.stats
  ended : a.ended = b.ended

theorem Alike.refl (r : Run) : r.Alike r := ⟨rfl, rfl, rfl, rfl, rfl⟩

theorem Alike.trans {a b c : Run} (first : a.Alike b) (second : b.Alike c) : a.Alike c where
  program := first.program.trans second.program
  machine := first.machine.trans second.machine
  undo := first.undo.trans second.undo
  stats := first.stats.trans second.stats
  ended := first.ended.trans second.ended

theorem Alike.stepBack {a b : Run} (alike : a.Alike b) :
    a.stepBack.1 = b.stepBack.1 ∧ a.stepBack.2.Alike b.stepBack.2 := by
  obtain ⟨program, machine, undo, stats, ended⟩ := alike
  unfold Run.stepBack
  rw [ended, undo]
  split
  · exact ⟨rfl, program, machine, undo, stats, ended⟩
  · split
    · exact ⟨rfl, program, machine, undo, stats, ended⟩
    · dsimp only [pc, entry?]
      rw [program, machine]
      split
      · exact ⟨rfl, rfl, rfl, rfl, congrArg (Statistics.unrecord · _) stats, rfl⟩
      · exact ⟨rfl, rfl, rfl, rfl, stats, rfl⟩

theorem rewind_succ (n : Nat) (r : Run) : r.rewind (n + 1) =
    (r.stepBack.1 :: (r.stepBack.2.rewind n).1, (r.stepBack.2.rewind n).2) := rfl

theorem Alike.rewind {a b : Run} (alike : a.Alike b) (n : Nat) :
    (a.rewind n).1 = (b.rewind n).1 ∧ (a.rewind n).2.Alike (b.rewind n).2 := by
  induction n generalizing a b with
  | zero => exact ⟨rfl, alike⟩
  | succ n ih =>
    obtain ⟨answer, back⟩ := alike.stepBack
    obtain ⟨answers, last⟩ := ih back
    rw [rewind_succ, rewind_succ, answer, answers]
    exact ⟨rfl, last⟩

theorem rewind_add (m n : Nat) (r : Run) :
    r.rewind (m + n) =
      ((r.rewind m).1 ++ ((r.rewind m).2.rewind n).1, ((r.rewind m).2.rewind n).2) := by
  induction m generalizing r with
  | zero =>
    rw [Nat.zero_add]
    rfl
  | succ m ih => rw [Nat.succ_add, rewind_succ, rewind_succ, ih, List.cons_append]

/-- Unless the run has ended by then, `later` is `n` instructions ahead of `earlier`, and stepping
back over them leads there. -/
structure Ahead (n : Nat) (earlier later : Run) : Prop where
  enabled : later.debugger.enabled = earlier.debugger.enabled
  halted : earlier.ended = true → later.ended = true
  answers : earlier.debugger.enabled = true → later.ended = false →
    (later.rewind n).1 = List.replicate n true
  back : earlier.debugger.enabled = true → later.ended = false → (later.rewind n).2.Alike earlier

theorem Ahead.idle {earlier later : Run}
    (enabled : later.debugger.enabled = earlier.debugger.enabled) (alike : later.Alike earlier) :
    Ahead 0 earlier later where
  enabled := enabled
  halted ended := alike.ended.trans ended
  answers _ _ := rfl
  back _ _ := alike

theorem Ahead.ended {n : Nat} {earlier later : Run}
    (enabled : later.debugger.enabled = earlier.debugger.enabled) (ended : later.ended = true) :
    Ahead n earlier later where
  enabled := enabled
  halted _ := ended
  answers _ running := absurd (running.symm.trans ended) nofun
  back _ running := absurd (running.symm.trans ended) nofun

theorem Ahead.trans {m n : Nat} {a b c : Run} (first : Ahead m a b) (second : Ahead n b c) :
    Ahead (m + n) a c := by
  have running : c.ended = false → b.ended = false := by
    intro last
    rw [← Bool.not_eq_true]
    intro ended
    exact absurd (last.symm.trans (second.halted ended)) nofun
  refine ⟨second.enabled.trans first.enabled, second.halted ∘ first.halted, ?_, ?_⟩
  · intro enabled last
    have newest := second.answers (first.enabled.trans enabled) last
    have oldest := first.answers enabled (running last)
    have middle := (second.back (first.enabled.trans enabled) last).rewind m
    rw [Nat.add_comm, rewind_add, newest, middle.1, oldest, List.replicate_append_replicate]
  · intro enabled last
    have middle := (second.back (first.enabled.trans enabled) last).rewind m
    rw [Nat.add_comm, rewind_add]
    exact middle.2.trans (first.back enabled (running last))

theorem stepBack_newest {r : Run} {change : Change} {undo : List Change} {entry : TextEntry}
    (running : r.ended = false) (newest : r.debugger.undo = change :: undo)
    (found : r.program.entryAt? change.pc = some entry) :
    r.stepBack.1 = true ∧ r.stepBack.2.Alike { r with
      machine := change.revert r.machine, debugger := { r.debugger with undo },
      stats := r.stats.unrecord entry.instr.category } := by
  have place : (change.revert r.machine).regs.pc = change.pc := rfl
  unfold stepBack
  rw [if_neg (by rw [running]; exact Bool.false_ne_true), newest]
  dsimp only [pc, entry?]
  rw [place, found]
  exact ⟨rfl, rfl, rfl, rfl, rfl, rfl⟩

theorem enabled_remember_breakIn (d : Debugger) (i : Instruction) (change : Change) :
    ((breakIn d i).remember change).enabled = d.enabled := by
  unfold Debugger.remember breakIn
  repeat' split
  all_goals rfl

theorem undo_remember_breakIn {d : Debugger} (enabled : d.enabled = true) (i : Instruction)
    (change : Change) : ((breakIn d i).remember change).undo = change :: d.undo := by
  have kept : (breakIn d i).enabled = true ∧ (breakIn d i).undo = d.undo := by
    unfold breakIn
    repeat' split
    all_goals exact ⟨enabled, rfl⟩
  rw [Debugger.remember, if_pos kept.1, kept.2]

/-- One executed instruction: the record has the machine before it, and the counts go up by what
stepping back takes away. -/
theorem ahead_executed {r : Run} {entry : TextEntry} {change : Change} {s : Station}
    (running : r.ended = false) (found : r.entry? = some entry) (place : change.pc = r.pc)
    (undone : change.prior.restore s.machine = r.machine) (address : Word) :
    Ahead 1 r (((r.absorb s).complete entry.instr change).moveTo address) := by
  obtain ⟨console, events, taken⟩ := r.absorb_eq s
  rw [taken]
  have step (enabled : r.debugger.enabled = true) := stepBack_newest
    (r := moveTo (complete { r with machine := s.machine, channels := s.channels, console, events }
      entry.instr change) address)
    running (undo_remember_breakIn enabled entry.instr change) (by rw [place]; exact found)
  refine ⟨enabled_remember_breakIn r.debugger entry.instr change, ?_, ?_, ?_⟩
  · intro ended
    exact absurd (running.symm.trans ended) nofun
  · intro enabled _
    exact congrArg (List.cons · []) (step enabled).1
  · intro enabled _
    refine (step enabled).2.trans ⟨rfl, Change.revert_setPc undone place, rfl, ?_, rfl⟩
    exact Statistics.unrecord_record r.stats entry.instr.category

theorem ended_finish (r : Run) (success : Bool) : (r.finish success).ended = true := by
  unfold finish
  split
  · next ended => exact ended
  · rfl

theorem debugger_finish (r : Run) (success : Bool) :
    (r.finish success).debugger = r.debugger := by
  unfold finish
  split <;> rfl

theorem ahead_ticks {r next : Run} {result : TickResult} (ways : r.Ticks result next) :
    Ahead result.executions r next := by
  cases ways with
  | finished => exact .ended (by rw [debugger_finish]) (ended_finish r true)
  | paused running entry d hit =>
    obtain ⟨state, continuing, rfl⟩ := Debugger.shouldBreak_hit hit
    exact .idle rfl ⟨rfl, rfl, rfl, rfl, rfl⟩
  | failed running channels fault =>
    exact .ended (by rw [fail, debugger_finish]; rfl) (ended_finish _ false)
  | awaiting running => exact .idle rfl (.refl r)
  | executed running entry change s control found place undone =>
    cases control with
    | exit code =>
      obtain ⟨console, events, taken⟩ := r.absorb_eq s
      refine .ended ?_ (ended_finish _ true)
      rw [taken]
      exact (congrArg Debugger.enabled (debugger_finish _ true)).trans
        (enabled_remember_breakIn r.debugger entry.instr change)
    | jump address => exact ahead_executed running found place undone address
    | next | await => exact ahead_executed running found place undone (r.pc + 4)

theorem ahead_tick (r : Run) : Ahead r.tick.1.executions r r.tick.2 := ahead_ticks r.ticks_tick

/-- The mark that the next step is not to ask the debugger changes nothing that is restored. -/
theorem ahead_step (r : Run) : Ahead r.step.1.executions r r.step.2 := by
  have marked : Ahead 0 r { r with skipCheck := true } := .idle rfl ⟨rfl, rfl, rfl, rfl, rfl⟩
  have ahead := marked.trans (ahead_tick { r with skipCheck := true })
  rwa [Nat.zero_add] at ahead

theorem ahead_run (fuel : Nat) (r : Run) : Ahead (r.executionsOfRun fuel) r (r.run fuel).2 := by
  induction fuel generalizing r with
  | zero => exact .idle rfl (.refl r)
  | succ fuel ih =>
    have first := r.ahead_tick
    unfold executionsOfRun run
    split
    · next next ticked =>
      rw [ticked] at first
      simp only [ticked]
      exact first.trans (ih next)
    · next result next stopped ticked =>
      rw [ticked] at first ⊢
      split
      · next other same => exact absurd (Prod.mk.inj same).1 stopped
      · exact first

theorem ahead_perform (r : Run) (move : Move) : Ahead (r.executions move) r (r.perform move) := by
  cases move with
  | tick => exact r.ahead_tick
  | step => exact r.ahead_step
  | run fuel => exact r.ahead_run fuel
  | setInput | removeBreakpoint | clearBreakpoints => exact .idle rfl ⟨rfl, rfl, rfl, rfl, rfl⟩
  | resume mode => cases mode <;> exact .idle rfl ⟨rfl, rfl, rfl, rfl, rfl⟩
  | addBreakpoint file line =>
    have kept : (r.debugger.addBreakpoint file line).2.2.enabled = r.debugger.enabled ∧
        (r.debugger.addBreakpoint file line).2.2.undo = r.debugger.undo := by
      unfold Debugger.addBreakpoint
      dsimp only
      split <;> exact ⟨rfl, rfl⟩
    exact .idle kept.1 ⟨rfl, rfl, kept.2, rfl, rfl⟩

theorem ahead_performAll (r : Run) (moves : List Move) :
    Ahead (r.executionsOfAll moves) r (r.performAll moves) := by
  induction moves generalizing r with
  | nil => exact .idle rfl (.refl r)
  | cons move rest ih => exact (r.ahead_perform move).trans (ih (r.perform move))

/-- As long as a run has not ended, stepping back once for each instruction executed succeeds every
time, and brings back the registers, the memory, the undo log and the counts. -/
theorem rewind_performAll (r : Run) (moves : List Move) (enabled : r.debugger.enabled = true)
    (running : (r.performAll moves).ended = false) :
    let n := r.executionsOfAll moves
    let (answers, back) := (r.performAll moves).rewind n
    answers = List.replicate n true ∧ back.machine = r.machine ∧
      back.debugger.undo = r.debugger.undo ∧ back.stats = r.stats := by
  have ahead := r.ahead_performAll moves
  have back := ahead.back enabled running
  exact ⟨ahead.answers enabled running, back.machine, back.undo, back.stats⟩

def entriesFrom (a : Word) : List Instruction → Std.ExtTreeMap Word TextEntry
  | [] => ∅
  | i :: rest => (entriesFrom (a + 4) rest).insert a ⟨a, i, ⟨"echo.s", 1⟩, "", false, true⟩

/-- Reads characters and keeps the last one in memory. -/
def readingLoop : Program where
  text := entriesFrom MemoryMap.textBase
    [.imm .addiu Register.v0 Register.zero 12, .syscall, .mem .sw Register.v0 Register.gp 0,
      .jump false ⟨MemoryMap.textBase, none⟩]
  data := ∅
  symbols := ∅
  declarations := []
  instructions := []
  names := .new [] fun _ => none
  linked := []
  entry := MemoryMap.textBase

def readingRun : Run := .start readingLoop { debug := true } ⟨[], []⟩

/-- A character is delivered; the run goes on until it waits for the next one. -/
def readingMoves : List Move := [.setInput "a", .step, .tick, .resume .continue, .run 9]

theorem rewind_readingRun :
    readingRun.debugger.enabled = true ∧ (readingRun.performAll readingMoves).ended = false ∧
      let (answers, back) := (readingRun.performAll readingMoves).rewind 5
      answers = List.replicate 5 true ∧ back.machine = readingRun.machine ∧
        back.debugger.undo = readingRun.debugger.undo ∧ back.stats = readingRun.stats := by
  have running : (readingRun.performAll readingMoves).ended = false := by cbv
  have executed : readingRun.executionsOfAll readingMoves = 5 := by cbv
  have back := rewind_performAll readingRun readingMoves rfl running
  rw [executed] at back
  exact ⟨rfl, running, back⟩

end Run

end MipsLab
