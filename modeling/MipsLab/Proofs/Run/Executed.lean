import MipsLab.Proofs.Run.Chronicle
import MipsLab.Proofs.Run.Transparent

/-! Single ticks, told apart by whether they execute an instruction. One that does has found,
recorded and executed it; one that does not leaves the machine and the undo log as they are. The
program stays the same in any case. -/
namespace MipsLab.Run

/-- A tick that executes an instruction, and what the instruction was found to be, what was recorded
before it, and what it did. -/
structure Executes (r : Run) (entry : TextEntry) (p : Prior) (s : Station) (control : Control) :
    Prop where
  found : r.entry? = some entry
  recorded : Prior.of r.machine entry.instr = .ok p
  reacted : react r.pc entry.instr r.station = .ok control s
  ticked : r.tick.2 = (((r.absorb s).complete entry.instr ⟨r.pc, p⟩).follow r.pc control).2

theorem executeEntry_executes {r : Run} {entry : TextEntry} (found : r.entry? = some entry)
    (ticked : r.tick = r.executeEntry r.pc entry) (executed : r.tick.1.executions ≠ 0) :
    ∃ p s control, r.Executes entry p s control := by
  rw [ticked] at executed
  unfold executeEntry Change.capture at ticked executed
  cases taken : Prior.of r.machine entry.instr with
  | error f =>
    rw [taken] at executed
    exact absurd rfl executed
  | ok p =>
    simp only [taken, Except.map] at executed ticked
    split at executed
    · exact absurd rfl executed
    · exact absurd rfl executed
    · next control s goes reacted =>
      rw [reacted] at ticked
      cases control with
      | await => exact absurd rfl goes
      | _ => exact ⟨p, s, _, found, taken, reacted, congrArg Prod.snd ticked⟩

theorem tick_executes {r : Run} (executed : r.tick.1.executions ≠ 0) :
    ∃ entry p s control, r.Executes entry p s control := by
  cases running : r.ended with
  | true =>
    rw [tick_ended running] at executed
    exact absurd rfl executed
  | false =>
    cases past : r.program.isPastEnd r.pc with
    | true =>
      rw [tick_pastEnd running past] at executed
      exact absurd rfl executed
    | false =>
      cases fetched : r.entry? with
      | none =>
        rw [tick_astray running past fetched] at executed
        exact absurd rfl executed
      | some entry =>
        have found : r.next? = some entry := by simp [next?, past, fetched]
        cases pauses : r.pausesAt entry with
        | true =>
          rw [tick_pausing running found pauses] at executed
          exact absurd rfl executed
        | false =>
          have passed := tick_passing running found pauses
          unfold passEntry at passed
          split at passed
          · rw [passed] at executed
            exact absurd rfl executed
          · exact ⟨entry, executeEntry_executes fetched passed executed⟩

theorem machine_finish (r : Run) (success : Bool) : (r.finish success).machine = r.machine := by
  unfold finish
  split <;> rfl

/-- What follows an instruction moves only the program counter. -/
theorem machine_follow (r : Run) (pc : Word) (control : Control) :
    ∃ target, (r.follow pc control).2.machine = r.machine.setPc target := by
  cases control with
  | exit code => exact ⟨r.pc, machine_finish r true⟩
  | jump target => exact ⟨target, rfl⟩
  | next | await => exact ⟨pc + 4, rfl⟩

theorem debugger_follow (r : Run) (pc : Word) (control : Control) :
    (r.follow pc control).2.debugger = r.debugger := by
  cases control with
  | exit code => exact debugger_finish r true
  | jump | next | await => rfl

namespace Executes

variable {r : Run} {entry : TextEntry} {p : Prior} {s : Station} {control : Control}

theorem undo (executes : r.Executes entry p s control) : r.tick.2.debugger.undo =
    if r.debugger.enabled then ⟨r.pc, p⟩ :: r.debugger.undo else r.debugger.undo := by
  obtain ⟨console, events, taken⟩ := r.absorb_eq s
  rw [executes.ticked, debugger_follow, taken]
  exact undo_completed r.debugger entry.instr ⟨r.pc, p⟩

end Executes

/-- A tick that executes nothing leaves the machine and the undo log alone. -/
theorem tick_idle {r : Run} (idle : r.tick.1.executions = 0) :
    r.tick.2.machine = r.machine ∧ r.tick.2.debugger.undo = r.debugger.undo := by
  have ways := r.ticks_tick
  generalize r.tick = outcome at ways idle ⊢
  obtain ⟨result, next⟩ := outcome
  cases ways with
  | finished => exact ⟨machine_finish r true, congrArg Debugger.undo (debugger_finish r true)⟩
  | paused running entry d hit =>
    obtain ⟨state, continuing, rfl⟩ := Debugger.shouldBreak_hit hit
    exact ⟨rfl, rfl⟩
  | failed running channels fault =>
    exact ⟨machine_finish _ false, congrArg Debugger.undo (debugger_finish _ false)⟩
  | awaiting running => exact ⟨rfl, rfl⟩
  | executed running entry change s control found pc undone => cases control <;> cases idle

theorem program_tick (r : Run) : r.tick.2.program = r.program := by
  have finished (q : Run) (success : Bool) : (q.finish success).program = q.program := by
    unfold finish
    split <;> rfl
  have ways := r.ticks_tick
  generalize r.tick = outcome at ways ⊢
  obtain ⟨result, next⟩ := outcome
  cases ways with
  | finished => exact finished r true
  | paused | awaiting => rfl
  | failed running channels fault => exact finished _ false
  | executed running entry change s control found pc undone =>
    obtain ⟨console, events, taken⟩ := r.absorb_eq s
    rw [taken]
    cases control with
    | exit code => exact finished _ true
    | jump | next | await => rfl

theorem executions_le (result : TickResult) : result.executions ≤ 1 := by
  unfold TickResult.executions
  split <;> omega

end MipsLab.Run
