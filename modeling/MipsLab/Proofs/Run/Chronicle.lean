import MipsLab.Proofs.Run.Reversal

/-! Stepping back where debugging is switched on and off. A chronicle of a run holds a moment for
each executed instruction that has not been taken back. Only those executed with debugging enabled
are recorded; stepping back takes back the newest of these, whatever was executed since. It returns
to the moment before the newest instruction if that instruction is recorded. -/
namespace MipsLab

namespace Run

/-- What a run was just before an instruction, and whether the instruction was recorded. -/
structure Moment where
  machine : Machine
  stats : Statistics
  recorded : Bool

def moment (r : Run) : Moment := ⟨r.machine, r.stats, r.debugger.enabled⟩

/-- The moments of the instructions that `run` executes, newest first. -/
def momentsOfRun : (fuel : Nat) → Run → List Moment
  | 0, _ => []
  | fuel + 1, r =>
    match r.tick with
    | (.ok .executed, next) => next.momentsOfRun fuel ++ [r.moment]
    | (result, _) => List.replicate result.executions r.moment

def moments (r : Run) : Move → List Moment
  | .tick => List.replicate r.tick.1.executions r.moment
  | .step => List.replicate r.step.1.executions r.moment
  | .run fuel => r.momentsOfRun fuel
  | _ => []

/-- What may be done with a run whose debugger is in reach. -/
inductive Turn where
  | forth (move : Move)
  | back
  | enable (enabled : Bool)
  deriving DecidableEq

def turn (r : Run) : Turn → Run
  | .forth move => r.perform move
  | .back => r.stepBack.2
  | .enable enabled => { r with debugger := r.debugger.setEnabled enabled }

/-- The chronicle after a turn. A step back that succeeds strikes out the newest instruction that
was recorded. -/
def chronicle (r : Run) (live : List Moment) : Turn → List Moment
  | .forth move => r.moments move ++ live
  | .back => if r.stepBack.1 then live.eraseP (·.recorded) else live
  | .enable _ => live

def turnAll (r : Run) (turns : List Turn) : Run := turns.foldl turn r

def chronicleOfAll : Run → List Moment → List Turn → List Moment
  | _, live, [] => live
  | r, live, t :: rest => (r.turn t).chronicleOfAll (r.chronicle live t) rest

section Keeping

variable {Q : List Moment → Run → Prop} {live : List Moment} {r : Run}

/-- What every tick keeps about a chronicle and its run is kept by every move, if it depends only on
what stepping back depends on and on whether debugging is enabled. -/
theorem perform_keeps
    (tick : ∀ {live r}, Q live r → Q (List.replicate r.tick.1.executions r.moment ++ live) r.tick.2)
    (alike : ∀ {live a b}, Q live a → b.Alike a → b.debugger.enabled = a.debugger.enabled →
      Q live b) (holds : Q live r) (move : Move) : Q (r.moments move ++ live) (r.perform move) := by
  cases move with
  | tick => exact tick holds
  | step =>
    have marked : Q live { r with skipCheck := true } := alike holds ⟨rfl, rfl, rfl, rfl, rfl⟩ rfl
    exact tick marked
  | run fuel =>
    change Q (r.momentsOfRun fuel ++ live) (r.run fuel).2
    induction fuel generalizing r live with
    | zero => exact holds
    | succ fuel ih =>
      have first := tick holds
      unfold momentsOfRun Run.run
      split
      · next next ticked =>
        rw [ticked] at first
        simp only [ticked, List.append_assoc]
        exact ih first
      · next result next stopped ticked =>
        rw [ticked] at first ⊢
        split
        · next other same => exact absurd (Prod.mk.inj same).1 stopped
        · exact first
  | setInput | removeBreakpoint | clearBreakpoints =>
    exact alike holds ⟨rfl, rfl, rfl, rfl, rfl⟩ rfl
  | resume mode => cases mode <;> exact alike holds ⟨rfl, rfl, rfl, rfl, rfl⟩ rfl
  | addBreakpoint file line =>
    have kept : (r.debugger.addBreakpoint file line).2.2.undo = r.debugger.undo ∧
        (r.debugger.addBreakpoint file line).2.2.enabled = r.debugger.enabled := by
      unfold Debugger.addBreakpoint
      dsimp only
      split <;> exact ⟨rfl, rfl⟩
    exact alike holds ⟨rfl, rfl, kept.1, rfl, rfl⟩ kept.2

theorem turnAll_keeps {turns : List Turn}
    (turn : ∀ t ∈ turns, ∀ {live r}, Q live r → Q (r.chronicle live t) (r.turn t))
    (holds : Q live r) : Q (r.chronicleOfAll live turns) (r.turnAll turns) := by
  induction turns generalizing r live with
  | nil => exact holds
  | cons t rest ih =>
    rw [List.forall_mem_cons] at turn
    exact ih turn.2 (turn.1 holds)

end Keeping

/-- Stepping back leads to the moments one after another, down to the first unrecorded one. -/
def Leads : List Moment → Run → Prop
  | [], _ => True
  | m :: rest, r => m.recorded = true → r.ended = false →
    r.stepBack.1 = true ∧ r.stepBack.2.machine = m.machine ∧ r.stepBack.2.stats = m.stats ∧
      Leads rest r.stepBack.2

/-- The undo log has the records of a chronicle, and they lead back as far as they are unbroken. -/
structure Remembers (live : List Moment) (r : Run) : Prop where
  records : List.Forall₂ (fun change m => change.pc = m.machine.regs.pc) r.debugger.undo
    (live.filter (·.recorded))
  leads : Leads live r

variable {live : List Moment} {r : Run}

theorem Leads.of_alike {a b : Run} (leads : Leads live a) (alike : b.Alike a) : Leads live b := by
  induction live generalizing a b with
  | nil => trivial
  | cons m rest ih =>
    intro recorded running
    obtain ⟨answer, machine, stats, further⟩ := leads recorded (alike.ended.symm.trans running)
    obtain ⟨same, back⟩ := alike.stepBack
    exact ⟨same.trans answer, back.machine.trans machine, back.stats.trans stats, ih further back⟩

theorem leads_ended (ended : r.ended = true) : Leads live r := by
  cases live with
  | nil => trivial
  | cons m rest => exact fun _ running => absurd (running.symm.trans ended) nofun

theorem leads_unrecorded {m : Moment} (unrecorded : m.recorded = false) : Leads (m :: live) r :=
  fun recorded _ => absurd (recorded.symm.trans unrecorded) nofun

theorem Remembers.of_alike {next : Run} (remembers : Remembers live r) (alike : next.Alike r) :
    Remembers live next :=
  ⟨alike.undo ▸ remembers.records, remembers.leads.of_alike alike⟩

theorem Remembers.of_ended (remembers : Remembers live r) {next : Run}
    (undo : next.debugger.undo = r.debugger.undo) (ended : next.ended = true) :
    Remembers live next :=
  ⟨undo ▸ remembers.records, leads_ended ended⟩

theorem undo_completed (d : Debugger) (i : Instruction) (change : Change) :
    ((breakIn d i).remember change).undo =
      if d.enabled then change :: d.undo else d.undo := by
  cases enabled : d.enabled with
  | true => exact undo_remember_breakIn enabled i change
  | false =>
    have kept : breakIn d i = d := by
      unfold breakIn
      split
      · rw [if_neg (by rw [enabled]; exact Bool.false_ne_true)]
      · rfl
    rw [kept, Debugger.remember, enabled]
    rfl

theorem Remembers.records_cons (remembers : Remembers live r) {change : Change}
    (place : change.pc = r.pc) {undo : List Change}
    (log : undo = if r.debugger.enabled then change :: r.debugger.undo else r.debugger.undo) :
    List.Forall₂ (fun change m => change.pc = m.machine.regs.pc) undo
      ((r.moment :: live).filter (·.recorded)) := by
  cases enabled : r.debugger.enabled with
  | true =>
    rw [enabled, if_pos rfl] at log
    have kept : r.moment.recorded = true := enabled
    rw [log, List.filter_cons_of_pos kept]
    exact .cons place remembers.records
  | false =>
    rw [enabled, if_neg Bool.false_ne_true] at log
    have lost : ¬ r.moment.recorded = true := Bool.eq_false_iff.mp enabled
    rw [log, List.filter_cons_of_neg lost]
    exact remembers.records

theorem Remembers.executed (remembers : Remembers live r) {entry : TextEntry} {change : Change}
    {s : Station} (running : r.ended = false) (found : r.entry? = some entry)
    (place : change.pc = r.pc) (undone : change.prior.restore s.machine = r.machine)
    (address : Word) :
    Remembers (r.moment :: live) (((r.absorb s).complete entry.instr change).moveTo address) := by
  have ahead := ahead_executed running found place undone address
  obtain ⟨console, events, taken⟩ := r.absorb_eq s
  refine ⟨remembers.records_cons place ?_, fun recorded goes => ?_⟩
  · rw [taken]
    exact undo_completed r.debugger entry.instr change
  · have enabled : r.debugger.enabled = true := recorded
    have answers := ahead.answers enabled goes
    have back : Alike (stepBack _).2 r := ahead.back enabled goes
    have answer : (stepBack _).1 = true := (List.cons.inj answers).1
    exact ⟨answer, back.machine, back.stats, remembers.leads.of_alike back⟩

theorem remembers_ticks {next : Run} {result : TickResult} (ways : r.Ticks result next)
    (remembers : Remembers live r) :
    Remembers (List.replicate result.executions r.moment ++ live) next := by
  cases ways with
  | finished => exact remembers.of_ended (by rw [debugger_finish]) (ended_finish r true)
  | paused running entry d hit =>
    obtain ⟨state, continuing, rfl⟩ := Debugger.shouldBreak_hit hit
    exact remembers.of_alike ⟨rfl, rfl, rfl, rfl, rfl⟩
  | failed running channels fault =>
    exact remembers.of_ended (by rw [fail, debugger_finish]; rfl) (ended_finish _ false)
  | awaiting running => exact remembers
  | executed running entry change s control found place undone =>
    cases control with
    | exit code =>
      obtain ⟨console, events, taken⟩ := r.absorb_eq s
      -- recorded all the same, but an ended run is not stepped back
      refine ⟨remembers.records_cons place ?_, leads_ended (ended_finish _ true)⟩
      rw [taken]
      exact (congrArg Debugger.undo (debugger_finish _ true)).trans
        (undo_completed r.debugger entry.instr change)
    | jump address => exact remembers.executed running found place undone address
    | next | await => exact remembers.executed running found place undone (r.pc + 4)

theorem Remembers.tick (remembers : Remembers live r) :
    Remembers (List.replicate r.tick.1.executions r.moment ++ live) r.tick.2 :=
  remembers_ticks r.ticks_tick remembers

theorem stepBack_ended (ended : r.ended = true) : r.stepBack = (false, r) := if_pos ended

theorem stepBack_empty (running : r.ended = false) (empty : r.debugger.undo = []) :
    r.stepBack = (false, r.emit (.step r.pc)) := by
  unfold stepBack
  rw [if_neg (by rw [running]; exact Bool.false_ne_true), empty]

theorem stepBack_record {change : Change} {undo : List Change} (running : r.ended = false)
    (newest : r.debugger.undo = change :: undo) :
    r.stepBack.1 = true ∧ r.stepBack.2.debugger.undo = undo ∧ r.stepBack.2.pc = change.pc := by
  unfold stepBack
  rw [if_neg (by rw [running]; exact Bool.false_ne_true), newest]
  dsimp only
  split <;> exact ⟨rfl, rfl, rfl⟩

theorem filter_eraseP {α : Type} (p : α → Bool) (xs : List α) :
    (xs.eraseP p).filter p = (xs.filter p).tail := by
  induction xs with
  | nil => rfl
  | cons x xs ih =>
    by_cases holds : p x = true
    · rw [List.eraseP_cons_of_pos holds, List.filter_cons_of_pos holds, List.tail_cons]
    · rw [List.eraseP_cons_of_neg holds, List.filter_cons_of_neg holds,
        List.filter_cons_of_neg holds, ih]

theorem Leads.back (leads : Leads live r) (running : r.ended = false) :
    Leads (live.eraseP (·.recorded)) r.stepBack.2 := by
  cases live with
  | nil => trivial
  | cons m rest =>
    cases recorded : m.recorded with
    | true =>
      rw [List.eraseP_cons_of_pos recorded]
      exact (leads recorded running).2.2.2
    | false =>
      rw [List.eraseP_cons_of_neg (by rw [recorded]; exact Bool.false_ne_true)]
      exact leads_unrecorded recorded

theorem Remembers.back (remembers : Remembers live r) :
    Remembers (r.chronicle live .back) r.stepBack.2 := by
  cases ended : r.ended with
  | true =>
    rw [chronicle, stepBack_ended ended]
    exact remembers
  | false =>
    cases log : r.debugger.undo with
    | nil =>
      rw [chronicle, stepBack_empty ended log]
      exact remembers.of_alike ⟨rfl, rfl, rfl, rfl, rfl⟩
    | cons change undo =>
      obtain ⟨answer, left, -⟩ := stepBack_record ended log
      have records := remembers.records
      rw [chronicle, if_pos answer]
      refine ⟨?_, remembers.leads.back ended⟩
      -- what is struck out is the first recorded moment, and the log loses its first record
      rw [left, filter_eraseP]
      rw [log] at records
      generalize live.filter (·.recorded) = kept at records ⊢
      cases records with
      | cons _ older => exact older

theorem Remembers.turn (remembers : Remembers live r) (t : Turn) :
    Remembers (r.chronicle live t) (r.turn t) := by
  cases t with
  | forth move =>
    exact perform_keeps Remembers.tick (fun kept alike _ => kept.of_alike alike) remembers move
  | back => exact remembers.back
  | enable enabled => exact remembers.of_alike ⟨rfl, rfl, rfl, rfl, rfl⟩

theorem Remembers.turnAll (remembers : Remembers live r) (turns : List Turn) :
    Remembers (r.chronicleOfAll live turns) (r.turnAll turns) :=
  turnAll_keeps (fun t _ _ _ kept => kept.turn t) remembers

theorem remembers_unrecorded (empty : r.debugger.undo = []) : Remembers [] r :=
  ⟨by rw [empty]; exact .nil, trivial⟩

/-- There is something to take back as long as some instruction of the chronicle was recorded; the
newest of these is the one that is taken back. -/
theorem Remembers.answers (remembers : Remembers live r) :
    (r.stepBack.1 = true ↔ r.ended = false ∧ ∃ m ∈ live, m.recorded = true) ∧
      (r.stepBack.1 = true → ∃ m, live.find? (·.recorded) = some m ∧
        r.stepBack.2.pc = m.machine.regs.pc) := by
  have records := remembers.records
  rw [← List.head?_filter]
  cases ended : r.ended with
  | true =>
    rw [stepBack_ended ended]
    exact ⟨by simp, nofun⟩
  | false =>
    cases log : r.debugger.undo with
    | nil =>
      rw [log, List.forall₂_nil_left_iff] at records
      rw [stepBack_empty ended log]
      refine ⟨?_, nofun⟩
      simpa using List.filter_eq_nil_iff.mp records
    | cons change undo =>
      rw [log, List.forall₂_cons_left_iff] at records
      obtain ⟨m, older, place, -, split⟩ := records
      obtain ⟨answer, -, pc⟩ := stepBack_record ended log
      have first : m ∈ live.filter (·.recorded) := split ▸ List.mem_cons_self
      obtain ⟨member, recorded⟩ := List.mem_filter.mp first
      refine ⟨iff_of_true answer ⟨rfl, m, member, recorded⟩, fun _ => ⟨m, ?_, pc.trans place⟩⟩
      rw [split, List.head?_cons]

/-- A run that starts with an empty undo log is moved, stepped back, and its debugger switched on
and off, in any order. Stepping back always goes to the newest instruction that was executed with
debugging enabled and has not been taken back. If no newer one was executed with debugging disabled,
it brings back the registers, the memory and the counts of the moment before that instruction. -/
theorem turnAll_stepBack (r : Run) (turns : List Turn) (empty : r.debugger.undo = []) :
    let later := r.turnAll turns
    let live := r.chronicleOfAll [] turns
    (later.stepBack.1 = true ↔ later.ended = false ∧ ∃ m ∈ live, m.recorded = true) ∧
    (later.stepBack.1 = true → ∃ m, live.find? (·.recorded) = some m ∧
      later.stepBack.2.pc = m.machine.regs.pc) ∧
    (∀ m older, live = m :: older → m.recorded = true → later.stepBack.1 = true →
      later.stepBack.2.machine = m.machine ∧ later.stepBack.2.stats = m.stats) := by
  intro later live
  have remembers : Remembers live later := (remembers_unrecorded empty).turnAll turns
  obtain ⟨answers, newest⟩ := remembers.answers
  refine ⟨answers, newest, fun m older split recorded answer => ?_⟩
  have running := (answers.mp answer).1
  have leads : Leads (m :: older) later := split ▸ remembers.leads
  obtain ⟨-, machine, stats, -⟩ := leads recorded running
  exact ⟨machine, stats⟩

def threeSums : Run :=
  let sum : Instruction := .imm .addiu Register.v0 Register.v0 1
  .start { readingLoop with text := entriesFrom MemoryMap.textBase [sum, sum, sum] }
    { debug := true } ⟨[], []⟩

def switchedOff : List Turn := [.forth .step, .enable false, .forth .step, .enable true]

def switchedOn : List Turn := switchedOff ++ [.forth .step]

/-- The third sum is recorded again, and stepping back undoes it exactly. -/
theorem turnAll_stepBack_threeSums :
    threeSums.debugger.undo = [] ∧
    ∃ m older, threeSums.chronicleOfAll [] switchedOn = m :: older ∧ m.recorded = true ∧
      m.machine.regs.read Register.v0 = 2 ∧
      (threeSums.turnAll switchedOn).stepBack.1 = true ∧
      (threeSums.turnAll switchedOn).stepBack.2.machine = m.machine ∧
      (threeSums.turnAll switchedOn).stepBack.2.stats = m.stats := by
  have before : (threeSums.chronicleOfAll [] switchedOn).head?.map (fun m =>
      (m.recorded, m.machine.regs.read Register.v0)) = some (true, 2) := by cbv
  have answer : (threeSums.turnAll switchedOn).stepBack.1 = true := by cbv
  obtain ⟨m, newest, seen⟩ := Option.map_eq_some_iff.mp before
  obtain ⟨recorded, value⟩ := Prod.mk.inj seen
  obtain ⟨older, split⟩ := List.head?_eq_some_iff.mp newest
  have back := (turnAll_stepBack threeSums switchedOn rfl).2.2 m older split recorded answer
  exact ⟨rfl, m, older, split, recorded, value, answer, back⟩

/-- The second sum is not recorded. Stepping back takes the first one back and leaves the second
one, so that the machine is not what it was before the second. -/
theorem stepBack_switchedOff :
    (threeSums.turnAll switchedOff).stepBack.1 = true ∧
    ∃ m older, threeSums.chronicleOfAll [] switchedOff = m :: older ∧
      m.machine.regs.read Register.v0 = 1 ∧ m.machine.regs.pc = 0x400004 ∧
      (threeSums.turnAll switchedOff).stepBack.2.machine.regs.read Register.v0 = 0 ∧
      (threeSums.turnAll switchedOff).stepBack.2.pc = 0x400000 ∧
      (threeSums.turnAll switchedOff).stepBack.2.machine ≠ m.machine := by
  have before : (threeSums.chronicleOfAll [] switchedOff).head?.map (fun m =>
      (m.machine.regs.read Register.v0, m.machine.regs.pc)) = some (1, 0x400004) := by cbv
  have after : ((threeSums.turnAll switchedOff).stepBack.1,
      (threeSums.turnAll switchedOff).stepBack.2.machine.regs.read Register.v0,
      (threeSums.turnAll switchedOff).stepBack.2.pc) = (true, 0, 0x400000) := by cbv
  obtain ⟨answer, rest⟩ := Prod.mk.inj after
  obtain ⟨value, pc⟩ := Prod.mk.inj rest
  obtain ⟨m, newest, seen⟩ := Option.map_eq_some_iff.mp before
  obtain ⟨one, place⟩ := Prod.mk.inj seen
  obtain ⟨older, split⟩ := List.head?_eq_some_iff.mp newest
  refine ⟨answer, m, older, split, one, place, value, pc, fun same => ?_⟩
  rw [same, one] at value
  exact absurd value (by decide)

end Run

end MipsLab
