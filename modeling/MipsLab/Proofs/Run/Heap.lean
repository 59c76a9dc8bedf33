import MipsLab.Proofs.Machine.Stretches
import MipsLab.Proofs.Run.Counts
import MipsLab.Proofs.Run.Executed
import MipsLab.Proofs.Run.HeapSteps

/-! The heap of a run. Calls for heap move its end upwards, and stepping back puts it where it was
before a call. So the blocks of all calls that have not been taken back lie one behind the other,
between the start of the heap and the stack. -/
namespace MipsLab

/-- The bytes that a call for heap is answered with. -/
def Machine.heapBlock (m : Machine) : Stretch :=
  ⟨m.mem.heapTop, (m.regs.read Register.a0).toNat⟩

namespace Run

theorem Executes.heapStep {r : Run} {entry : TextEntry} {p : Prior} {s : Station}
    {control : Control} (executes : r.Executes entry p s control) :
    r.machine.HeapStep entry.instr r.tick.2.machine := by
  obtain ⟨console, events, taken⟩ := r.absorb_eq s
  obtain ⟨target, machine⟩ :=
    ((r.absorb s).complete entry.instr ⟨r.pc, p⟩).machine_follow r.pc control
  have step : r.machine.HeapStep entry.instr s.machine :=
    (heapStep_react executes.recorded).of_ok executes.reacted
  rw [executes.ticked, machine, taken]
  exact step.setPc target

theorem machine_stepBack {r : Run} {change : Change} {undo : List Change}
    (running : r.ended = false) (newest : r.debugger.undo = change :: undo) :
    r.stepBack.2.machine = change.revert r.machine := by
  unfold stepBack
  rw [if_neg (by rw [running]; exact Bool.false_ne_true), newest]
  dsimp only
  split <;> rfl

/-- The heap ends where it may, and so it does after whatever can be stepped back to. -/
structure HeapSound (r : Run) : Prop where
  top : HeapEnd r.machine.mem.heapTop
  records : ∀ c ∈ r.debugger.undo, ∀ k : Machine, HeapEnd k.mem.heapTop →
    HeapEnd (c.prior.restore k).mem.heapTop

namespace HeapSound

variable {r : Run}

theorem tick (sound : r.HeapSound) : r.tick.2.HeapSound := by
  by_cases executed : r.tick.1.executions = 0
  · obtain ⟨machine, undo⟩ := tick_idle executed
    exact ⟨machine ▸ sound.top, undo ▸ sound.records⟩
  · obtain ⟨entry, p, s, control, executes⟩ := tick_executes executed
    have newest (k : Machine) (ends : HeapEnd k.mem.heapTop) :
        HeapEnd (p.restore k).mem.heapTop := by
      obtain ⟨-, rfl⟩ | kept := Prior.of_cases executes.recorded
      · exact sound.top
      · exact (kept k).symm ▸ ends
    refine ⟨executes.heapStep.heapEnd sound.top, ?_⟩
    rw [executes.undo]
    split
    · exact List.forall_mem_cons.mpr ⟨newest, sound.records⟩
    · exact sound.records

theorem stepBack (sound : r.HeapSound) : r.stepBack.2.HeapSound := by
  cases ended : r.ended with
  | true =>
    rw [stepBack_ended ended]
    exact sound
  | false =>
    cases log : r.debugger.undo with
    | nil =>
      rw [stepBack_empty ended log]
      exact ⟨sound.top, sound.records⟩
    | cons change undo =>
      have records := sound.records
      rw [log, List.forall_mem_cons] at records
      refine ⟨?_, ?_⟩
      · rw [machine_stepBack ended log]
        exact records.1 r.machine sound.top
      · rw [(stepBack_record ended log).2.1]
        exact records.2

theorem turn (sound : r.HeapSound) (t : Turn) : (r.turn t).HeapSound := by
  cases t with
  | forth move =>
    have alike {a b : Run} (kept : a.HeapSound) (same : b.Alike a) : b.HeapSound :=
      ⟨same.machine ▸ kept.top, same.undo ▸ kept.records⟩
    exact @perform_keeps (fun _ r => r.HeapSound) [] r HeapSound.tick
      (fun kept same _ => alike kept same) sound move
  | back => exact sound.stepBack
  | enable enabled => exact ⟨sound.top, sound.records⟩

end HeapSound

end Run

/-- The next instruction is a call for heap. -/
def Program.callsHeap (p : Program) (m : Machine) : Bool :=
  (p.entryAt? m.regs.pc).any fun entry => m.AsksHeap entry.instr

/-- The blocks of the calls in a chronicle, oldest first. -/
def Program.heapBlocks (p : Program) (live : List Run.Moment) : List Stretch :=
  ((live.filter fun moment => p.callsHeap moment.machine).map (·.machine.heapBlock)).reverse

namespace Run

variable {p : Program} {live : List Moment} {r : Run}

theorem heapBlocks_cons (p : Program) (moment : Moment) (older : List Moment) :
    p.heapBlocks (moment :: older) = p.heapBlocks older ++
      if p.callsHeap moment.machine then [moment.machine.heapBlock] else [] := by
  unfold Program.heapBlocks
  cases calls : p.callsHeap moment.machine <;> simp [calls]

/-- The moments lead, one instruction after another, from a fresh heap to the machine. -/
def Rises (p : Program) : List Moment → Machine → Prop
  | [], m => m.mem.heapTop = MemoryMap.heapBase
  | moment :: older, m =>
    (∃ entry, p.entryAt? moment.machine.regs.pc = some entry ∧
      moment.machine.HeapStep entry.instr m) ∧ Rises p older moment.machine

/-- What is between the start of the heap and its end. -/
structure Tiles (blocks : List Stretch) (top : Word) : Prop where
  ordered : blocks.Pairwise Stretch.Before
  inside : ∀ b ∈ blocks,
    MemoryMap.heapBase.toNat ≤ b.first.toNat ∧ b.first.toNat + b.size ≤ top.toNat

/-- One more call puts its block behind all others. -/
theorem Tiles.grow {blocks : List Stretch} {m k : Machine} (tiles : Tiles blocks m.mem.heapTop)
    (sound : HeapEnd m.mem.heapTop) (grows : m.Grows k) :
    Tiles (blocks ++ [m.heapBlock]) k.mem.heapTop := by
  have grown := grows.grown
  unfold Machine.heapNext at grown
  constructor
  · rw [List.pairwise_append]
    refine ⟨tiles.ordered, List.pairwise_singleton _ _, fun b member c last => ?_⟩
    rw [List.mem_singleton.mp last]
    exact (tiles.inside b member).2
  · intro b member
    obtain member | member := List.mem_append.mp member
    · obtain ⟨first, last⟩ := tiles.inside b member
      exact ⟨first, by omega⟩
    · rw [List.mem_singleton.mp member]
      refine ⟨sound.low, ?_⟩
      simp only [Machine.heapBlock]
      omega

theorem Rises.tiles {m : Machine} (rises : Rises p live m) :
    HeapEnd m.mem.heapTop ∧ Tiles (p.heapBlocks live) m.mem.heapTop := by
  induction live generalizing m with
  | nil =>
    have fresh : m.mem.heapTop = MemoryMap.heapBase := rises
    rw [fresh]
    exact ⟨heapEnd_base, .nil, nofun⟩
  | cons moment older ih =>
    obtain ⟨⟨entry, found, step⟩, earlier⟩ := rises
    obtain ⟨sound, tiles⟩ := ih earlier
    have calls : p.callsHeap moment.machine = decide (moment.machine.AsksHeap entry.instr) := by
      rw [Program.callsHeap, found, Option.any_some]
    refine ⟨step.heapEnd sound, ?_⟩
    rw [heapBlocks_cons, calls]
    by_cases asks : moment.machine.AsksHeap entry.instr
    · rw [if_pos (decide_eq_true asks)]
      exact tiles.grow sound ((Machine.heapStep_call asks).mp step)
    · rw [if_neg (by simpa using asks), List.append_nil,
        (Machine.heapStep_other asks).mp step]
      exact tiles

/-- The chronicle of a run whose debugger has not been switched off. From some instruction on, all
are recorded, so that stepping back takes back the newest one or nothing. -/
structure Stacked (p : Program) (live : List Moment) (r : Run) : Prop where
  program : r.program = p
  remembers : Remembers live r
  rises : Rises p live r.machine
  recording : ∀ m ∈ live, m.recorded = true → r.debugger.enabled = true
  unbroken : live.Pairwise fun newer older => older.recorded = true → newer.recorded = true

theorem stepBack_refused {r : Run} (refused : r.stepBack.1 = false) :
    r.stepBack.2.machine = r.machine := by
  cases ended : r.ended with
  | true => rw [stepBack_ended ended]
  | false =>
    cases log : r.debugger.undo with
    | nil => rw [stepBack_empty ended log]; rfl
    | cons change undo =>
      exact absurd ((stepBack_record ended log).1.symm.trans refused) nofun

namespace Stacked

theorem tick (stacked : Stacked p live r) :
    Stacked p (List.replicate r.tick.1.executions r.moment ++ live) r.tick.2 := by
  have remembers := stacked.remembers.tick
  have enabled := r.ahead_tick.enabled
  have program := r.program_tick.trans stacked.program
  obtain idle | executed := Nat.le_one_iff_eq_zero_or_eq_one.mp (executions_le r.tick.1)
  · rw [idle] at remembers ⊢
    have machine := (tick_idle idle).1
    exact ⟨program, remembers, machine ▸ stacked.rises, enabled ▸ stacked.recording,
      stacked.unbroken⟩
  · obtain ⟨entry, prior, s, control, executes⟩ := tick_executes (r := r) (by omega)
    rw [executed] at remembers ⊢
    refine ⟨program, remembers, ⟨⟨entry, ?_, executes.heapStep⟩, stacked.rises⟩, ?_, ?_⟩
    · rw [← stacked.program]
      exact executes.found
    · rw [enabled]
      exact List.forall_mem_cons.mpr ⟨id, stacked.recording⟩
    · exact List.pairwise_cons.mpr ⟨stacked.recording, stacked.unbroken⟩

theorem of_alike {a b : Run} (stacked : Stacked p live a) (alike : b.Alike a)
    (enabled : b.debugger.enabled = a.debugger.enabled) : Stacked p live b :=
  ⟨alike.program.trans stacked.program, stacked.remembers.of_alike alike,
    alike.machine ▸ stacked.rises, enabled ▸ stacked.recording, stacked.unbroken⟩

theorem back (stacked : Stacked p live r) : Stacked p (r.chronicle live .back) r.stepBack.2 := by
  have remembers := stacked.remembers.back
  have program := r.program_stepBack.trans stacked.program
  have enabled := r.enabled_stepBack
  cases answer : r.stepBack.1 with
  | false =>
    have same : r.chronicle live .back = live := by simp [chronicle, answer]
    rw [same] at remembers ⊢
    exact ⟨program, remembers, stepBack_refused answer ▸ stacked.rises,
      enabled ▸ stacked.recording, stacked.unbroken⟩
  | true =>
    obtain ⟨running, old, member, recorded⟩ := stacked.remembers.answers.1.mp answer
    obtain ⟨newest, rest, rfl⟩ := List.exists_cons_of_ne_nil (List.ne_nil_of_mem member)
    obtain ⟨later, unbroken⟩ := List.pairwise_cons.mp stacked.unbroken
    have kept : newest.recorded = true := by
      obtain rfl | member := List.mem_cons.mp member
      · exact recorded
      · exact later old member recorded
    have struck : r.chronicle (newest :: rest) .back = rest := by simp [chronicle, answer, kept]
    have machine := (stacked.remembers.leads kept running).2.1
    rw [struck] at remembers ⊢
    exact ⟨program, remembers, machine ▸ stacked.rises.2,
      enabled ▸ fun m member => stacked.recording m (List.mem_cons_of_mem newest member), unbroken⟩

theorem turn (stacked : Stacked p live r) {t : Turn} (stays : t ≠ .enable false) :
    Stacked p (r.chronicle live t) (r.turn t) := by
  cases t with
  | forth move => exact perform_keeps (Q := Stacked p) Stacked.tick Stacked.of_alike stacked move
  | back => exact stacked.back
  | enable enabled =>
    cases enabled with
    | false => exact absurd rfl stays
    | true =>
      exact ⟨stacked.program, stacked.remembers.turn (.enable true), stacked.rises,
        fun _ _ _ => rfl, stacked.unbroken⟩

end Stacked

theorem heapTop_setArguments (r : Run) (args : List String) :
    (r.setArguments args).machine.mem.heapTop = r.machine.mem.heapTop := by
  have texts (m : Memory) : (m.storeTexts args).2.2.heapTop = m.heapTop := by
    induction args with
    | nil => rfl
    | cons text rest ih => exact (Memory.heapTop_pokeBytes _ _ _).trans ih
  have words (m : Memory) (a : Word) (table : List Word) :
      (m.storeWords a table).heapTop = m.heapTop := by
    induction table generalizing m a with
    | nil => rfl
    | cons w rest ih => exact (ih _ _).trans (Memory.heapTop_pokeBytes m a _)
  unfold setArguments
  split
  · rfl
  · exact (words _ _ _).trans (texts r.machine.mem)

theorem launch_fresh (program : Program) (settings : Settings) (tree : FileTree)
    (args : List String) :
    (launch program settings tree args).program = program ∧
      (launch program settings tree args).debugger.undo = [] ∧
      (launch program settings tree args).machine.mem.heapTop = MemoryMap.heapBase := by
  have heap := heapTop_setArguments (start program settings tree) args
  refine ⟨?_, ?_, heap⟩
  all_goals
    unfold launch setArguments
    split <;> rfl

/-- The next tick executes a call for heap. -/
structure CallsHeap (r : Run) (entry : TextEntry) : Prop where
  running : r.ended = false
  unlimited : r.reachedLimit? = none
  next : r.next? = some entry
  passes : r.pausesAt entry = false
  asks : r.machine.AsksHeap entry.instr

theorem tick_callsHeap {r : Run} {entry : TextEntry} (calls : r.CallsHeap entry) :
    (r.machine.HasRoom → r.tick.1 = .ok .executed ∧ r.machine.Grows r.tick.2.machine) ∧
    (¬ r.machine.HasRoom → (∃ e, r.tick.1 = .error e) ∧ r.tick.2.machine = r.machine) := by
  obtain ⟨call, code⟩ := calls.asks
  have met := Syscall.perform_callsHeap (s := r.station) code
  have captured : Change.capture r.machine r.pc .syscall =
      .ok ⟨r.pc, .ofSyscall r.machine⟩ := rfl
  have ticked := tick_passing calls.running calls.next calls.passes
  simp only [passEntry, calls.unlimited, executeEntry, call, captured, react] at ticked
  cases performed : Syscall.perform r.station with
  | ok control s =>
    obtain ⟨rfl, grows⟩ := met.of_ok performed
    obtain ⟨console, events, taken⟩ := r.absorb_eq s
    simp only [performed, taken] at ticked
    rw [ticked]
    exact ⟨fun _ => ⟨rfl, grows.room, grows.answer, grows.grown⟩, fun full =>
      absurd grows.room full⟩
  | error f s =>
    obtain ⟨full, same⟩ := met.of_error performed
    obtain ⟨console, events, taken⟩ := r.absorb_eq s
    simp only [performed, taken] at ticked
    rw [ticked]
    exact ⟨fun room => absurd room full, fun _ => ⟨⟨_, rfl⟩, (machine_finish _ false).trans same⟩⟩

/-- What a tick does that executes a call for heap: it moves the end of the heap up and answers with
the old one, or there is no room and it fails. -/
structure HeapCall (r : Run) : Prop where
  succeeds : r.machine.HasRoom → r.tick.1 = .ok .executed ∧
    r.tick.2.machine.regs.read Register.v0 = r.machine.mem.heapTop ∧
    r.machine.heapBlock.first.toNat + r.machine.heapBlock.size ≤
      r.tick.2.machine.mem.heapTop.toNat ∧
    r.tick.2.machine.mem.heapTop.toNat <
      r.machine.heapBlock.first.toNat + r.machine.heapBlock.size + 4
  fails : ¬ r.machine.HasRoom → (∃ e, r.tick.1 = .error e) ∧
    r.tick.2.machine.mem.heapTop = r.machine.mem.heapTop

theorem heapCall {r : Run} {entry : TextEntry} (calls : r.CallsHeap entry) : r.HeapCall := by
  obtain ⟨succeeds, fails⟩ := tick_callsHeap calls
  refine ⟨fun room => ?_, fun full => ?_⟩
  · obtain ⟨executed, grows⟩ := succeeds room
    have grown := grows.grown
    unfold Machine.heapNext at grown
    refine ⟨executed, grows.answer, ?_, ?_⟩
    all_goals
      simp only [Machine.heapBlock]
      omega
  · obtain ⟨failed, same⟩ := fails full
    exact ⟨failed, by rw [same]⟩

/-- Wherever a run has got to, its heap ends at a whole word between its start and the stack, and
the next call for heap is answered with the old end or leaves it where it is. As long as the
debugger is not switched off, the blocks of all calls that have not been taken back lie one behind
the other below that end. With the debugger off, stepping back would take back an older call in
place of the newest one. -/
theorem turnAll_heap (program : Program) (settings : Settings) (tree : FileTree)
    (args : List String) (turns : List Turn) :
    let r := (launch program settings tree args).turnAll turns
    let blocks :=
      program.heapBlocks ((launch program settings tree args).chronicleOfAll [] turns)
    HeapEnd r.machine.mem.heapTop ∧
    (∀ entry, r.CallsHeap entry → r.HeapCall) ∧
    ((∀ t ∈ turns, t ≠ .enable false) →
      blocks.Pairwise (fun b c => b.Before c ∧ b.addresses.Disjoint c.addresses) ∧
      ∀ b ∈ blocks, MemoryMap.heapBase.toNat ≤ b.first.toNat ∧
        b.first.toNat + b.size ≤ r.machine.mem.heapTop.toNat) := by
  intro r blocks
  obtain ⟨same, empty, fresh⟩ := launch_fresh program settings tree args
  have sound : r.HeapSound := by
    have start : (launch program settings tree args).HeapSound := by
      refine ⟨fresh ▸ heapEnd_base, ?_⟩
      rw [empty]
      exact nofun
    exact @turnAll_keeps (fun _ r => r.HeapSound) [] _ turns (fun t _ _ _ kept => kept.turn t) start
  refine ⟨sound.top, fun _ => heapCall, fun stays => ?_⟩
  have stacked : Stacked program ((launch program settings tree args).chronicleOfAll [] turns) r :=
    turnAll_keeps (Q := Stacked program) (fun t member _ _ kept => kept.turn (stays t member))
      ⟨same, remembers_unrecorded empty, fresh, nofun, .nil⟩
  obtain ⟨ends, tiles⟩ := stacked.rises.tiles
  refine ⟨tiles.ordered.imp_of_mem fun {b c} _ member before => ⟨before, before.disjoint ?_⟩,
    tiles.inside⟩
  have last := (tiles.inside c member).2
  have below := r.machine.mem.heapTop.isLt
  omega

/-- Asks three times for five bytes. -/
def askingProgram : Program :=
  let code : Instruction := .imm .addiu Register.v0 Register.zero 9
  let text := entriesFrom MemoryMap.textBase
    [.imm .addiu Register.a0 Register.zero 5, code, .syscall, code, .syscall, code, .syscall]
  { readingLoop with text }

def askingRun : Run := launch askingProgram { debug := true } ⟨[], []⟩ []

/-- The third call is taken back and is then about to be made again. -/
def askingTurns : List Turn :=
  List.replicate 7 (.forth .step) ++ [.back, .forth (.resume .step)]

theorem turnAll_heap_askingRun :
    HeapEnd (askingRun.turnAll askingTurns).machine.mem.heapTop ∧
    (askingRun.turnAll askingTurns).machine.HasRoom ∧
    (askingRun.turnAll askingTurns).HeapCall ∧
    askingProgram.heapBlocks (askingRun.chronicleOfAll [] askingTurns) =
      [⟨0x10040000, 5⟩, ⟨0x10040008, 5⟩] ∧
    (askingProgram.heapBlocks (askingRun.chronicleOfAll [] askingTurns)).Pairwise
      fun b c => b.Before c ∧ b.addresses.Disjoint c.addresses := by
  have calls : (askingRun.turnAll askingTurns).CallsHeap
      ⟨0x400018, .syscall, ⟨"echo.s", 1⟩, "", false, true⟩ :=
    ⟨by cbv, by cbv, by cbv, by cbv, rfl, by cbv⟩
  have amount : (askingRun.turnAll askingTurns).machine.regs.read Register.a0 = 5 := by cbv
  have top : (askingRun.turnAll askingTurns).machine.mem.heapTop = 0x10040010 := by cbv
  have room : (askingRun.turnAll askingTurns).machine.HasRoom := by
    rw [Machine.HasRoom, Machine.heapNext, amount, top]
    decide
  have blocks : askingProgram.heapBlocks (askingRun.chronicleOfAll [] askingTurns) =
      [⟨0x10040000, 5⟩, ⟨0x10040008, 5⟩] := by cbv
  obtain ⟨ends, call, tiled⟩ :=
    turnAll_heap askingProgram { debug := true } ⟨[], []⟩ [] askingTurns
  exact ⟨ends, room, call _ calls, blocks, (tiled (by decide)).1⟩

end Run

end MipsLab
