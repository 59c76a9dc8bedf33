import MipsLab.Proofs.Machine.Filler
import MipsLab.Proofs.Run.Counts

/-! Runs under two fillings. As long as every byte that is read has been written, a run does the
same whether memory that was never written reads as zero or as filler. Two such runs differ in the
setting and in the filler that their change records hold, and in nothing else, and stepping back
cannot tell them apart. -/
namespace MipsLab

open Exec

namespace Station

def withGarbage (s : Station) (g : Bool) : Station := { s with machine := s.machine.withGarbage g }

theorem framed_onMachine {α : Type} {g : Bool} {s : Station} {first second : Exec Machine α}
    (framed : Framed (fun m : Machine => m.withGarbage g) s.machine first second) :
    Framed (fun t : Station => t.withGarbage g) s (onMachine first) (onMachine second) := by
  have ran : first (s.withGarbage g).machine =
      after (fun m : Machine => m.withGarbage g) (second s.machine) := framed
  unfold Framed onMachine
  dsimp only
  rw [ran]
  cases second s.machine <;> rfl

end Station

namespace Syscall

open Station (onMachine framed_onMachine)

variable {g : Bool} {s : Station}

theorem dumpLines_eq (m : Memory) (count : Nat) (a : Word) : dumpLines m count a =
    m.readRows .word (fun a value => hexWord a ++ ": " ++ hexWord (BitVec.ofNat 32 value) ++ "\n")
      count a := by
  induction count generalizing a with
  | zero => rfl
  | succ count ih =>
    unfold dumpLines Memory.readRows Memory.readWord
    rw [ih]
    cases m.read a .word <;> rfl

/-- How many words are shown from `first` up to `last`. -/
def dumped (first last : Word) : Nat := (last.toNat - first.toNat + 3) / 4

theorem dump_withGarbage {m : Memory} {first last : Word}
    (known : m.Known (Memory.readWhole (dump m first last) first (4 * dumped first last))) :
    dump (m.withGarbage g) first last = dump m first last := by
  unfold dump at known ⊢
  rw [dumpLines_eq] at known
  rw [dumpLines_eq, dumpLines_eq]
  refine congrArg _ (Memory.readRows_withGarbage g ?_)
  change m.Known (Memory.readWhole _ first (4 * dumped first last))
  unfold dumped at known ⊢
  generalize m.readRows _ _ _ _ = rows at known ⊢
  cases rows <;> exact known

/-- The bytes that a service reads. A buffer or a stretch to be shown is read as a whole, or not if
some of it cannot be read. -/
def loaded (m : Machine) : Service → List Word
  | .printString | .openFile => m.mem.stringRead Memory.maxString (m.regs.read Register.a0)
  | .writeFile =>
    let a := m.regs.read Register.a1
    let n := Memory.bufferLength (m.regs.read Register.a2)
    Memory.readWhole (m.mem.readBytes a n) a n
  | .dumpMemory =>
    let first := m.regs.read Register.a0
    let last := m.regs.read Register.a1
    Memory.readWhole (dump m.mem first last) first (4 * dumped first last)
  | _ => []

/-- Work that does the same in `s` under either filling. -/
def Steady (g : Bool) (s : Station) (work : Exec Station Control) : Prop :=
  Framed (fun t : Station => t.withGarbage g) s work work

theorem steady_next {work : Exec Machine Unit}
    (framed : Framed (fun m : Machine => m.withGarbage g) s.machine work work) :
    Steady g s (do onMachine work; return .next) :=
  framed_bind (framed_onMachine framed) fun _ _ => framed_pure _

theorem steady_answer (value : Word) : Steady g s (answer value) := steady_next (framed_modify rfl)

theorem framed_printing {shown other : Except Fault String} (same : shown = other) :
    Framed (fun t : Station => t.withGarbage g) s (printing shown) (printing other) :=
  framed_found same fun _ => framed_bind (framed_modify rfl) fun _ _ => framed_pure _

theorem steady_reading {use : String → Exec Machine Unit}
    (framed : ∀ text m, Framed (fun m : Machine => m.withGarbage g) m (use text) (use text)) :
    Steady g s (reading use) := by
  have taken : Framed (fun t : Station => t.withGarbage g) s takeInput takeInput := rfl
  refine framed_bind taken fun delivered t => ?_
  cases delivered with
  | none => exact framed_pure _
  | some text => exact steady_next (framed text t.machine)

section Readers

variable (text : String) (m : Machine)

theorem framed_readInt :
    Framed (fun m : Machine => m.withGarbage g) m (readInt text) (readInt text) :=
  framed_require _ fun _ => framed_modify rfl

theorem framed_readFloat :
    Framed (fun m : Machine => m.withGarbage g) m (readFloat text) (readFloat text) :=
  framed_require _ fun _ => framed_modify rfl

theorem framed_readDouble :
    Framed (fun m : Machine => m.withGarbage g) m (readDouble text) (readDouble text) :=
  framed_require _ fun _ => framed_update (m.setDouble_withGarbage g _ _)

theorem framed_readChar :
    Framed (fun m : Machine => m.withGarbage g) m (readChar text) (readChar text) := by
  unfold readChar
  split
  · rfl
  · exact framed_modify rfl

theorem framed_readString :
    Framed (fun m : Machine => m.withGarbage g) m (readString text) (readString text) := by
  refine framed_get ?_
  dsimp only [Machine.withGarbage]
  split
  · exact framed_pure ()
  · exact framed_update (m.storeBytes_withGarbage g _ _)

theorem framed_deliver (bytes : List Byte) :
    Framed (fun m : Machine => m.withGarbage g) m (deliver bytes) (deliver bytes) := by
  refine framed_get (framed_bind ?_ fun _ _ => framed_modify rfl)
  exact framed_update (m.storeBytes_withGarbage g _ bytes)

theorem framed_extendHeap :
    Framed (fun m : Machine => m.withGarbage g) m extendHeap extendHeap := by
  have grown := m.mem.extendHeap_withGarbage g (m.regs.read Register.a0)
  refine framed_get (framed_found_map grown fun _ => ?_)
  exact framed_bind (framed_modify rfl) fun _ _ => framed_modify rfl

end Readers

theorem steady_openFile (known : s.machine.mem.Known (loaded s.machine .openFile)) :
    Steady g s openFile := by
  have name := Memory.readStringTo_withGarbage g known
  refine framed_get (framed_found name fun text => ?_)
  exact framed_bind (framed_modify rfl) fun _ _ => steady_answer _

theorem steady_readFile : Steady g s readFile := by
  refine framed_get ?_
  change Steady g s _
  dsimp only
  split
  · exact steady_answer _
  · split
    · exact steady_reading fun _ m => framed_deliver m _
    · split
      · exact steady_answer _
      · exact framed_bind (framed_modify rfl) fun _ t => steady_next (framed_deliver t.machine _)

theorem steady_writeFile (known : s.machine.mem.Known (loaded s.machine .writeFile)) :
    Steady g s writeFile := by
  have data := Memory.readBytes_withGarbage g known
  refine framed_get (framed_found data fun bytes => ?_)
  change Steady g s _
  split
  · exact framed_bind (framed_modify rfl) fun _ _ => steady_answer _
  · split
    · exact framed_bind (framed_modify rfl) fun _ _ => steady_answer _
    · exact steady_answer _

theorem steady_serve {service : Service} (known : s.machine.mem.Known (loaded s.machine service)) :
    Steady g s (serve service) := by
  refine framed_get ?_
  cases service with
  | printInt | printFloat | printDouble | printChar | printHex | printBinary | printUnsigned =>
    exact framed_printing rfl
  | printString =>
    exact framed_printing (congrArg _ (Memory.readStringTo_withGarbage g known))
  | dumpMemory => exact framed_printing (dump_withGarbage known)
  | readInt => exact steady_reading framed_readInt
  | readFloat => exact steady_reading framed_readFloat
  | readDouble => exact steady_reading framed_readDouble
  | readString => exact steady_reading framed_readString
  | readChar => exact steady_reading framed_readChar
  | extendHeap => exact steady_next (framed_extendHeap s.machine)
  | exit | exitWith => exact framed_pure _
  | openFile => exact steady_openFile known
  | readFile => exact steady_readFile
  | writeFile => exact steady_writeFile known
  | closeFile => rfl

end Syscall

/-- The bytes that an instruction reads, in a call for a service as well. -/
def Machine.bytesRead (m : Machine) : Instruction → List Word
  | .syscall =>
    ((Service.ofCode? (m.regs.read Register.v0)).map (Syscall.loaded m)).getD []
  | i => m.loaded i

theorem Syscall.steady_perform {g : Bool} {s : Station}
    (known : s.machine.mem.Known (s.machine.bytesRead .syscall)) : Steady g s perform := by
  refine framed_get ?_
  change Steady g s _
  dsimp only
  split
  · next service found =>
    change Service.ofCode? (s.machine.regs.read Register.v0) = some service at found
    rw [Machine.bytesRead, found] at known
    exact steady_serve known
  · rfl

/-- A debugger whose records were taken under another filling. -/
def Debugger.refill (g : Bool) (d : Debugger) : Debugger :=
  { d with undo := d.undo.map (Change.refill g) }

theorem Debugger.remember_refill (d : Debugger) (g : Bool) (c : Change) :
    (d.refill g).remember (c.refill g) = (d.remember c).refill g := by
  unfold remember
  change (if d.enabled then _ else _) = _
  split <;> rfl

theorem Debugger.shouldBreak_refill (d : Debugger) (g : Bool) (entry : TextEntry) :
    (d.refill g).shouldBreak entry =
      ((d.shouldBreak entry).1, (d.shouldBreak entry).2.refill g) := by
  unfold shouldBreak
  change (if !d.enabled then _ else
    if entry.first && d.breakpoints.contains entry.tag then _
    else if d.continuing then _ else _) = _
  split
  · rfl
  · split
    · rfl
    · split <;> rfl

namespace Run

theorem steady_react {g : Bool} {s : Station} {pc : Word} {i : Instruction}
    (known : s.machine.mem.Known (s.machine.bytesRead i)) : Syscall.Steady g s (react pc i) := by
  by_cases call : i = .syscall
  · subst call
    exact Syscall.steady_perform known
  · have plain : s.machine.bytesRead i = s.machine.loaded i := by
      cases i <;> first | rfl | exact absurd rfl call
    rw [plain] at known
    rw [react_work call]
    exact Station.framed_onMachine (Machine.framed_execute_filling g pc known)

/-- The run as it would be under a filling, with the filler that its records would hold. -/
def withGarbage (g : Bool) (r : Run) : Run :=
  { r with machine := r.machine.withGarbage g, debugger := r.debugger.refill g }

theorem breakIn_refill (d : Debugger) (g : Bool) (i : Instruction) :
    breakIn (d.refill g) i = (breakIn d i).refill g := by
  cases i with
  | breakpoint code =>
    change (if d.enabled then _ else _) = Debugger.refill g (if d.enabled then _ else _)
    split <;> rfl
  | _ => rfl

/-- The outcome of a tick as it would be under a filling. -/
def refilled (g : Bool) (outcome : TickResult × Run) : TickResult × Run :=
  (outcome.1, outcome.2.withGarbage g)

/-- The instruction that the next tick tries to execute, unless it pauses or has reached its
limit. -/
def attempted? (r : Run) : Option Instruction :=
  if r.ended || r.reachedLimit?.isSome then none
  else r.next?.bind fun entry => if r.pausesAt entry then none else some entry.instr

/-- The bytes that the next tick reads. -/
def bytesRead (r : Run) : List Word := (r.attempted?.map r.machine.bytesRead).getD []

/-- All bytes that the next tick reads have been written. -/
def ReadsWritten (r : Run) : Prop := r.machine.mem.Known r.bytesRead

instance (r : Run) : Decidable r.ReadsWritten := inferInstanceAs (Decidable (r.machine.mem.Known _))

section Tick

variable (r : Run) (g : Bool)

theorem absorb_withGarbage (s : Station) :
    (r.withGarbage g).absorb (s.withGarbage g) = (r.absorb s).withGarbage g := by
  have printed (texts : List String) (r : Run) :
      texts.foldl print (r.withGarbage g) = (texts.foldl print r).withGarbage g := by
    induction texts generalizing r with
    | nil => rfl
    | cons text rest ih => exact ih (r.print text)
  exact congrArg (fun k : Run =>
    { k with machine := s.machine.withGarbage g, channels := s.channels }) (printed s.printed r)

theorem finish_withGarbage (success : Bool) :
    (r.withGarbage g).finish success = (r.finish success).withGarbage g := by
  unfold finish
  change (if r.ended then _ else _) = _
  split <;> rfl

theorem fail_withGarbage (pc : Word) (fault : Fault) :
    (r.withGarbage g).fail pc fault = refilled g (r.fail pc fault) :=
  congrArg (Prod.mk _) (finish_withGarbage (r.emit _) g false)

theorem complete_withGarbage (i : Instruction) (change : Change) :
    (r.withGarbage g).complete i (change.refill g) = (r.complete i change).withGarbage g := by
  have kept := (breakIn r.debugger i).remember_refill g change
  rw [← breakIn_refill] at kept
  exact congrArg (fun debugger => { (r.withGarbage g).complete i change with debugger }) kept

theorem follow_withGarbage (pc : Word) (control : Control) :
    (r.withGarbage g).follow pc control =
      ((r.follow pc control).1, (r.follow pc control).2.withGarbage g) := by
  cases control with
  | exit code => exact congrArg (Prod.mk _) (r.finish_withGarbage g true)
  | _ => rfl

theorem executeEntry_withGarbage {r : Run} {pc : Word} {entry : TextEntry}
    (known : r.machine.mem.Known (r.machine.bytesRead entry.instr)) :
    (r.withGarbage g).executeEntry pc entry = refilled g (r.executeEntry pc entry) := by
  have ran : react pc entry.instr (r.withGarbage g).station =
      after (fun s : Station => s.withGarbage g) (react pc entry.instr r.station) :=
    steady_react (s := r.station) known
  have recorded : Change.capture (r.withGarbage g).machine pc entry.instr = _ :=
    Change.capture_withGarbage r.machine g pc entry.instr
  unfold executeEntry
  rw [ran, recorded]
  cases Change.capture r.machine pc entry.instr with
  | error f => exact r.fail_withGarbage g pc f
  | ok change =>
    dsimp only [Except.map]
    cases react pc entry.instr r.station with
    | error f s =>
      dsimp only [after]
      rw [absorb_withGarbage]
      exact fail_withGarbage _ g pc f
    | ok control s =>
      have absorbed := r.absorb_withGarbage g s
      have done := complete_withGarbage (r.absorb s) g entry.instr change
      cases control with
      | await => exact congrArg (Prod.mk (Except.ok Tick.awaiting)) absorbed
      | next | jump | exit =>
        dsimp only [after]
        rw [absorbed, done, follow_withGarbage]
        rfl

theorem pausesAt_withGarbage (entry : TextEntry) :
    (r.withGarbage g).pausesAt entry = r.pausesAt entry := by
  have asked := r.debugger.shouldBreak_refill g entry
  change (!r.skipCheck && ((r.debugger.refill g).shouldBreak entry).1) = _
  rw [asked]
  rfl

/-- A tick that reads written bytes only does the same under either filling. -/
theorem tick_withGarbage {r : Run} (known : r.ReadsWritten) :
    (r.withGarbage g).tick = refilled g r.tick := by
  cases ended : r.ended with
  | true =>
    rw [tick_ended ended, tick_ended (r := r.withGarbage g) ended]
    rfl
  | false =>
    cases past : r.program.isPastEnd r.pc with
    | true =>
      rw [tick_pastEnd ended past, tick_pastEnd (r := r.withGarbage g) ended past,
        finish_withGarbage]
      rfl
    | false =>
      cases fetched : r.entry? with
      | none =>
        rw [tick_astray ended past fetched, tick_astray (r := r.withGarbage g) ended past fetched]
        exact r.fail_withGarbage g r.pc _
      | some entry =>
        have found : r.next? = some entry := by simp [next?, past, fetched]
        cases pauses : r.pausesAt entry with
        | true =>
          have pausesToo := (r.pausesAt_withGarbage g entry).trans pauses
          rw [tick_pausing ended found pauses,
            tick_pausing (r := r.withGarbage g) ended found pausesToo]
          have told := congrArg Prod.snd (r.debugger.shouldBreak_refill g entry)
          exact congrArg (fun debugger => (Except.ok Tick.paused,
            emit { r.withGarbage g with debugger, skipCheck := true } (.paused r.pc))) told
        | false =>
          have passes := (r.pausesAt_withGarbage g entry).trans pauses
          rw [tick_passing ended found pauses,
            tick_passing (r := r.withGarbage g) ended found passes]
          have same : (r.withGarbage g).reachedLimit? = r.reachedLimit? := rfl
          unfold passEntry
          rw [same]
          cases limit : r.reachedLimit? with
          | some n => exact r.fail_withGarbage g r.pc _
          | none =>
            refine executeEntry_withGarbage g ?_
            simpa [ReadsWritten, bytesRead, attempted?, ended, limit, found, pauses] using known

/-- The counts without the instruction at `pc`, if there is one. -/
def uncounted (r : Run) (pc : Word) : Statistics :=
  match r.program.entryAt? pc with
  | some entry => r.stats.unrecord entry.instr.category
  | none => r.stats

theorem stepBack_uncounted {r : Run} {change : Change} {undo : List Change}
    (running : r.ended = false) (log : r.debugger.undo = change :: undo) :
    r.stepBack = (true, emit { r with
      machine := change.revert r.machine, debugger := { r.debugger with undo },
      stats := r.uncounted change.pc } (.step change.pc)) := by
  have place : (change.revert r.machine).regs.pc = change.pc := rfl
  unfold stepBack uncounted
  rw [if_neg (by rw [running]; exact Bool.false_ne_true), log]
  dsimp only [pc, entry?]
  rw [place]
  cases r.program.entryAt? change.pc <;> rfl

/-- Stepping back does the same under either filling, whatever has been written. -/
theorem stepBack_withGarbage :
    (r.withGarbage g).stepBack = (r.stepBack.1, r.stepBack.2.withGarbage g) := by
  cases ended : r.ended with
  | true => rw [stepBack_ended ended, stepBack_ended (r := r.withGarbage g) ended]
  | false =>
    have log : (r.withGarbage g).debugger.undo = r.debugger.undo.map (Change.refill g) := rfl
    cases kept : r.debugger.undo with
    | nil =>
      rw [kept] at log
      rw [stepBack_empty ended kept, stepBack_empty (r := r.withGarbage g) ended log]
      rfl
    | cons change undo =>
      have back := change.revert_refill r.machine g
      rw [kept, List.map_cons] at log
      rw [stepBack_uncounted ended kept, stepBack_uncounted (r := r.withGarbage g) ended log]
      exact congrArg (fun machine => (true, emit { r with
        machine, debugger := { r.debugger with undo := undo.map (Change.refill g) },
        stats := r.uncounted change.pc } (.step change.pc))) back

end Tick

section Handle

variable {r : Run} (g : Bool)

theorem run_withGarbage {fuel : Nat} (known : ∀ s ∈ r.tickedByRun fuel, s.ReadsWritten) :
    (r.withGarbage g).run fuel = refilled g (r.run fuel) ∧
      (r.withGarbage g).tickedByRun fuel = (r.tickedByRun fuel).map (withGarbage g) := by
  induction fuel generalizing r with
  | zero => exact ⟨rfl, rfl⟩
  | succ fuel ih =>
    unfold tickedByRun at known ⊢
    have ticked := tick_withGarbage g (known r List.mem_cons_self)
    have result : (r.withGarbage g).tick.1 = r.tick.1 := by
      rw [ticked]
      rfl
    by_cases going : r.tick.1 = .ok .executed
    · rw [if_pos going] at known
      obtain ⟨ran, visited⟩ := ih fun s member => known s (List.mem_cons_of_mem r member)
      rw [run_going going, run_going (result.trans going), if_pos going,
        if_pos (result.trans going), ticked]
      exact ⟨ran, congrArg (List.cons _) visited⟩
    · have stopped : (r.withGarbage g).tick.1 ≠ .ok .executed := fun goes =>
        going (result.symm.trans goes)
      rw [run_stopped going, run_stopped stopped, if_neg going, if_neg stopped]
      exact ⟨ticked, rfl⟩

theorem addBreakpoint_refill (d : Debugger) (file : String) (line : Nat) :
    ((d.refill g).addBreakpoint file line).2.2 = (d.addBreakpoint file line).2.2.refill g := by
  unfold Debugger.addBreakpoint
  dsimp only
  change (if d.breakpoints.contains (d.breakpoint file line) then _ else _ :
    SourceTag × Bool × Debugger).2.2 = _
  split <;> rfl

theorem obeyLine_withGarbage (r : Run) (text : String) :
    ((r.withGarbage g).obeyLine text).2 = (r.obeyLine text).2.withGarbage g := by
  unfold obeyLine
  cases PromptCommand.ofLine? text with
  | none => rfl
  | some command =>
    cases command with
    | setBreak file line =>
      have added := addBreakpoint_refill g r.debugger file line
      exact congrArg (fun debugger => { r.withGarbage g with debugger }) added
    | next => rfl
    | «continue» => rfl
    | quit => exact r.finish_withGarbage g false
    | reverse =>
      change (r.withGarbage g).stepBack.2 = _
      rw [stepBack_withGarbage]
      rfl
    | _ => rfl

/-- The states in which a handling ticks. -/
def tickedByHandling (r : Run) : Handling → List Run
  | .operate o => r.tickedBy o
  | _ => []

def tickedByAll : Run → List Handling → List Run
  | _, [] => []
  | r, h :: rest => r.tickedByHandling h ++ (r.handle h).tickedByAll rest

theorem perform_withGarbage {move : Move}
    (known : ∀ s ∈ r.tickedBy (.act (.move move)), s.ReadsWritten) :
    (r.withGarbage g).perform move = (r.perform move).withGarbage g ∧
      (r.withGarbage g).tickedBy (.act (.move move)) =
        (r.tickedBy (.act (.move move))).map (withGarbage g) := by
  cases move with
  | tick =>
    have ticked := tick_withGarbage g (known r (List.mem_singleton_self r))
    refine ⟨?_, rfl⟩
    rw [perform, ticked]
    rfl
  | step =>
    have ticked := tick_withGarbage g (known _ (List.mem_singleton_self _))
    refine ⟨?_, rfl⟩
    change (withGarbage g { r with skipCheck := true }).tick.2 = _
    rw [ticked]
    rfl
  | run fuel =>
    obtain ⟨ran, visited⟩ := run_withGarbage g known
    refine ⟨?_, visited⟩
    rw [perform, ran]
    rfl
  | addBreakpoint file line =>
    have added := addBreakpoint_refill g r.debugger file line
    exact ⟨congrArg (fun debugger => { r.withGarbage g with debugger }) added, rfl⟩
  | resume mode => cases mode <;> exact ⟨rfl, rfl⟩
  | setInput | removeBreakpoint | clearBreakpoints => exact ⟨rfl, rfl⟩

/-- Whatever is done, it is done alike under either filling, if what is read on the way has been
written. -/
theorem handle_withGarbage {h : Handling}
    (known : ∀ s ∈ r.tickedByHandling h, s.ReadsWritten) :
    (r.withGarbage g).handle h = (r.handle h).withGarbage g ∧
      (r.withGarbage g).tickedByHandling h = (r.tickedByHandling h).map (withGarbage g) := by
  cases h with
  | release mode => cases mode <;> exact ⟨rfl, rfl⟩
  | enable | clearUndo => exact ⟨rfl, rfl⟩
  | operate o =>
    cases o with
    | stop => exact ⟨r.finish_withGarbage g false, rfl⟩
    | finish success => exact ⟨r.finish_withGarbage g success, rfl⟩
    | stepBack =>
      refine ⟨?_, rfl⟩
      change (r.withGarbage g).stepBack.2 = _
      rw [stepBack_withGarbage]
      rfl
    | act a =>
      cases a with
      | line text => exact ⟨r.obeyLine_withGarbage g text, rfl⟩
      | move m => exact perform_withGarbage g known

theorem handleAll_withGarbage {handlings : List Handling}
    (known : ∀ s ∈ r.tickedByAll handlings, s.ReadsWritten) :
    (r.withGarbage g).handleAll handlings = (r.handleAll handlings).withGarbage g ∧
      (r.withGarbage g).tickedByAll handlings =
        (r.tickedByAll handlings).map (withGarbage g) := by
  induction handlings generalizing r with
  | nil => exact ⟨rfl, rfl⟩
  | cons h rest ih =>
    unfold tickedByAll at known ⊢
    obtain ⟨first, others⟩ := List.forall_mem_append.mp known
    obtain ⟨handled, visited⟩ := handle_withGarbage g first
    obtain ⟨later, further⟩ := ih others
    change ((r.withGarbage g).handle h).handleAll rest = _ ∧ _
    rw [visited, handled, List.map_append]
    exact ⟨later, congrArg (_ ++ ·) further⟩

end Handle

/-- An executed instruction and what it left, the filling aside. -/
structure Outcome where
  pc : Word
  instr : Instruction
  regs : Registers
  bytes : Std.ExtTreeMap Word Byte
  heapTop : Word

def Executed.outcome (e : Executed) : Outcome :=
  ⟨e.pc, e.instr, e.machine.regs, e.machine.mem.bytes, e.machine.mem.heapTop⟩

/-- The instructions that are executed in the course of some handlings. -/
def outcomes (r : Run) (handlings : List Handling) : List Outcome :=
  ((r.tickedByAll handlings).filterMap executed?).map Executed.outcome

/-- Everything of two runs that does not depend on the filling is the same. -/
structure SameButFilling (a b : Run) : Prop where
  regs : a.machine.regs = b.machine.regs
  bytes : a.machine.mem.bytes = b.machine.mem.bytes
  heapTop : a.machine.mem.heapTop = b.machine.mem.heapTop
  channels : a.channels = b.channels
  console : a.console = b.console
  events : a.events = b.events
  stats : a.stats = b.stats
  ended : a.ended = b.ended

theorem sameButFilling_withGarbage (r : Run) (g : Bool) : r.SameButFilling (r.withGarbage g) :=
  ⟨rfl, rfl, rfl, rfl, rfl, rfl, rfl, rfl⟩

theorem outcome_withGarbage {r : Run} (g : Bool) (known : r.ReadsWritten) :
    (r.withGarbage g).executed?.map Executed.outcome = r.executed?.map Executed.outcome := by
  unfold executed?
  rw [tick_withGarbage g known]
  change Option.map _ (if r.tick.1.executions = 0 then _ else Option.map _ r.next?) = _
  split
  · rfl
  · cases r.next? <;> rfl

theorem outcomes_withGarbage {r : Run} {g : Bool} {handlings : List Handling}
    (known : ∀ s ∈ r.tickedByAll handlings, s.ReadsWritten) :
    (r.withGarbage g).outcomes handlings = r.outcomes handlings := by
  unfold outcomes
  rw [(handleAll_withGarbage g known).2]
  generalize r.tickedByAll handlings = states at known
  rw [List.filterMap_map, List.map_filterMap, List.map_filterMap]
  exact List.filterMap_congr fun s member => outcome_withGarbage g (known s member)

theorem tickedByAll_append (r : Run) (first second : List Handling) :
    r.tickedByAll (first ++ second) =
      r.tickedByAll first ++ (r.handleAll first).tickedByAll second := by
  induction first generalizing r with
  | nil => rfl
  | cons h rest ih =>
    rw [List.cons_append, tickedByAll, ih, tickedByAll, List.append_assoc]
    rfl

section Launch

variable (g : Bool)

theorem storeTexts_withGarbage (m : Memory) (texts : List String) :
    (m.withGarbage g).storeTexts texts = ((m.storeTexts texts).1, (m.storeTexts texts).2.1,
      (m.storeTexts texts).2.2.withGarbage g) := by
  induction texts with
  | nil => rfl
  | cons text rest ih =>
    unfold Memory.storeTexts
    rw [ih]
    exact congrArg (fun mem => (_, _, mem)) (Memory.pokeBytes_withGarbage _ g _ _)

theorem storeWords_withGarbage (m : Memory) (a : Word) (words : List Word) :
    (m.withGarbage g).storeWords a words = (m.storeWords a words).withGarbage g := by
  induction words generalizing m a with
  | nil => rfl
  | cons w rest ih =>
    unfold Memory.storeWords Memory.pokeValue
    rw [Memory.pokeBytes_withGarbage, ih]

theorem setArguments_withGarbage (m : Machine) (args : List String) :
    (m.withGarbage g).setArguments args = (m.setArguments args).withGarbage g := by
  have texts : (m.withGarbage g).mem.storeTexts args = _ := storeTexts_withGarbage g m.mem args
  unfold Machine.setArguments
  dsimp only
  rw [texts]
  dsimp only
  rw [storeWords_withGarbage]
  rfl

/-- The setting has no other effect at the start. -/
theorem launch_garbage (program : Program) (settings : Settings) (tree : FileTree)
    (args : List String) :
    launch program { settings with garbageMemory := g } tree args =
      (launch program settings tree args).withGarbage g := by
  unfold launch setArguments
  split
  · rfl
  · exact congrArg (fun machine => { start program settings tree with machine })
      (setArguments_withGarbage g (start program settings tree).machine args)

end Launch

/-- Filler does not leak. Two runs of a program that differ in the filling of memory only are
handled alike. As long as every byte that a tick of the one reads has been written, they execute the
same instructions with the same effects, and all that can be told of them at any time is the same,
also after stepping back. -/
theorem handleAll_filling (program : Program) (settings : Settings) (tree : FileTree)
    (args : List String) (g : Bool) (handlings : List Handling)
    (known : ∀ s ∈ (launch program settings tree args).tickedByAll handlings, s.ReadsWritten) :
    let a := launch program settings tree args
    let b := launch program { settings with garbageMemory := g } tree args
    a.outcomes handlings = b.outcomes handlings ∧
    ∀ before, before <+: handlings →
      (a.handleAll before).SameButFilling (b.handleAll before) ∧
      (a.handleAll before).stepBack.1 = (b.handleAll before).stepBack.1 ∧
      (a.handleAll before).stepBack.2.SameButFilling (b.handleAll before).stepBack.2 := by
  intro a b
  have other : b = a.withGarbage g := launch_garbage g program settings tree args
  rw [other]
  refine ⟨(outcomes_withGarbage known).symm, fun before start => ?_⟩
  obtain ⟨after, rfl⟩ := start
  have soFar : ∀ s ∈ a.tickedByAll before, s.ReadsWritten := fun s member =>
    known s (by rw [tickedByAll_append]; exact List.mem_append_left _ member)
  rw [(handleAll_withGarbage g soFar).1, stepBack_withGarbage]
  exact ⟨sameButFilling_withGarbage _ g, rfl, sameButFilling_withGarbage _ g⟩

/-- Stores a letter with a zero behind it, prints it, and loads it. -/
def letterCode : List Instruction :=
  [.lui Register.a0 0x1001, .imm .ori Register.v0 Register.zero 65,
    .mem .sh Register.v0 Register.a0 0, .imm .ori Register.v0 Register.zero 4, .syscall,
    .mem .lhu Register.v0 Register.a0 0]

def launchedLetter (garbageMemory : Bool) : Run :=
  launch { readingLoop with text := entriesFrom MemoryMap.textBase letterCode }
    { debug := true, garbageMemory } ⟨[], []⟩ []

/-- Executes all six instructions, and takes one back. -/
def printedLetter : List Handling :=
  [.operate (.act (.move (.resume .continue))), .operate (.act (.move (.run 6))),
    .operate .stepBack]

theorem handleAll_filling_printedLetter :
    (∀ s ∈ (launchedLetter false).tickedByAll printedLetter, s.ReadsWritten) ∧
    ((launchedLetter false).tickedByAll printedLetter).map (·.bytesRead.length) =
      [0, 0, 0, 0, 2, 2] ∧
    ((launchedLetter true).outcomes printedLetter).length = 6 ∧
    ((launchedLetter false).handleAll printedLetter).SameButFilling
      ((launchedLetter true).handleAll printedLetter) ∧
    ((launchedLetter true).handleAll printedLetter).stepBack.1 = true := by
  have written : ((launchedLetter false).tickedByAll printedLetter).all (fun s =>
      s.bytesRead.all s.machine.mem.isWritten) = true := by cbv
  have reads : ((launchedLetter false).tickedByAll printedLetter).map (·.bytesRead.length) =
      [0, 0, 0, 0, 2, 2] := by cbv
  have executed : ((launchedLetter false).outcomes printedLetter).length = 6 := by cbv
  have back : ((launchedLetter false).handleAll printedLetter).stepBack.1 = true := by cbv
  have known : ∀ s ∈ (launchedLetter false).tickedByAll printedLetter, s.ReadsWritten :=
    fun s member => List.all_eq_true.mp (List.all_eq_true.mp written s member)
  obtain ⟨outcomes, alike⟩ := handleAll_filling
    { readingLoop with text := entriesFrom MemoryMap.textBase letterCode }
    { debug := true, garbageMemory := false } ⟨[], []⟩ [] true printedLetter known
  obtain ⟨same, answer, -⟩ := alike printedLetter (List.prefix_refl _)
  exact ⟨known, reads, (congrArg List.length outcomes).symm.trans executed, same,
    answer.symm.trans back⟩

end Run

end MipsLab
