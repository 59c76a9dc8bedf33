import MipsLab.Proofs.Run.Transparent

/-! What becomes of the delivered text. A service that reads takes it away, whether it can use it or
not; nothing else that a tick does touches it. -/
namespace MipsLab

open Exec

/-- The services that read the delivered text. Of files that is descriptor zero, but not with a
negative size. -/
def Service.readsInput (m : Machine) : Service → Bool
  | .readInt | .readFloat | .readDouble | .readString | .readChar => true
  | .readFile => !(m.regs.read Register.a2).slt 0 && (m.regs.read Register.a0).toInt == 0
  | _ => false

/-- Whether an instruction calls a service that reads the delivered text. -/
def Machine.readsInput (m : Machine) : Instruction → Bool
  | .syscall => (Service.ofCode? (m.regs.read Register.v0)).any (·.readsInput m)
  | _ => false

namespace Syscall

open Station (onMachine meets_onMachine)

variable {α β : Type} {text : Option String} {s : Station}

/-- However the work ends, `text` is then there to be read. -/
def Leaves (text : Option String) (s : Station) (work : Exec Station α) : Prop :=
  work.Meets s (fun _ t => t.channels.input = text) fun t => t.channels.input = text

theorem leaves_pure (kept : s.channels.input = text) (a : α) :
    Leaves text s (pure a : Exec Station α) := meets_pure kept

theorem leaves_bind {work : Exec Station β} {next : β → Exec Station α} (first : Leaves text s work)
    (later : ∀ b t, t.channels.input = text → Leaves text t (next b)) :
    Leaves text s (work >>= next) :=
  meets_bind (first.mono later fun _ kept => kept)

theorem leaves_get {next : Station → Exec Station α} (later : Leaves text s (next s)) :
    Leaves text s (get >>= next) := meets_bind (meets_get later)

theorem leaves_modify {change : Station → Station} (kept : (change s).channels.input = text) :
    Leaves text s (modify change : Exec Station PUnit) := meets_modify kept

theorem leaves_require (kept : s.channels.input = text) (x : Except Fault α) :
    Leaves text s (require x : Exec Station α) := meets_require kept fun _ _ => kept

theorem leaves_onMachine (kept : s.channels.input = text) (work : Exec Machine α) :
    Leaves text s (onMachine work) := by
  refine meets_onMachine ?_
  unfold Meets
  split <;> exact kept

theorem leaves_next (kept : s.channels.input = text) (work : Exec Machine Unit) :
    Leaves text s (do onMachine work; return Control.next) :=
  leaves_bind (leaves_onMachine kept work) fun _ _ same => leaves_pure same _

theorem leaves_answer (kept : s.channels.input = text) (value : Word) :
    Leaves text s (answer value) := leaves_next kept _

theorem leaves_printing (kept : s.channels.input = text) (shown : Except Fault String) :
    Leaves text s (printing shown) :=
  leaves_bind (leaves_require kept shown) fun _ _ still =>
    leaves_bind (leaves_modify still) fun _ _ same => leaves_pure same _

/-- A reader leaves nothing, also when it has found nothing or cannot use what it has found. -/
theorem leaves_reading (use : String → Exec Machine Unit) : Leaves none s (reading use) := by
  refine meets_bind (meets_takeInput (fun waits => ?_) fun delivered => ?_)
  · exact leaves_pure waits _
  · exact leaves_next rfl (use delivered)

theorem leaves_openFile (kept : s.channels.input = text) : Leaves text s openFile :=
  leaves_get (leaves_bind (leaves_require kept _) fun _ _ still =>
    leaves_bind (leaves_modify still) fun _ _ same => leaves_answer same _)

theorem leaves_writeFile (kept : s.channels.input = text) : Leaves text s writeFile := by
  refine leaves_get (leaves_bind (leaves_require kept _) fun _ t still => ?_)
  split
  · exact leaves_bind (leaves_modify still) fun _ _ same => leaves_answer same _
  · split
    · exact leaves_bind (leaves_modify still) fun _ _ same => leaves_answer same _
    · exact leaves_answer still _

/-- What is left of the delivered text by a service. -/
def leftBy (s : Station) (reads : Bool) : Option String := if reads then none else s.channels.input

theorem leaves_readFile : Leaves (leftBy s (Service.readFile.readsInput s.machine)) s readFile := by
  refine leaves_get ?_
  rw [Service.readsInput]
  dsimp only
  split
  · next negative =>
    rw [negative]
    exact leaves_answer rfl _
  · next size =>
    rw [Bool.not_eq_true] at size
    rw [size, Bool.not_false, Bool.true_and]
    split
    · next input =>
      rw [input]
      exact leaves_reading _
    · next file =>
      rw [beq_false_of_ne file]
      split
      · exact leaves_answer rfl _
      · exact leaves_bind (leaves_modify rfl) fun _ _ same => leaves_next same _

theorem leaves_serve (service : Service) :
    Leaves (leftBy s (service.readsInput s.machine)) s (serve service) := by
  refine leaves_get ?_
  cases service with
  | printInt | printFloat | printDouble | printString | printChar | dumpMemory | printHex
  | printBinary | printUnsigned => exact leaves_printing rfl _
  | readInt | readFloat | readDouble | readString | readChar => exact leaves_reading _
  | extendHeap => exact leaves_next rfl extendHeap
  | exit | exitWith => exact leaves_pure rfl _
  | openFile => exact leaves_openFile rfl
  | readFile => exact leaves_readFile
  | writeFile => exact leaves_writeFile rfl
  | closeFile => exact meets_bind (meets_set (leaves_pure rfl _))

theorem leaves_perform : Leaves (leftBy s (s.machine.readsInput .syscall)) s perform := by
  refine leaves_get ?_
  dsimp only
  rw [Machine.readsInput]
  split
  · next service found =>
    rw [found]
    exact leaves_serve service
  · next unknown =>
    rw [unknown]
    exact meets_throw rfl

end Syscall

namespace Run

open Syscall (Leaves leftBy)

theorem leaves_react (s : Station) (pc : Word) (i : Instruction) :
    Leaves (leftBy s (s.machine.readsInput i)) s (react pc i) := by
  by_cases call : i = .syscall
  · subst call
    exact Syscall.leaves_perform
  · have silent : s.machine.readsInput i = false := by
      cases i <;> first | rfl | exact absurd rfl call
    rw [react_work call, silent]
    exact Syscall.leaves_onMachine rfl _

/-- Whether the next tick performs a service that reads the delivered text. -/
def reads (r : Run) : Bool :=
  !r.ended && r.reachedLimit?.isNone &&
    r.next?.any fun entry => !r.pausesAt entry && r.machine.readsInput entry.instr

theorem input_absorb (r : Run) (s : Station) :
    (r.absorb s).channels.input = s.channels.input := rfl

theorem input_finish (r : Run) (success : Bool) :
    (r.finish success).channels.input = r.channels.input := by
  unfold finish
  split <;> rfl

theorem input_fail (r : Run) (pc : Word) (fault : Fault) :
    (r.fail pc fault).2.channels.input = r.channels.input := input_finish _ false

theorem input_follow (r : Run) (pc : Word) (control : Control) :
    (r.follow pc control).2.channels.input = r.channels.input := by
  cases control with
  | exit => exact input_finish r true
  | jump | next | await => rfl

/-- No system call fails for want of a record, so that one which reads does read. -/
theorem input_executeEntry (r : Run) (pc : Word) (entry : TextEntry) :
    (r.executeEntry pc entry).2.channels.input =
      leftBy r.station (r.machine.readsInput entry.instr) := by
  have left := leaves_react r.station pc entry.instr
  unfold executeEntry
  split
  · next f unrecorded =>
    have other : r.machine.readsInput entry.instr = false := by
      cases i : entry.instr with
      | syscall => rw [i] at unrecorded; exact absurd unrecorded nofun
      | _ => rfl
    rw [other]
    exact input_fail r pc f
  · split
    · next f s ran =>
      rw [input_fail, input_absorb]
      exact left.of_error ran
    · next s ran => exact left.of_ok ran
    · next control s _ ran =>
      refine (input_follow _ pc control).trans ?_
      exact left.of_ok ran

/-- A tick that reads leaves no text; every other one leaves the text as it was. -/
theorem input_tick (r : Run) :
    r.tick.2.channels.input = if r.reads then none else r.channels.input := by
  unfold reads
  cases running : r.ended with
  | true => rw [tick_ended running]; rfl
  | false =>
    cases past : r.program.isPastEnd r.pc with
    | true =>
      rw [tick_pastEnd running past, input_finish]
      simp [next?, past]
    | false =>
      cases fetched : r.entry? with
      | none =>
        rw [tick_astray running past fetched, input_fail]
        simp [next?, past, fetched]
      | some entry =>
        have found : r.next? = some entry := by simp [next?, past, fetched]
        cases pauses : r.pausesAt entry with
        | true =>
          rw [tick_pausing running found pauses]
          simp [found, pauses, emit]
        | false =>
          rw [tick_passing running found pauses, passEntry]
          split
          · next limit reached =>
            rw [input_fail]
            simp [reached]
          · next unlimited =>
            rw [input_executeEntry]
            simp [found, pauses, unlimited, leftBy, station]

end Run

end MipsLab
