import MipsLab.Proofs.Machine.Record
import MipsLab.Run.Basic

/-! What the services leave behind. A served call is undone by the record that was taken before it,
a call that waits has done nothing, and a call that faults has neither touched the machine nor
printed. -/
namespace MipsLab

open Exec Prior

theorem Service.code_of {code : Word} {service : Service}
    (found : Service.ofCode? code = some service) : (code.toNat, service) ∈ Service.codes := by
  obtain ⟨before, after, split, -⟩ := List.lookup_eq_some_iff.mp found
  rw [split]
  exact List.mem_append_right before List.mem_cons_self

theorem FileTable.length_read {t next : FileTable} {descriptor : Int} {count : Nat}
    {bytes : List Byte} (found : t.read descriptor count = some (bytes, next)) :
    bytes.length ≤ count := by
  unfold FileTable.read at found
  obtain ⟨file, -, rest⟩ := Option.bind_eq_some_iff.mp found
  dsimp only at rest
  split at rest
  · obtain ⟨all, -, taken⟩ := Option.bind_eq_some_iff.mp rest
    obtain ⟨rfl, -⟩ := Prod.mk.inj (Option.some.inj taken)
    exact List.length_take_le _ _
  · exact absurd rest nofun

/-- Bytes that fit into the buffer of a system call can be taken back. -/
theorem Prior.restore_syscall_storeBytes {m k : Machine} {a : Word} {n : Nat} {bytes : List Byte}
    (covered : buffer m = m.mem.snapshot a n) (fits : bytes.length ≤ n)
    (written : m.storeBytes a bytes = .ok k) : (ofSyscall m).restore k = m := by
  rw [Machine.storeBytes_ok written]
  refine restore_syscall_memory covered ?_
  exact (Memory.sameOutside_pokeBytes m.mem a bytes).mono (Memory.addresses_subset fits)

namespace Station

/-- A station after its instruction: if that has to wait, it is as it was; in any case the record
leads back to the machine that it was. -/
structure Served (s : Station) (p : Prior) (control : Control) (t : Station) : Prop where
  waits : control = .await → t = s
  undone : p.restore t.machine = s.machine

/-- A station after a fault. -/
structure Refused (s t : Station) : Prop where
  machine : t.machine = s.machine
  printed : t.printed = s.printed

theorem Refused.refl (s : Station) : s.Refused s := ⟨rfl, rfl⟩

theorem meets_onMachine {s : Station} {α : Type} {work : Exec Machine α}
    {done : α → Station → Prop} {faulted : Station → Prop}
    (kept : work.Meets s.machine (fun a k => done a { s with machine := k })
      (fun k => faulted { s with machine := k })) : (onMachine work).Meets s done faulted := by
  unfold Meets at kept ⊢
  unfold onMachine
  split at kept
  · next a k ran => simpa only [ran] using kept
  · next f k ran => simpa only [ran] using kept

end Station

namespace Syscall

open Station (onMachine meets_onMachine)

def Serves (s : Station) (service : Exec Station Control) : Prop :=
  service.Meets s (s.Served (ofSyscall s.machine)) s.Refused

variable {s : Station}

/-- Ends a service that has only worked on the machine, and perhaps on other things that no record
is taken of. -/
theorem serves_onMachine (s : Station) {t : Station} {work : Exec Machine Unit}
    (machine : t.machine = s.machine) (printed : t.printed = s.printed)
    (kept : (ofSyscall s.machine).Records s.machine work) :
    (do onMachine work; return Control.next : Exec Station Control).Meets t
      (s.Served (ofSyscall s.machine)) s.Refused := by
  refine meets_bind (meets_onMachine ?_)
  rw [machine]
  exact Meets.mono kept (fun _ k undone => meets_pure ⟨nofun, undone⟩) fun k same => ⟨same, printed⟩

theorem records_answer (m : Machine) (value : Word) :
    (ofSyscall m).Records m (modify (·.setReg Register.v0 value)) :=
  meets_modify ((restore_syscall_setReg m value).trans (restore_syscall m))

/-- An answer cannot fault, so that a service may print before it. -/
theorem serves_answer (s : Station) {t : Station} (machine : t.machine = s.machine)
    (value : Word) : (answer value).Meets t (s.Served (ofSyscall s.machine)) s.Refused := by
  refine meets_bind (meets_onMachine ?_)
  rw [machine]
  exact meets_modify (meets_pure ⟨nofun, records_answer s.machine value⟩)

theorem serves_unchanged {control : Control} {t : Station} (machine : t.machine = s.machine)
    (goes : control ≠ .await) : s.Served (ofSyscall s.machine) control t :=
  ⟨fun waits => (goes waits).elim, by rw [machine, restore_syscall]⟩

theorem serves_printing (text : Except Fault String) : Serves s (printing text) := by
  refine meets_bind (meets_require (.refl s) fun shown _ => ?_)
  exact meets_bind (meets_modify (meets_pure (serves_unchanged rfl nofun)))

/-- Taking the delivered text away when there is none changes nothing. -/
theorem meets_takeInput {done : Option String → Station → Prop} {faulted : Station → Prop}
    (waits : s.channels.input = none → done none s)
    (takes : ∀ text, done (some text) { s with channels := { s.channels with input := none } }) :
    takeInput.Meets s done faulted := by
  refine meets_bind (meets_get (meets_bind (meets_set (meets_pure ?_))))
  cases delivered : s.channels.input with
  | none =>
    have same : { s with channels := { s.channels with input := none } } = s := by
      rw [← delivered]
    rw [same]
    exact waits delivered
  | some text => exact takes text

theorem serves_reading {use : String → Exec Machine Unit}
    (kept : ∀ text, (ofSyscall s.machine).Records s.machine (use text)) :
    Serves s (reading use) := by
  refine meets_bind (meets_takeInput (fun _ => ?_) fun text => ?_)
  · exact meets_pure ⟨fun _ => rfl, restore_syscall s.machine⟩
  · exact serves_onMachine s rfl rfl (kept text)

section Machine

variable (m : Machine) (text : String)

theorem records_readInt : (ofSyscall m).Records m (readInt text) :=
  meets_bind (meets_require rfl fun _ _ => records_answer m _)

theorem records_readFloat : (ofSyscall m).Records m (readFloat text) :=
  meets_bind (meets_require rfl fun _ _ =>
    meets_modify ((restore_syscall_setFloat m _).trans (restore_syscall m)))

theorem records_readDouble : (ofSyscall m).Records m (readDouble text) :=
  meets_bind (meets_require rfl fun _ _ => meets_update rfl fun _ written =>
    (restore_syscall_setDouble written).trans (restore_syscall m))

theorem records_readChar : (ofSyscall m).Records m (readChar text) := by
  unfold readChar
  split
  · exact meets_throw rfl
  · exact records_answer m _

theorem records_readString (code : m.regs.read Register.v0 = 8) :
    (ofSyscall m).Records m (readString text) := by
  have covered : buffer m = m.mem.snapshot (m.regs.read Register.a0)
      (Memory.bufferLength (m.regs.read Register.a1)) := by
    simp only [buffer, code, if_true]
  refine meets_bind (meets_get ?_)
  split
  · exact meets_pure (restore_syscall m)
  · next capacity size =>
    refine meets_update rfl fun k written => restore_syscall_storeBytes covered ?_ written
    have := List.length_take_le capacity (Text.utf8Bytes text)
    rw [size, List.length_append, List.length_singleton]
    omega

theorem records_deliver {bytes : List Byte} (code : m.regs.read Register.v0 = 14)
    (fits : bytes.length ≤ Memory.bufferLength (m.regs.read Register.a2)) :
    (ofSyscall m).Records m (deliver bytes) := by
  have covered : buffer m = m.mem.snapshot (m.regs.read Register.a1)
      (Memory.bufferLength (m.regs.read Register.a2)) := by
    have other : (14 : Word) ≠ 8 := by decide
    simp only [buffer, code, if_neg other, if_true]
  refine meets_bind (meets_get (meets_bind (meets_update rfl fun k written => ?_)))
  refine meets_modify ?_
  rw [restore_syscall_setReg, restore_syscall_storeBytes covered fits written]

theorem records_extendHeap : (ofSyscall m).Records m extendHeap := by
  refine meets_bind (meets_get (meets_bind (meets_require rfl fun extended found => ?_)))
  have same : m.mem.SameOutside extended.2 [] := by
    unfold Memory.extendHeap at found
    split at found
    · exact absurd found nofun
    · dsimp only at found
      split at found
      · obtain rfl := Except.ok.inj found
        exact ⟨rfl, fun _ _ => rfl⟩
      · exact absurd found nofun
  obtain ⟨a, n, covered⟩ := buffer_eq_snapshot m
  refine meets_bind (meets_modify (meets_modify ?_))
  rw [restore_syscall_setReg]
  exact restore_syscall_memory covered (same.mono (List.nil_subset _))

end Machine

theorem serves_openFile : Serves s openFile := by
  refine meets_bind (meets_get (meets_bind (meets_require (.refl s) fun name _ => ?_)))
  exact meets_bind (meets_modify (serves_answer s (by rfl) _))

theorem serves_readFile (code : s.machine.regs.read Register.v0 = 14) : Serves s readFile := by
  refine meets_bind (meets_get ?_)
  dsimp only
  split
  · exact serves_answer s rfl _
  · split
    · exact serves_reading fun text => records_deliver s.machine code (List.length_take_le _ _)
    · split
      · exact serves_answer s rfl _
      · next bytes files found =>
        refine meets_bind (meets_modify (serves_onMachine s rfl rfl ?_))
        exact records_deliver s.machine code (FileTable.length_read found)

theorem serves_writeFile : Serves s writeFile := by
  refine meets_bind (meets_get (meets_bind (meets_require (.refl s) fun data _ => ?_)))
  split
  · exact meets_bind (meets_modify (serves_answer s (by rfl) _))
  · split
    · exact meets_bind (meets_modify (serves_answer s (by rfl) _))
    · exact serves_answer s rfl _

theorem serves_serve {service : Service}
    (found : Service.ofCode? (s.machine.regs.read Register.v0) = some service) :
    Serves s (serve service) := by
  have listed := Service.code_of found
  refine meets_bind (meets_get ?_)
  cases service with
  | printInt | printFloat | printDouble | printString | printChar | dumpMemory | printHex
  | printBinary | printUnsigned => exact serves_printing _
  | readInt => exact serves_reading (records_readInt s.machine)
  | readFloat => exact serves_reading (records_readFloat s.machine)
  | readDouble => exact serves_reading (records_readDouble s.machine)
  | readChar => exact serves_reading (records_readChar s.machine)
  | readString =>
    have code : s.machine.regs.read Register.v0 = 8 := by
      simpa [Service.codes, BitVec.toNat_eq] using listed
    exact serves_reading fun text => records_readString s.machine text code
  | extendHeap => exact serves_onMachine s rfl rfl (records_extendHeap s.machine)
  | exit | exitWith => exact meets_pure (serves_unchanged rfl nofun)
  | openFile => exact serves_openFile
  | readFile =>
    have code : s.machine.regs.read Register.v0 = 14 := by
      simpa [Service.codes, BitVec.toNat_eq] using listed
    exact serves_readFile code
  | writeFile => exact serves_writeFile
  | closeFile => exact meets_bind (meets_set (meets_pure (serves_unchanged rfl nofun)))

/-- Every system call keeps to its record, with whatever code. -/
theorem serves_perform (s : Station) : Serves s perform := by
  refine meets_bind (meets_get ?_)
  dsimp only
  split
  · next service found => exact serves_serve found
  · exact meets_throw (.refl s)

end Syscall

/-- Every instruction but a system call works on the machine alone. -/
theorem Run.react_work {i : Instruction} (work : i ≠ .syscall) (pc : Word) :
    react pc i = Station.onMachine (Machine.execute pc i) := by
  cases i <;> first | rfl | exact absurd rfl work

/-- Whatever the instruction, a record that could be taken before it leads back. -/
theorem Run.meets_react {s : Station} {pc : Word} {i : Instruction} {p : Prior}
    (taken : Prior.of s.machine i = .ok p) :
    (Run.react pc i).Meets s (s.Served p) s.Refused := by
  have kept := Machine.records_execute s.machine pc taken
  cases i
  case syscall =>
    obtain rfl := Except.ok.inj taken
    exact Syscall.serves_perform s
  all_goals
    exact Station.meets_onMachine (kept.mono (fun _ _ control => ⟨fun waits =>
      (control.1 waits).elim, control.2⟩) fun _ same => ⟨same, rfl⟩)

end MipsLab
