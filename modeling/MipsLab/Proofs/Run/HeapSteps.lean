import MipsLab.Proofs.Run.Buffers

/-! The end of the heap, and what single instructions do to it. A call for heap moves it upwards by
whole words if the stack leaves room for that, and fails otherwise; no other service and no other
instruction moves it. -/
namespace MipsLab

/-- Where the heap may end. -/
structure HeapEnd (top : Word) : Prop where
  aligned : 4 ∣ top.toNat
  low : MemoryMap.heapBase.toNat ≤ top.toNat
  high : top.toNat ≤ MemoryMap.stackTop.toNat

theorem heapEnd_base : HeapEnd MemoryMap.heapBase := by
  constructor <;> decide

namespace Machine

variable {m k : Machine}

/-- The end of the heap after a call for `$a0` bytes. -/
def heapNext (m : Machine) : Nat :=
  m.mem.heapTop.toNat + ((m.regs.read Register.a0).toNat + 3) / 4 * 4

def HasRoom (m : Machine) : Prop :=
  0 ≤ (m.regs.read Register.a0).toInt ∧ m.heapNext ≤ MemoryMap.stackTop.toNat

instance (m : Machine) : Decidable m.HasRoom := inferInstanceAs (Decidable (_ ∧ _))

/-- What a call for heap does that succeeds. -/
structure Grows (m k : Machine) : Prop where
  room : m.HasRoom
  answer : k.regs.read Register.v0 = m.mem.heapTop
  grown : k.mem.heapTop.toNat = m.heapNext

theorem Grows.heapEnd (grows : m.Grows k) (sound : HeapEnd m.mem.heapTop) :
    HeapEnd k.mem.heapTop := by
  obtain ⟨aligned, low, high⟩ := sound
  have fits := grows.room.2
  have grown := grows.grown
  unfold heapNext at grown fits
  constructor <;> omega

end Machine

open Exec

namespace Syscall

open Station (onMachine meets_onMachine)

variable {top : Word}

abbrev HeapAt (top : Word) (m : Machine) : Prop := m.mem.heapTop = top

theorem keeps_storeBytes (a : Word) (bytes : List Byte) :
    Keeps (HeapAt top) (update (·.storeBytes a bytes)) := by
  refine keeps_update fun m k written kept => ?_
  rw [Machine.storeBytes_ok written]
  exact (Memory.heapTop_pokeBytes m.mem a bytes).trans kept

theorem keeps_setReg (value : Word) :
    Keeps (HeapAt top) (modify (·.setReg Register.v0 value)) := keeps_modify fun _ kept => kept

theorem keeps_readInt (text : String) : Keeps (HeapAt top) (readInt text) :=
  keeps_bind (keeps_require _) fun _ => keeps_setReg _

theorem keeps_readFloat (text : String) : Keeps (HeapAt top) (readFloat text) :=
  keeps_bind (keeps_require _) fun _ => keeps_modify fun _ kept => kept

theorem keeps_readDouble (text : String) : Keeps (HeapAt top) (readDouble text) := by
  refine keeps_bind (keeps_require _) fun bits => keeps_update fun m k written kept => ?_
  rw [Machine.setDouble_ok written]
  exact kept

theorem keeps_readString (text : String) : Keeps (HeapAt top) (readString text) := by
  refine keeps_bind keeps_get fun m => ?_
  split
  · exact keeps_pure _
  · exact keeps_storeBytes _ _

theorem keeps_readChar (text : String) : Keeps (HeapAt top) (readChar text) := by
  unfold readChar
  split
  · exact fun _ _ => meets_throw trivial
  · exact keeps_setReg _

theorem keeps_deliver (bytes : List Byte) : Keeps (HeapAt top) (deliver bytes) :=
  keeps_bind keeps_get fun _ => keeps_bind (keeps_storeBytes _ bytes) fun _ => keeps_setReg _

/-- The end of the heap is where it was for a station as well. -/
abbrev StationAt (top : Word) (s : Station) : Prop := HeapAt top s.machine

theorem keeps_onMachine {α : Type} {work : Exec Machine α} (kept : Keeps (HeapAt top) work) :
    Keeps (StationAt top) (onMachine work) := fun s same => meets_onMachine (kept s.machine same)

theorem keeps_answer (value : Word) : Keeps (StationAt top) (answer value) :=
  keeps_bind (keeps_onMachine (keeps_setReg value)) fun _ => keeps_pure _

theorem keeps_printing (text : Except Fault String) : Keeps (StationAt top) (printing text) :=
  keeps_bind (keeps_require text) fun _ => keeps_bind (keeps_modify fun _ kept => kept) fun _ =>
    keeps_pure _

theorem keeps_reading {use : String → Exec Machine Unit}
    (kept : ∀ text, Keeps (HeapAt top) (use text)) : Keeps (StationAt top) (reading use) := by
  refine keeps_bind (fun s same => meets_takeInput (fun _ => same) fun _ => same) fun taken => ?_
  cases taken with
  | none => exact keeps_pure _
  | some text => exact keeps_bind (keeps_onMachine (kept text)) fun _ => keeps_pure _

theorem keeps_openFile : Keeps (StationAt top) openFile :=
  keeps_bind keeps_get fun _ => keeps_bind (keeps_require _) fun _ =>
    keeps_bind (keeps_modify fun _ kept => kept) fun _ => keeps_answer _

theorem keeps_readFile : Keeps (StationAt top) readFile := by
  refine keeps_bind keeps_get fun s => ?_
  dsimp only
  split
  · exact keeps_answer _
  · split
    · exact keeps_reading fun text => keeps_deliver _
    · split
      · exact keeps_answer _
      · exact keeps_bind (keeps_modify fun _ kept => kept) fun _ =>
          keeps_bind (keeps_onMachine (keeps_deliver _)) fun _ => keeps_pure _

theorem keeps_writeFile : Keeps (StationAt top) writeFile := by
  refine keeps_bind keeps_get fun s => keeps_bind (keeps_require _) fun data => ?_
  split
  · exact keeps_bind (keeps_modify fun _ kept => kept) fun _ => keeps_answer _
  · split
    · exact keeps_bind (keeps_modify fun _ kept => kept) fun _ => keeps_answer _
    · exact keeps_answer _

/-- All services but one leave the end of the heap where it is. -/
theorem keeps_serve {service : Service} (other : service ≠ .extendHeap) :
    Keeps (StationAt top) (serve service) := by
  intro s same
  refine meets_bind (meets_get ?_)
  cases service with
  | printInt | printFloat | printDouble | printString | printChar | dumpMemory | printHex
  | printBinary | printUnsigned => exact keeps_printing _ s same
  | readInt => exact keeps_reading keeps_readInt s same
  | readFloat => exact keeps_reading keeps_readFloat s same
  | readDouble => exact keeps_reading keeps_readDouble s same
  | readChar => exact keeps_reading keeps_readChar s same
  | readString => exact keeps_reading keeps_readString s same
  | extendHeap => exact absurd rfl other
  | exit | exitWith => exact meets_pure same
  | openFile => exact keeps_openFile s same
  | readFile => exact keeps_readFile s same
  | writeFile => exact keeps_writeFile s same
  | closeFile => exact meets_bind (meets_set (meets_pure same))

theorem extendHeap_room {m : Machine} (room : m.HasRoom) :
    m.mem.extendHeap (m.regs.read Register.a0) =
      .ok (m.mem.heapTop, { m.mem with heapTop := BitVec.ofNat 32 m.heapNext }) := by
  obtain ⟨positive, fits⟩ := room
  unfold Memory.extendHeap
  rw [if_neg (by rw [slt_zero_iff]; omega)]
  exact if_pos fits

theorem extendHeap_full {m : Machine} (full : ¬ m.HasRoom) :
    ∃ f, m.mem.extendHeap (m.regs.read Register.a0) = .error f := by
  unfold Memory.extendHeap
  split
  · exact ⟨_, rfl⟩
  · next positive =>
    rw [slt_zero_iff, not_lt] at positive
    exact ⟨_, if_neg fun fits => full ⟨positive, fits⟩⟩

/-- The remaining service succeeds just where there is room, and has done nothing otherwise. -/
theorem grows_extendHeap (m : Machine) :
    extendHeap.Meets m (fun _ k => m.Grows k) fun k => ¬ m.HasRoom ∧ k = m := by
  refine meets_bind (meets_get (meets_bind ?_))
  by_cases room : m.HasRoom
  · rw [extendHeap_room room]
    have below : m.heapNext < 2 ^ 32 := room.2.trans_lt (by decide)
    refine meets_pure (meets_bind (meets_modify (meets_modify ⟨room, ?_, ?_⟩)))
    · exact Machine.read_setReg_self _ (by decide) _
    · exact (BitVec.toNat_ofNat _ 32).trans (Nat.mod_eq_of_lt below)
  · obtain ⟨f, refused⟩ := extendHeap_full room
    rw [refused]
    exact meets_throw ⟨room, rfl⟩

end Syscall

namespace Machine

variable {m k : Machine} {i : Instruction}

/-- The instruction is a call for heap. -/
def AsksHeap (m : Machine) (i : Instruction) : Prop :=
  i = .syscall ∧ m.regs.read Register.v0 = 9

instance (m : Machine) (i : Instruction) : Decidable (m.AsksHeap i) :=
  inferInstanceAs (Decidable (_ ∧ _))

/-- What an instruction does to the end of the heap. -/
def HeapStep (m : Machine) (i : Instruction) (k : Machine) : Prop :=
  if m.AsksHeap i then m.Grows k else k.mem.heapTop = m.mem.heapTop

theorem heapStep_call (asks : m.AsksHeap i) : m.HeapStep i k ↔ m.Grows k := by
  rw [HeapStep, if_pos asks]

theorem heapStep_other (asks : ¬ m.AsksHeap i) :
    m.HeapStep i k ↔ k.mem.heapTop = m.mem.heapTop := by
  rw [HeapStep, if_neg asks]

theorem HeapStep.heapEnd (step : m.HeapStep i k) (sound : HeapEnd m.mem.heapTop) :
    HeapEnd k.mem.heapTop := by
  by_cases asks : m.AsksHeap i
  · exact ((heapStep_call asks).mp step).heapEnd sound
  · rw [(heapStep_other asks).mp step]
    exact sound

theorem HeapStep.setPc (step : m.HeapStep i k) (pc : Word) : m.HeapStep i (k.setPc pc) := by
  by_cases asks : m.AsksHeap i
  · rw [heapStep_call asks] at step ⊢
    exact ⟨step.room, step.answer, step.grown⟩
  · rw [heapStep_other asks] at step ⊢
    exact step

end Machine

namespace Prior

variable {m : Machine} {p : Prior}

/-- Restoring the record leaves the end of the heap where it is. -/
def KeepsHeap (p : Prior) : Prop := ∀ k, (p.restore k).mem.heapTop = k.mem.heapTop

theorem keepsHeap_ofDouble {r : FReg} (taken : ofDouble m r = .ok p) : p.KeepsHeap := by
  unfold ofDouble at taken
  cases checked : Registers.checkPair r with
  | error f => simp [checked, bind, Except.bind] at taken
  | ok _ =>
    simp only [checked, bind, Except.bind, pure, Except.pure, Except.ok.injEq] at taken
    subst taken
    exact fun _ => rfl

theorem keepsHeap_ofPrecision {fmt : Precision} {r : FReg}
    (taken : ofPrecision m fmt r = .ok p) : p.KeepsHeap := by
  cases fmt with
  | single =>
    obtain rfl := Except.ok.inj taken
    exact fun _ => rfl
  | double => exact keepsHeap_ofDouble taken

/-- Only what is recorded for a system call has the end of the heap. -/
theorem of_cases {i : Instruction} (taken : of m i = .ok p) :
    (i = .syscall ∧ p = ofSyscall m) ∨ p.KeepsHeap := by
  have plain {q : Prior} (same : Except.ok q = (.ok p : Except Fault Prior))
      (kept : q.KeepsHeap) : p.KeepsHeap := Except.ok.inj same ▸ kept
  cases i with
  | syscall => exact .inl ⟨rfl, (Except.ok.inj taken).symm⟩
  | floatArith | floatUnary | floatMoveIf | floatMoveOnFlag =>
    exact .inr (keepsHeap_ofPrecision taken)
  | convert target =>
    cases target with
    | double => exact .inr (keepsHeap_ofDouble taken)
    | single | word => exact .inr (plain taken fun _ => rfl)
  | mem op data base offset =>
    simp only [of] at taken
    split at taken
    · exact .inr (plain taken fun k => Memory.heapTop_restore k.mem _)
    · cases op <;>
        first | exact .inr (keepsHeap_ofDouble taken) | exact .inr (plain taken fun _ => rfl)
  | branch op =>
    refine .inr (plain taken fun k => ?_)
    cases op.links <;> rfl
  | hiLoMove op => cases op <;> exact .inr (plain taken fun _ => rfl)
  | jump link | moveWord link => cases link <;> exact .inr (plain taken fun _ => rfl)
  | jumpReg link => cases link <;> exact .inr (plain taken fun _ => rfl)
  | _ => exact .inr (plain taken fun _ => rfl)

end Prior

namespace Syscall

open Station (meets_onMachine)

theorem perform_callsHeap {s : Station} (code : s.machine.regs.read Register.v0 = 9) :
    perform.Meets s (fun control t => control = .next ∧ s.machine.Grows t.machine)
      fun t => ¬ s.machine.HasRoom ∧ t.machine = s.machine := by
  have found : Service.ofCode? (s.machine.regs.read Register.v0) = some .extendHeap := by
    rw [code]
    decide
  unfold Meets
  rw [perform_eq found]
  refine meets_bind (meets_get (meets_bind (meets_onMachine ?_)))
  exact (grows_extendHeap s.machine).mono (fun _ k grows => meets_pure ⟨rfl, grows⟩)
    fun k refused => refused

theorem heapStep_perform (s : Station) :
    perform.Meets s (fun _ t => s.machine.HeapStep .syscall t.machine) fun _ => True := by
  by_cases code : s.machine.regs.read Register.v0 = 9
  · exact (perform_callsHeap code).mono
      (fun _ t done => (Machine.heapStep_call ⟨rfl, code⟩).mpr done.2) fun _ _ => trivial
  · have other (k : Machine) : s.machine.HeapStep .syscall k ↔ _ :=
      Machine.heapStep_other fun asks => code asks.2
    simp only [other]
    refine meets_bind (meets_get ?_)
    dsimp only
    split
    · next service found =>
      have served : service ≠ .extendHeap := by
        rintro rfl
        have listed := Service.code_of found
        exact code (by simpa [Service.codes, BitVec.toNat_eq] using listed)
      exact keeps_serve served s rfl
    · exact meets_throw trivial

end Syscall

namespace Run

theorem heapStep_react {s : Station} {pc : Word} {i : Instruction} {p : Prior}
    (taken : Prior.of s.machine i = .ok p) :
    (react pc i).Meets s (fun _ t => s.machine.HeapStep i t.machine) fun _ => True := by
  by_cases call : i = .syscall
  · subst call
    exact Syscall.heapStep_perform s
  · have kept : p.KeepsHeap := (Prior.of_cases taken).resolve_left fun same => call same.1
    refine (meets_react taken).mono (fun control t served => ?_) fun _ _ => trivial
    rw [Machine.heapStep_other fun asks => call asks.1, ← kept t.machine, served.undone]

end Run

end MipsLab
