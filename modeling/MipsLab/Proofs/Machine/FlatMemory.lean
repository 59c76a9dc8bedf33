import Mathlib
import MipsLab.Proofs.Machine.Restore
import MipsLab.Proofs.Text.Bytes

/-! Memory is a flat array of bytes. An address holds what was last put there, at whatever width and
with or without checks; the checks of an access decide only whether it takes place. -/
namespace MipsLab

/-- The byte that was last put at each address, if there is one. -/
abbrev Flat := Word → Option Byte

namespace Flat

/-- The array with `bytes` at the addresses from `a` on, which may go around the end. -/
def lay (f : Flat) (a : Word) (bytes : List Byte) : Flat := fun x =>
  (bytes[(x - a).toNat]?).or (f x)

def forget (f : Flat) (a : Word) : Flat := fun x => if x = a then none else f x

def value (f : Flat) (garbage : Bool) (x : Word) : Byte :=
  (f x).getD (if garbage then Memory.filler x else 0)

end Flat

/-- The addresses of a program's data and of the terminal. -/
def MemoryMap.Mapped (x : Word) : Prop :=
  (dataSegmentBase.toNat ≤ x.toNat ∧ x.toNat ≤ userLimit.toNat) ∨
    (terminalBase.toNat ≤ x.toNat ∧ x.toNat < terminalBase.toNat + terminalBytes)

instance (x : Word) : Decidable (MemoryMap.Mapped x) := inferInstanceAs (Decidable (_ ∨ _))

/-- All of the `n` addresses from `a` on are mapped. -/
def Permitted (a : Word) (n : Nat) : Prop := ∀ i < n, MemoryMap.Mapped (a + BitVec.ofNat 32 i)

instance (a : Word) (n : Nat) : Decidable (Permitted a n) := Nat.decidableBallLT n _

theorem MemoryMap.mapped_iff (x : Word) : MemoryMap.Mapped x ↔
    (0x10000000 ≤ x.toNat ∧ x.toNat ≤ 0x7FFFFFFF) ∨ (0xFFFF0000 ≤ x.toNat ∧ x.toNat < 0xFFFF0FA0) :=
  Iff.rfl

/-- More addresses than there are cannot all be mapped, since zero is not. -/
theorem Permitted.length_le {a : Word} {n : Nat} (permitted : Permitted a n) : n ≤ 0x100000000 := by
  by_contra more
  have place : a + BitVec.ofNat 32 (0 - a).toNat = 0 := by
    rw [BitVec.ofNat_toNat, BitVec.setWidth_eq, BitVec.add_comm, BitVec.sub_add_cancel]
  have below : (0 - a).toNat < 0x100000000 := (0 - a).isLt
  have mapped := permitted (0 - a).toNat (by omega)
  rw [place, MemoryMap.mapped_iff] at mapped
  simp at mapped

namespace Memory

def flat (m : Memory) : Flat := fun x => m.bytes[x]?

/-- What may be done to the bytes of a memory, with checks and without. -/
inductive Access where
  | write (a : Word) (w : Width) (value : Nat)
  | writeBytes (a : Word) (bytes : List Byte)
  | pokeValue (a : Word) (w : Width) (value : Nat)
  | poke (a : Word) (b : Byte)
  | forget (a : Word)
  deriving DecidableEq

/-- An access that is refused leaves the memory as it is. -/
def access (m : Memory) : Access → Memory
  | .write a w value => (m.write a w value).toOption.getD m
  | .writeBytes a bytes => (m.writeBytes a bytes).toOption.getD m
  | .pokeValue a w value => m.pokeValue a w value
  | .poke a b => m.poke a b
  | .forget a => m.forget a

end Memory

namespace Flat

def access (f : Flat) : Memory.Access → Flat
  | .write a w value =>
    if w.bytes ∣ a.toNat ∧ Permitted a w.bytes then f.lay a (littleEndian w.bytes value) else f
  | .writeBytes a bytes => if Permitted a bytes.length then f.lay a bytes else f
  | .pokeValue a w value => f.lay a (littleEndian w.bytes value)
  | .poke a b => f.lay a [b]
  | .forget a => f.forget a

end Flat

namespace Memory

variable {m : Memory}

theorem accessible_iff (a : Word) : accessible a = true ↔ MemoryMap.Mapped a := by
  have upper : MemoryMap.terminalBase ≤ a →
      (a - MemoryMap.terminalBase).toNat = a.toNat - MemoryMap.terminalBase.toNat := by
    intro above
    rw [BitVec.toNat_sub_of_le above]
  simp only [accessible, MemoryMap.Mapped, Bool.or_eq_true, Bool.and_eq_true, decide_eq_true_eq,
    BitVec.le_def]
  constructor
  · rintro (user | ⟨above, below⟩)
    · exact .inl user
    · rw [upper (BitVec.le_def.mpr above)] at below
      exact .inr ⟨above, by omega⟩
  · rintro (user | ⟨above, below⟩)
    · exact .inl user
    · rw [upper (BitVec.le_def.mpr above)]
      exact .inr ⟨above, by omega⟩

/-- An aligned access does not go around the end of the address space. -/
theorem aligned_inside {a : Word} {w : Width} (aligned : w.bytes ∣ a.toNat) :
    a.toNat + (w.bytes - 1) < 0x100000000 := by
  have below : a.toNat < 0x100000000 := a.isLt
  cases w <;> simp only [Width.bytes] at aligned ⊢ <;> omega

/-- An aligned access is mapped as a whole if its ends are: no width reaches across an end of a
mapped range. -/
theorem permitted_iff_ends {a : Word} {w : Width} (aligned : w.bytes ∣ a.toNat) :
    Permitted a w.bytes ↔
      MemoryMap.Mapped a ∧ MemoryMap.Mapped (a + BitVec.ofNat 32 (w.bytes - 1)) := by
  have inside := aligned_inside aligned
  have width : 0 < w.bytes := by cases w <;> decide
  constructor
  · intro permitted
    have first := permitted 0 width
    rw [BitVec.add_zero] at first
    exact ⟨first, permitted (w.bytes - 1) (by omega)⟩
  · rintro ⟨first, last⟩ i less
    have place : (a + BitVec.ofNat 32 i).toNat = a.toNat + i := toNat_add_ofNat (by omega)
    rw [MemoryMap.mapped_iff, toNat_add_ofNat inside] at last
    rw [MemoryMap.mapped_iff] at first
    rw [MemoryMap.mapped_iff, place]
    cases w <;> simp only [Width.bytes] at aligned less last <;> omega

theorem check_eq (a : Word) (w : Width) : check a w.bytes =
    if w.bytes ∣ a.toNat then
      if Permitted a w.bytes then .ok () else .error (.addressOutOfRange a)
    else .error (.misalignedAccess a w.bytes) := by
  unfold check
  by_cases aligned : w.bytes ∣ a.toNat
  · have inside := aligned_inside aligned
    rw [if_neg (by simpa using Nat.mod_eq_zero_of_dvd aligned), if_pos aligned]
    simp only [inside, accessible_iff, permitted_iff_ends aligned, true_and]
  · rw [if_pos (by simpa [Nat.dvd_iff_mod_eq_zero] using aligned), if_neg aligned]

theorem check_byte (a : Word) :
    check a 1 = if MemoryMap.Mapped a then .ok () else .error (.addressOutOfRange a) := by
  have checked := check_eq a .byte
  have single : Permitted a 1 ↔ MemoryMap.Mapped a := by
    constructor
    · intro permitted
      simpa using permitted 0 Nat.one_pos
    · intro mapped i less
      obtain rfl : i = 0 := by omega
      simpa using mapped
  simpa only [Width.bytes, one_dvd, if_true, single] using checked

/-- Checks one after another all pass, or the first that does not is reported. -/
theorem forM_check_byte (a : Word) (places : List Nat) :
    (places.forM fun i => check (a + BitVec.ofNat 32 i) 1) =
      match places.find? fun i => ¬ MemoryMap.Mapped (a + BitVec.ofNat 32 i) with
      | none => .ok ()
      | some i => .error (.addressOutOfRange (a + BitVec.ofNat 32 i)) := by
  induction places with
  | nil => rfl
  | cons i rest ih =>
    change (check (a + BitVec.ofNat 32 i) 1 >>= fun _ => _) = _
    rw [check_byte]
    by_cases mapped : MemoryMap.Mapped (a + BitVec.ofNat 32 i)
    · rw [if_pos mapped, List.find?_cons_of_neg (by simpa using mapped), ← ih]
      rfl
    · rw [if_neg mapped, List.find?_cons_of_pos (by simpa using mapped)]
      rfl

theorem lay_nil (f : Flat) (a : Word) : f.lay a [] = f := by
  funext x
  simp [Flat.lay]

theorem lay_cons (f : Flat) (a : Word) (b : Byte) {rest : List Byte}
    (fits : rest.length < 0x100000000) :
    f.lay a (b :: rest) = (f.lay a [b]).lay (a + 1) rest := by
  funext x
  simp only [Flat.lay]
  by_cases here : x = a
  · subst here
    rw [getElem?_before fits, offset_self]
    rfl
  · rw [offset_succ here]
    simp

theorem flat_poke (m : Memory) (a : Word) (b : Byte) : (m.poke a b).flat = m.flat.lay a [b] := by
  funext x
  rw [flat, getElem?_poke]
  by_cases here : x = a
  · subst here
    simp [Flat.lay]
  · rw [if_neg (Ne.symm here)]
    simp only [Flat.lay, offset_succ here]
    rfl

theorem flat_forget (m : Memory) (a : Word) : (m.forget a).flat = m.flat.forget a := by
  funext x
  simp only [flat, getElem?_forget, Flat.forget, eq_comm]

theorem flat_pokeBytes {bytes : List Byte} (m : Memory) (a : Word)
    (fits : bytes.length ≤ 0x100000000) : (m.pokeBytes a bytes).flat = m.flat.lay a bytes := by
  induction bytes generalizing m a with
  | nil => exact (lay_nil m.flat a).symm
  | cons b rest ih =>
    rw [List.length_cons] at fits
    rw [pokeBytes, ih (m.poke a b) (a + 1) (by omega), flat_poke, ← lay_cons _ _ _ (by omega)]

theorem writeBytes_eq (m : Memory) (a : Word) (bytes : List Byte) : m.writeBytes a bytes =
    match (List.range bytes.length).find? fun i => ¬ MemoryMap.Mapped (a + BitVec.ofNat 32 i) with
    | none => .ok (m.pokeBytes a bytes)
    | some i => .error (.addressOutOfRange (a + BitVec.ofNat 32 i)) := by
  rw [writeBytes, forM_check_byte]
  split <;> rfl

theorem writeBytes_permitted {a : Word} {bytes : List Byte} (m : Memory)
    (permitted : Permitted a bytes.length) : m.writeBytes a bytes = .ok (m.pokeBytes a bytes) := by
  have passed : ((List.range bytes.length).find? fun i =>
      ¬ MemoryMap.Mapped (a + BitVec.ofNat 32 i)) = none := by
    rw [List.find?_eq_none]
    intro i member
    simpa using permitted i (List.mem_range.mp member)
  rw [writeBytes_eq, passed]

theorem writeBytes_refused {a : Word} {bytes : List Byte} (m : Memory)
    (refused : ¬ Permitted a bytes.length) : ∃ i < bytes.length,
      ¬ MemoryMap.Mapped (a + BitVec.ofNat 32 i) ∧
        m.writeBytes a bytes = .error (.addressOutOfRange (a + BitVec.ofNat 32 i)) := by
  rw [writeBytes_eq]
  cases found : (List.range bytes.length).find? fun i =>
      ¬ MemoryMap.Mapped (a + BitVec.ofNat 32 i) with
  | none =>
    rw [List.find?_eq_none] at found
    refine absurd (fun i less => ?_) refused
    simpa using found i (List.mem_range.mpr less)
  | some i =>
    have unmapped := List.find?_some found
    exact ⟨i, List.mem_range.mp (List.mem_of_find?_eq_some found), by simpa using unmapped, rfl⟩

theorem ofLittleEndian_range (byte : Nat → Byte) (n : Nat) :
    ofLittleEndian ((List.range n).map byte) = ∑ i ∈ Finset.range n, 256 ^ i * (byte i).toNat := by
  induction n generalizing byte with
  | zero => rfl
  | succ n ih =>
    have rest := ih fun i => byte (i + 1)
    rw [List.range_succ_eq_map, List.map_cons, List.map_map, ofLittleEndian,
      Finset.sum_range_succ', Function.comp_def, rest, Finset.mul_sum, pow_zero, one_mul, add_comm]
    congr 1
    refine Finset.sum_congr rfl fun i _ => ?_
    rw [pow_succ, mul_left_comm, mul_assoc]

theorem peek_eq (m : Memory) (x : Word) : m.peek x = m.flat.value m.garbage x := rfl

theorem peekValue_eq (m : Memory) (a : Word) (w : Width) : m.peekValue a w =
    ∑ i ∈ Finset.range w.bytes, 256 ^ i * (m.flat.value m.garbage (a + BitVec.ofNat 32 i)).toNat :=
  ofLittleEndian_range (fun i => m.peek (a + BitVec.ofNat 32 i)) w.bytes

theorem isWritten_eq (m : Memory) (x : Word) : m.isWritten x = (m.flat x).isSome :=
  Std.ExtTreeMap.contains_eq_isSome_getElem?

theorem lay_outside (f : Flat) {a x : Word} {bytes : List Byte}
    (outside : bytes.length ≤ (x - a).toNat) : f.lay a bytes x = f x := by
  rw [Flat.lay, List.getElem?_eq_none outside, Option.none_or]

theorem garbage_pokeBytes (m : Memory) (a : Word) (bytes : List Byte) :
    (m.pokeBytes a bytes).garbage = m.garbage :=
  (sameOutside_pokeBytes m a bytes).garbage

theorem peekBytes_pokeBytes (m : Memory) (a : Word) {bytes : List Byte}
    (fits : bytes.length ≤ 0x100000000) :
    (m.pokeBytes a bytes).peekBytes a bytes.length = bytes := by
  apply List.ext_getElem?
  intro i
  by_cases inside : i < bytes.length
  · have place : (a + BitVec.ofNat 32 i - a).toNat = i := offset_add (by omega)
    have found : (m.pokeBytes a bytes).peek (a + BitVec.ofNat 32 i) = bytes[i] := by
      rw [peek_eq, flat_pokeBytes m a fits, Flat.value, Flat.lay, place,
        List.getElem?_eq_getElem inside]
      rfl
    simp [peekBytes, inside, found]
  · simp [peekBytes, inside]

theorem width_fits (w : Width) (value : Nat) :
    (littleEndian w.bytes value).length ≤ 0x100000000 := by
  rw [length_littleEndian]
  cases w <;> decide

theorem flat_pokeValue (m : Memory) (a : Word) (w : Width) (value : Nat) :
    (m.pokeValue a w value).flat = m.flat.lay a (littleEndian w.bytes value) :=
  flat_pokeBytes m a (width_fits w value)

theorem peekValue_pokeValue (m : Memory) (a : Word) (w : Width) (value : Nat) :
    (m.pokeValue a w value).peekValue a w = value % 256 ^ w.bytes := by
  have found := peekBytes_pokeBytes m a (width_fits w value)
  rw [length_littleEndian] at found
  rw [peekValue, pokeValue, found]
  exact ofLittleEndian_littleEndian w.bytes value

/-- `k` differs from `m` in no byte but the `n` from `a` on: neither in what is read there nor in
whether it counts as written. -/
def KeptOutside (m k : Memory) (a : Word) (n : Nat) : Prop :=
  ∀ x : Word, n ≤ (x - a).toNat → k.peek x = m.peek x ∧ k.isWritten x = m.isWritten x

theorem keptOutside_pokeBytes (m : Memory) (a : Word) {bytes : List Byte}
    (fits : bytes.length ≤ 0x100000000) :
    m.KeptOutside (m.pokeBytes a bytes) a bytes.length := by
  intro x outside
  simp only [peek_eq, isWritten_eq, Flat.value, flat_pokeBytes m a fits, garbage_pokeBytes,
    lay_outside _ outside, and_self]

/-- `m` behaves as the flat array `f` does, of which a byte that nobody put there is filler when
`garbage` is set and zero otherwise. -/
structure Refines (m : Memory) (garbage : Bool) (f : Flat) : Prop where
  written (x : Word) : m.isWritten x = (f x).isSome
  peek (x : Word) : m.peek x = f.value garbage x
  misaligned (a : Word) (w : Width) : ¬ w.bytes ∣ a.toNat →
    m.read a w = .error (.misalignedAccess a w.bytes) ∧
      ∀ value, m.write a w value = .error (.misalignedAccess a w.bytes)
  outside (a : Word) (w : Width) : w.bytes ∣ a.toNat → ¬ Permitted a w.bytes →
    m.read a w = .error (.addressOutOfRange a) ∧
      ∀ value, m.write a w value = .error (.addressOutOfRange a)
  read (a : Word) (w : Width) : w.bytes ∣ a.toNat → Permitted a w.bytes →
    m.read a w = .ok
      (∑ i ∈ Finset.range w.bytes, 256 ^ i * (f.value garbage (a + BitVec.ofNat 32 i)).toNat)
  write (a : Word) (w : Width) (value : Nat) : w.bytes ∣ a.toNat → Permitted a w.bytes →
    ∃ k, m.write a w value = .ok k ∧ k.flat = f.lay a (littleEndian w.bytes value) ∧
      k.read a w = .ok (value % 256 ^ w.bytes) ∧ m.KeptOutside k a w.bytes
  writeBytes (a : Word) (bytes : List Byte) : Permitted a bytes.length →
    ∃ k, m.writeBytes a bytes = .ok k ∧ k.flat = f.lay a bytes ∧
      k.peekBytes a bytes.length = bytes ∧ m.KeptOutside k a bytes.length
  refused (a : Word) (bytes : List Byte) : ¬ Permitted a bytes.length →
    ∃ i < bytes.length, ¬ MemoryMap.Mapped (a + BitVec.ofNat 32 i) ∧
      m.writeBytes a bytes = .error (.addressOutOfRange (a + BitVec.ofNat 32 i))

theorem write_eq (m : Memory) (a : Word) (w : Width) (value : Nat) : m.write a w value =
    if w.bytes ∣ a.toNat then
      if Permitted a w.bytes then .ok (m.pokeValue a w value) else .error (.addressOutOfRange a)
    else .error (.misalignedAccess a w.bytes) := by
  rw [Memory.write, check_eq]
  split
  · split <;> rfl
  · rfl

theorem read_eq (m : Memory) (a : Word) (w : Width) : m.read a w =
    if w.bytes ∣ a.toNat then
      if Permitted a w.bytes then .ok (m.peekValue a w) else .error (.addressOutOfRange a)
    else .error (.misalignedAccess a w.bytes) := by
  rw [Memory.read, check_eq]
  split
  · split <;> rfl
  · rfl

theorem refines_flat (m : Memory) : m.Refines m.garbage m.flat where
  written := isWritten_eq m
  peek := peek_eq m
  misaligned a w misaligned :=
    ⟨by rw [read_eq, if_neg misaligned], fun value => by rw [write_eq, if_neg misaligned]⟩
  outside a w aligned outside :=
    ⟨by rw [read_eq, if_pos aligned, if_neg outside],
      fun value => by rw [write_eq, if_pos aligned, if_neg outside]⟩
  read a w aligned permitted := by
    rw [read_eq, if_pos aligned, if_pos permitted, peekValue_eq]
  write a w value aligned permitted := by
    have kept := keptOutside_pokeBytes m a (width_fits w value)
    rw [length_littleEndian] at kept
    refine ⟨m.pokeValue a w value, ?_, flat_pokeValue m a w value, ?_, kept⟩
    · rw [write_eq, if_pos aligned, if_pos permitted]
    · rw [read_eq, if_pos aligned, if_pos permitted, peekValue_pokeValue]
  writeBytes a bytes permitted :=
    ⟨m.pokeBytes a bytes, writeBytes_permitted m permitted,
      flat_pokeBytes m a permitted.length_le, peekBytes_pokeBytes m a permitted.length_le,
      keptOutside_pokeBytes m a permitted.length_le⟩
  refused _ _ refused := writeBytes_refused m refused

/-- One access does to the memory what it does to the array. -/
theorem flat_access (m : Memory) (acc : Access) : (m.access acc).flat = m.flat.access acc := by
  cases acc with
  | write a w value =>
    rw [access, Flat.access, write_eq]
    by_cases aligned : w.bytes ∣ a.toNat
    · by_cases permitted : Permitted a w.bytes
      · rw [if_pos aligned, if_pos permitted, if_pos ⟨aligned, permitted⟩]
        exact flat_pokeValue m a w value
      · rw [if_pos aligned, if_neg permitted, if_neg (by simp [permitted])]
        rfl
    · rw [if_neg aligned, if_neg (by simp [aligned])]
      rfl
  | writeBytes a bytes =>
    rw [access, Flat.access]
    by_cases permitted : Permitted a bytes.length
    · rw [writeBytes_permitted m permitted, if_pos permitted]
      exact flat_pokeBytes m a permitted.length_le
    · obtain ⟨i, -, -, refused⟩ := writeBytes_refused m permitted
      rw [refused, if_neg permitted]
      rfl
  | pokeValue a w value => exact flat_pokeValue m a w value
  | poke a b => exact flat_poke m a b
  | forget a => exact flat_forget m a

theorem garbage_access (m : Memory) (acc : Access) : (m.access acc).garbage = m.garbage := by
  cases acc with
  | write a w value =>
    rw [access, write_eq]
    split
    · split
      · exact garbage_pokeBytes m a _
      · rfl
    · rfl
  | writeBytes a bytes =>
    rw [access, writeBytes_eq]
    split
    · exact garbage_pokeBytes m a bytes
    · rfl
  | pokeValue a w value => exact garbage_pokeBytes m a _
  | poke a b => rfl
  | forget a => rfl

/-- After any accesses, overlapping as they may be and refused or not, memory is the flat array on
which they were all carried out. -/
theorem accesses_refine (m : Memory) (accesses : List Access) :
    (accesses.foldl access m).Refines m.garbage (accesses.foldl Flat.access m.flat) := by
  induction accesses generalizing m with
  | nil => exact refines_flat m
  | cons acc rest ih =>
    have later := ih (m.access acc)
    rw [garbage_access, flat_access] at later
    exact later

end Memory

end MipsLab
