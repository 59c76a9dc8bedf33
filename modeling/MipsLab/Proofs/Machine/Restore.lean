import MipsLab.Machine.Change
import MipsLab.Proofs.Text.Bytes

/-! Putting back what was written. A write is made undone by writing again what was found before,
and memory is made undone by a snapshot of all the bytes that may have been touched. -/
namespace MipsLab

theorem setIfInBounds_found {α : Type} {n : Nat} (v : Vector α n) (i : Nat) (missing : α) :
    v.setIfInBounds i (v[i]?.getD missing) = v := by
  apply Vector.ext
  intro j inside
  by_cases same : i = j
  · subst same
    simp [inside]
  · simp [same]

namespace Registers

@[simp] theorem write_write (r : Registers) (i : Nat) (x y : Word) :
    (r.write i x).write i y = r.write i y := by
  unfold write
  split
  · rfl
  · simp only [Vector.setIfInBounds_setIfInBounds]

@[simp] theorem write_found (r : Registers) (i : Nat) : r.write i (r.read i) = r := by
  unfold write read
  split
  · rfl
  · simp only [setIfInBounds_found]

@[simp] theorem writeFloat_writeFloat (r : Registers) (i : Nat) (x y : Word) :
    (r.writeFloat i x).writeFloat i y = r.writeFloat i y := by
  simp only [writeFloat, Vector.setIfInBounds_setIfInBounds]

@[simp] theorem writeFloat_found (r : Registers) (i : Nat) :
    r.writeFloat i (r.readFloat i) = r := by
  simp only [writeFloat, readFloat, setIfInBounds_found]

theorem writeFloat_comm (r : Registers) {i j : Nat} (apart : i ≠ j) (x y : Word) :
    (r.writeFloat i x).writeFloat j y = (r.writeFloat j y).writeFloat i x := by
  simp only [writeFloat, Vector.setIfInBound_comm x y apart]

theorem writeFloat_write (r : Registers) (i j : Nat) (x y : Word) :
    (r.write i x).writeFloat j y = (r.writeFloat j y).write i x := by
  unfold write
  split <;> rfl

theorem write_pc (r : Registers) (i : Nat) (value pc : Word) :
    ({ r with pc }.write i value : Registers) = { r.write i value with pc } := by
  unfold write
  split <;> rfl

@[simp] theorem writePair_writePair (r : Registers) (i : Nat) (low high x y : Word) :
    (r.writePair i low high).writePair i x y = r.writePair i x y := by
  have apart : i + 1 ≠ i := by omega
  simp only [writePair]
  rw [writeFloat_comm _ apart, writeFloat_writeFloat, writeFloat_writeFloat]

@[simp] theorem writePair_found (r : Registers) (i : Nat) :
    r.writePair i (r.readFloat i) (r.readFloat (i + 1)) = r := by
  rw [writePair, writeFloat_found, writeFloat_found]

@[simp] theorem setFlag_setFlag (r : Registers) (i : Nat) (x y : Bool) :
    (r.setFlag i x).setFlag i y = r.setFlag i y := by
  simp only [setFlag, Vector.setIfInBounds_setIfInBounds]

@[simp] theorem setFlag_found (r : Registers) (i : Nat) : r.setFlag i (r.flag i) = r := by
  simp only [setFlag, flag, setIfInBounds_found]

end Registers

namespace Memory

/-- Memory is determined by its bytes, its filler and the end of its heap. -/
theorem ext_bytes {m k : Memory} (bytes : ∀ x : Word, m.bytes[x]? = k.bytes[x]?)
    (garbage : m.garbage = k.garbage) (heapTop : m.heapTop = k.heapTop) : m = k := by
  have sameBytes : m.bytes = k.bytes := Std.ExtTreeMap.ext_getElem? fun {x} => bytes x
  cases m
  cases k
  simp_all

theorem getElem?_poke (m : Memory) (a x : Word) (b : Byte) :
    (m.poke a b).bytes[x]? = if a = x then some b else m.bytes[x]? := by
  simp only [poke, Std.ExtTreeMap.getElem?_insert, Std.LawfulEqOrd.compare_eq_iff_eq]

theorem getElem?_forget (m : Memory) (a x : Word) :
    (m.forget a).bytes[x]? = if a = x then none else m.bytes[x]? := by
  simp only [forget, Std.ExtTreeMap.getElem?_erase, Std.LawfulEqOrd.compare_eq_iff_eq]

/-- The `n` addresses from `a` on. -/
def addresses (a : Word) (n : Nat) : List Word :=
  (List.range n).map fun i => a + BitVec.ofNat 32 i

theorem addresses_succ (a : Word) (n : Nat) : addresses a (n + 1) = a :: addresses (a + 1) n := by
  simp only [addresses, List.range_succ_eq_map, List.map_cons, List.map_map, Function.comp_def,
    Nat.succ_eq_add_one, add_ofNat_succ]
  simp

theorem addresses_subset {a : Word} {n k : Nat} (le : n ≤ k) : addresses a n ⊆ addresses a k := by
  intro x member
  obtain ⟨i, inside, rfl⟩ := List.mem_map.mp member
  exact List.mem_map.mpr ⟨i, by simp only [List.mem_range] at inside ⊢; omega, rfl⟩

/-- `k` holds what `m` holds, except perhaps at some addresses. -/
structure SameOutside (m k : Memory) (touched : List Word) : Prop where
  garbage : k.garbage = m.garbage
  bytes : ∀ x, x ∉ touched → k.bytes[x]? = m.bytes[x]?

theorem SameOutside.refl (m : Memory) (touched : List Word) : m.SameOutside m touched :=
  ⟨rfl, fun _ _ => rfl⟩

theorem SameOutside.mono {m k : Memory} {touched more : List Word}
    (same : m.SameOutside k touched) (subset : touched ⊆ more) : m.SameOutside k more :=
  ⟨same.garbage, fun x outside => same.bytes x fun member => outside (subset member)⟩

@[simp] theorem heapTop_pokeBytes (m : Memory) (a : Word) (bytes : List Byte) :
    (m.pokeBytes a bytes).heapTop = m.heapTop := by
  induction bytes generalizing m a with
  | nil => rfl
  | cons b rest ih => exact ih (m.poke a b) (a + 1)

theorem sameOutside_pokeBytes (m : Memory) (a : Word) (bytes : List Byte) :
    m.SameOutside (m.pokeBytes a bytes) (addresses a bytes.length) := by
  induction bytes generalizing m a with
  | nil => exact .refl m _
  | cons b rest ih =>
    have tail := ih (m.poke a b) (a + 1)
    refine ⟨tail.garbage, fun x outside => ?_⟩
    rw [List.length_cons, addresses_succ, List.mem_cons, not_or] at outside
    have kept := tail.bytes x outside.2
    rw [getElem?_poke, if_neg (Ne.symm outside.1)] at kept
    exact kept

def found (m : Memory) (a : Word) : Cell := ⟨a, m.peek a, m.isWritten a⟩

theorem snapshot_eq (m : Memory) (a : Word) (n : Nat) :
    m.snapshot a n = (addresses a n).map m.found := by
  simp only [snapshot, addresses, List.map_map, Function.comp_def, found]

theorem getElem?_restoreCell (m k : Memory) (a x : Word) :
    (k.restoreCell (m.found a)).bytes[x]? = if a = x then m.bytes[x]? else k.bytes[x]? := by
  simp only [restoreCell, found, isWritten, peek, Std.ExtTreeMap.contains_eq_isSome_getElem?]
  cases here : m.bytes[a]? with
  | none =>
    rw [if_neg (by simp), getElem?_forget]
    split
    · next same => rw [← same, here]
    · rfl
  | some b =>
    rw [if_pos (by simp), getElem?_poke]
    split
    · next same => rw [← same, here, Option.getD_some]
    · rfl

@[simp] theorem heapTop_restoreCell (m : Memory) (c : Cell) :
    (m.restoreCell c).heapTop = m.heapTop := by
  unfold restoreCell
  split <;> rfl

@[simp] theorem garbage_restoreCell (m : Memory) (c : Cell) :
    (m.restoreCell c).garbage = m.garbage := by
  unfold restoreCell
  split <;> rfl

@[simp] theorem heapTop_restore (m : Memory) (cells : List Cell) :
    (m.restore cells).heapTop = m.heapTop := by
  induction cells generalizing m with
  | nil => rfl
  | cons c rest ih => exact (ih (m.restoreCell c)).trans (heapTop_restoreCell m c)

@[simp] theorem garbage_restore (m : Memory) (cells : List Cell) :
    (m.restore cells).garbage = m.garbage := by
  induction cells generalizing m with
  | nil => rfl
  | cons c rest ih => exact (ih (m.restoreCell c)).trans (garbage_restoreCell m c)

/-- Every restored byte is as it was in the memory it was found in. An address may come twice,
since both times the same is put back. -/
theorem getElem?_restore (m k : Memory) (touched : List Word) (x : Word) :
    (k.restore (touched.map m.found)).bytes[x]? =
      if x ∈ touched then m.bytes[x]? else k.bytes[x]? := by
  induction touched generalizing k with
  | nil => rfl
  | cons a rest ih =>
    change ((k.restoreCell (m.found a)).restore (rest.map m.found)).bytes[x]? = _
    rw [ih, getElem?_restoreCell]
    by_cases later : x ∈ rest
    · simp [later]
    · simp [later, eq_comm]

/-- A snapshot restores memory that has changed only where the snapshot was taken. The end of the
heap is left as it is. -/
theorem restore_snapshot {m k : Memory} {a : Word} {n : Nat}
    (same : m.SameOutside k (addresses a n)) :
    k.restore (m.snapshot a n) = { m with heapTop := k.heapTop } := by
  rw [snapshot_eq]
  refine ext_bytes (fun x => ?_) ?_ ?_
  · rw [getElem?_restore]
    split
    · rfl
    · next outside => exact same.bytes x outside
  · rw [garbage_restore, same.garbage]
  · rw [heapTop_restore]

end Memory

end MipsLab
