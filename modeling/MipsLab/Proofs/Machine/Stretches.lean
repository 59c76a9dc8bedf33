import MipsLab.Proofs.Machine.StoredText

/-! Stretches of memory, one behind the other. What is written in one of them is not seen in
another. -/
namespace MipsLab

structure Stretch where
  first : Word
  size : Nat
  deriving DecidableEq

namespace Stretch

variable {s t : Stretch}

def addresses (s : Stretch) : List Word := Memory.addresses s.first s.size

/-- `s` ends where `t` starts, or earlier. -/
def Before (s t : Stretch) : Prop := s.first.toNat + s.size ≤ t.first.toNat

instance (s t : Stretch) : Decidable (s.Before t) := Nat.decLe _ _

theorem mem_addresses (inside : s.first.toNat + s.size ≤ 0x100000000) {x : Word} :
    x ∈ s.addresses ↔ s.first.toNat ≤ x.toNat ∧ x.toNat < s.first.toNat + s.size := by
  simp only [addresses, Memory.addresses, List.mem_map, List.mem_range]
  constructor
  · rintro ⟨i, less, rfl⟩
    rw [toNat_add_ofNat (by omega)]
    omega
  · rintro ⟨first, last⟩
    refine ⟨x.toNat - s.first.toNat, by omega, BitVec.eq_of_toNat_eq ?_⟩
    rw [toNat_add_ofNat (by omega)]
    omega

theorem Before.disjoint (before : s.Before t)
    (inside : t.first.toNat + t.size ≤ 0x100000000) : s.addresses.Disjoint t.addresses := by
  have earlier : s.first.toNat + s.size ≤ 0x100000000 := by
    have := t.first.isLt
    unfold Before at before
    omega
  intro x left right
  rw [mem_addresses earlier] at left
  rw [mem_addresses inside] at right
  exact absurd right.1 (by unfold Before at before; omega)

theorem subset_addresses (first : t.first.toNat ≤ s.first.toNat)
    (last : s.first.toNat + s.size ≤ t.first.toNat + t.size)
    (inside : t.first.toNat + t.size ≤ 0x100000000) : s.addresses ⊆ t.addresses := by
  intro x member
  rw [mem_addresses (by omega)] at member
  rw [mem_addresses inside]
  omega

end Stretch

namespace Memory

variable {m k l : Memory} {touched : List Word}

theorem SameOutside.trans (first : m.SameOutside k touched) (second : k.SameOutside l touched) :
    m.SameOutside l touched :=
  ⟨second.garbage.trans first.garbage, fun x outside =>
    (second.bytes x outside).trans (first.bytes x outside)⟩

theorem SameOutside.peekBytes (same : m.SameOutside k touched) {a : Word} {n : Nat}
    (apart : touched.Disjoint (addresses a n)) : k.peekBytes a n = m.peekBytes a n := by
  refine List.map_congr_left fun i inside => ?_
  have outside : a + BitVec.ofNat 32 i ∉ touched := fun member =>
    apart member (List.mem_map_of_mem inside)
  rw [peek, peek, same.bytes _ outside, same.garbage]

end Memory

end MipsLab
