import MipsLab.Text.Bytes

/-! Numbers as bytes, and stretches of addresses. The bytes of a number, least significant first,
are read back as its remainder; and how far an address lies behind the start of a stretch is counted
around the end of the address space. -/
namespace MipsLab

theorem length_littleEndian (count value : Nat) : (littleEndian count value).length = count := by
  induction count generalizing value with
  | zero => rfl
  | succ count ih => rw [littleEndian, List.length_cons, ih]

/-- What is left of a number in its `count` lowest bytes. -/
theorem ofLittleEndian_littleEndian (count value : Nat) :
    ofLittleEndian (littleEndian count value) = value % Nat.pow 256 count := by
  induction count generalizing value with
  | zero => exact (Nat.mod_one value).symm
  | succ count ih =>
    have grows : Nat.pow 256 (count + 1) = 256 * Nat.pow 256 count := Nat.mul_comm _ _
    have low : (BitVec.ofNat 8 value).toNat = value % 256 := BitVec.toNat_ofNat value 8
    rw [littleEndian, ofLittleEndian, ih, low, grows, Nat.mod_mul]

theorem slt_zero_iff (a : Word) : a.slt 0 = true ↔ a.toInt < 0 := by
  simp [BitVec.slt_eq_decide]

theorem offset_self (a : Word) : (a - a).toNat = 0 := by simp

theorem offset_succ {a x : Word} (other : x ≠ a) :
    (x - a).toNat = (x - (a + 1)).toNat + 1 := by
  bv_omega

/-- The address before a stretch is not in it, even if the stretch goes around the end. -/
theorem getElem?_before {α : Type} {stretch : List α} (fits : stretch.length < 0x100000000)
    (a : Word) : stretch[(a - (a + 1)).toNat]? = none := by
  have last : (a - (a + 1)).toNat = 0xFFFFFFFF := by bv_omega
  rw [last]
  exact List.getElem?_eq_none (by omega)

theorem add_ofNat_succ (a : Word) (n : Nat) :
    a + BitVec.ofNat 32 (n + 1) = a + 1 + BitVec.ofNat 32 n := by
  rw [Nat.add_comm n 1, BitVec.ofNat_add, ← BitVec.add_assoc]
  rfl

/-- An address `n` behind another, where that does not go around. -/
theorem toNat_add_ofNat {a : Word} {n : Nat} (inside : a.toNat + n < 0x100000000) :
    (a + BitVec.ofNat 32 n).toNat = a.toNat + n := by
  rw [BitVec.toNat_add, BitVec.toNat_ofNat]
  omega

/-- An address `n` before another, where that does not go around. -/
theorem toNat_sub_ofNat {a : Word} {n : Nat} (inside : n ≤ a.toNat) :
    (a - BitVec.ofNat 32 n).toNat = a.toNat - n := by
  have below := a.isLt
  rw [BitVec.toNat_sub, BitVec.toNat_ofNat]
  omega

theorem offset_add {a : Word} {n : Nat} (small : n < 0x100000000) :
    (a + BitVec.ofNat 32 n - a).toNat = n := by
  rw [BitVec.toNat_sub, BitVec.toNat_add, BitVec.toNat_ofNat]
  have below : a.toNat < 0x100000000 := a.isLt
  omega

end MipsLab
