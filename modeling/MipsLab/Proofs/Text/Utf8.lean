import Mathlib
import MipsLab.Text.Bytes

/-! Texts in UTF-8. Their bytes are those of their characters, one behind the other; only the zero
character is encoded with a zero byte, and an ASCII character with the byte that is its code. -/
namespace MipsLab.Text

theorem toList_loop (bytes : ByteArray) (i : Nat) (before : List UInt8) :
    ByteArray.toList.loop bytes i before = before.reverse ++ bytes.data.toList.drop i := by
  fun_induction ByteArray.toList.loop bytes i before with
  | case1 i before inside ih =>
    have inside : i < bytes.data.toList.length := inside
    have found : bytes.get! i = bytes.data.toList[i] := by
      rw [Array.getElem_toList]
      exact getElem!_pos bytes.data i inside
    rw [ih, List.drop_eq_getElem_cons inside, List.reverse_cons, List.append_assoc, found]
    rfl
  | case2 i before outside =>
    have outside : bytes.data.toList.length ≤ i := Nat.not_lt.mp outside
    rw [List.drop_eq_nil_of_le outside, List.append_nil]

theorem utf8Bytes_eq (text : String) : utf8Bytes text =
    (text.toList.flatMap String.utf8EncodeChar).map (·.toBitVec) := by
  rw [utf8Bytes, ByteArray.toList, toList_loop, List.reverse_nil, List.nil_append, List.drop_zero,
    String.toUTF8, ← String.utf8Encode_toList, List.utf8Encode, List.toList_data_toByteArray]

/-- Only the zero character is encoded with a zero byte. -/
theorem utf8Bytes_ne_zero {text : String} (plain : '\x00' ∉ text.toList) :
    ∀ b ∈ utf8Bytes text, b ≠ 0 := by
  intro b member
  rw [utf8Bytes_eq] at member
  obtain ⟨byte, encoded, rfl⟩ := List.mem_map.mp member
  obtain ⟨c, inside, encoded⟩ := List.mem_flatMap.mp encoded
  have other : c.val.toNat ≠ 0 := by
    intro zero
    have same : c = '\x00' := Char.ext (UInt32.toNat_inj.mp zero)
    exact plain (same ▸ inside)
  have nonzero {n : Nat} (low : n % 256 ≠ 0) : (UInt8.ofNat n).toBitVec ≠ 0 := by
    intro zero
    have value := congrArg BitVec.toNat zero
    simp only [UInt8.toBitVec_ofNat', BitVec.toNat_ofNat] at value
    exact low value
  unfold String.utf8EncodeChar at encoded
  dsimp only at encoded
  split at encoded
  · obtain rfl := List.mem_singleton.mp encoded
    exact nonzero (by omega)
  · split at encoded
    · simp only [List.mem_cons, List.not_mem_nil, or_false] at encoded
      obtain rfl | rfl := encoded <;> exact nonzero (by omega)
    · split at encoded
      · simp only [List.mem_cons, List.not_mem_nil, or_false] at encoded
        obtain rfl | rfl | rfl := encoded <;> exact nonzero (by omega)
      · simp only [List.mem_cons, List.not_mem_nil, or_false] at encoded
        obtain rfl | rfl | rfl | rfl := encoded <;> exact nonzero (by omega)

theorem utf8EncodeChar_ascii {c : Char} (ascii : c.toNat < 128) :
    (String.utf8EncodeChar c).map (·.toBitVec) = [charByte c] := by
  have small : c.val.toNat ≤ 127 := Nat.le_of_lt_succ ascii
  have latin : c.toNat < 256 := by omega
  unfold String.utf8EncodeChar
  rw [if_pos small, charByte, if_pos latin]
  rfl

theorem utf8Bytes_ascii {text : String} (ascii : ∀ c ∈ text.toList, c.toNat < 128) :
    utf8Bytes text = text.toList.map charByte := by
  rw [utf8Bytes_eq, List.map_flatMap, ← List.flatMap_pure_eq_map]
  exact List.flatMap_congr fun c member => utf8EncodeChar_ascii (ascii c member)

end MipsLab.Text
