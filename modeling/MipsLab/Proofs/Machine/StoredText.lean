import MipsLab.Proofs.Machine.FlatMemory

/-! Texts in memory. A text of characters that fit into a byte is stored with one byte for each and
a zero byte behind them, and is read back up to that byte. -/
namespace MipsLab

namespace Text

theorem byteChar_charByte {c : Char} (latin : c.toNat < 256) : byteChar (charByte c) = c := by
  have same : (charByte c).toNat = c.toNat := by
    rw [charByte, if_pos latin, BitVec.toNat_ofNat, Nat.mod_eq_of_lt latin]
  rw [byteChar, same, Char.ofNat_toNat]

theorem byteText_charByte {s : List Char} (latin : ∀ c ∈ s, c.toNat < 256) :
    byteText (s.map charByte) = String.ofList s := by
  have same : (s.map charByte).map byteChar = s := by
    rw [List.map_map]
    exact (List.map_congr_left fun c member => byteChar_charByte (latin c member)).trans
      (List.map_id s)
  rw [byteText, same]

/-- Only the zero character ends a text. -/
theorem charByte_ne_zero {c : Char} (latin : c.toNat < 256) (other : c ≠ '\x00') :
    charByte c ≠ 0 := by
  intro zero
  have same := byteChar_charByte latin
  rw [zero] at same
  exact other same.symm

end Text

namespace Permitted

variable {a : Word} {n : Nat}

theorem head (permitted : Permitted a (n + 1)) : MemoryMap.Mapped a := by
  simpa using permitted 0 n.succ_pos

theorem tail (permitted : Permitted a (n + 1)) : Permitted (a + 1) n := by
  intro i less
  rw [← add_ofNat_succ]
  exact permitted (i + 1) (Nat.succ_lt_succ less)

end Permitted

namespace Memory

variable {m : Memory}

theorem readByte_eq (m : Memory) (a : Word) : m.readByte a =
    if MemoryMap.Mapped a then .ok (m.peek a) else .error (.addressOutOfRange a) := by
  have value : BitVec.ofNat 8 (m.peekValue a .byte) = m.peek a := by
    simp [peekValue, peekBytes, Width.bytes, ofLittleEndian]
  rw [readByte, read, Width.bytes, check_byte]
  split
  · exact congrArg Except.ok value
  · rfl

theorem peekBytes_succ (m : Memory) (a : Word) (n : Nat) :
    m.peekBytes a (n + 1) = m.peek a :: m.peekBytes (a + 1) n := by
  rw [peekBytes, List.range_succ_eq_map, List.map_cons, List.map_map, BitVec.add_zero]
  simp only [peekBytes, Function.comp_def, Nat.succ_eq_add_one, add_ofNat_succ]

/-- Bytes of which none is zero, with a zero byte behind them, are read as a string. -/
theorem readStringTo_stored {bytes : List Byte} {limit : Nat} {a : Word}
    (stored : m.peekBytes a (bytes.length + 1) = bytes ++ [0])
    (permitted : Permitted a (bytes.length + 1)) (nonzero : ∀ b ∈ bytes, b ≠ 0)
    (short : bytes.length < limit) : m.readStringTo limit a = .ok bytes := by
  induction bytes generalizing limit a with
  | nil =>
    obtain ⟨limit, rfl⟩ := Nat.exists_eq_succ_of_ne_zero (by omega : limit ≠ 0)
    obtain ⟨zero, -⟩ := List.cons.inj ((peekBytes_succ m a 0).symm.trans stored)
    rw [readStringTo, readByte_eq, if_pos permitted.head, zero]
    rfl
  | cons b bytes ih =>
    obtain ⟨limit, rfl⟩ := Nat.exists_eq_succ_of_ne_zero (by omega : limit ≠ 0)
    rw [List.length_cons] at stored permitted short
    rw [peekBytes_succ, List.cons_append] at stored
    obtain ⟨first, later⟩ := List.cons.inj stored
    have rest := ih later permitted.tail
      (fun c member => nonzero c (List.mem_cons_of_mem b member)) (Nat.lt_of_succ_lt_succ short)
    rw [readStringTo, readByte_eq, if_pos permitted.head, first]
    change (if b = 0 then Except.ok [] else m.readStringTo limit (a + 1) >>= fun rest =>
      Except.ok (b :: rest)) = _
    rw [if_neg (nonzero b List.mem_cons_self), rest]
    rfl

end Memory

end MipsLab
