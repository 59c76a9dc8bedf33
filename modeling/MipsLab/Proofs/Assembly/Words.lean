import MipsLab.Proofs.Assembly.Meaning

/-! Facts about words that expansions rest on. A constant that does not fit into an instruction is
put together from its halves; in a displacement the lower half has a sign, so that the upper one
is taken with a carry. Comparisons of numbers are made from less-than on words. -/
namespace MipsLab

open Selection

theorem toNat_and_lowMask (w : Word) : (w &&& 0xFFFF).toNat = w.toNat % 65536 := by
  rw [BitVec.toNat_and]
  exact Nat.and_two_pow_sub_one_eq_mod w.toNat 16

theorem word_low {v : Int} (fits : fitsUnsigned16 v) : word v &&& 0xFFFF = word v := by
  apply BitVec.eq_of_toNat_eq
  rw [toNat_and_lowMask, word, BitVec.toNat_ofInt]
  obtain ⟨low, high⟩ := fits
  omega

theorem lowerHalf_low (w : Word) :
    BitVec.ofInt 32 (lowerHalf w).toNat &&& 0xFFFF = (lowerHalf w).setWidth 32 := by
  have small := (lowerHalf w).isLt
  apply BitVec.eq_of_toNat_eq
  rw [toNat_and_lowMask, BitVec.ofInt_natCast, BitVec.toNat_ofNat, BitVec.toNat_setWidth]
  omega

theorem or_halves (w : Word) :
    (upperHalf w).setWidth 32 <<< 16 ||| (lowerHalf w).setWidth 32 = w := by
  ext i inside
  simp only [upperHalf, lowerHalf, BitVec.getElem_or, BitVec.getElem_shiftLeft,
    BitVec.getElem_setWidth, BitVec.getLsbD_extractLsb', BitVec.getLsbD_setWidth]
  by_cases low : i < 16
  · simp [low, BitVec.getLsbD_eq_getElem, inside]
  · have high : i - 16 < 16 := by omega
    have place : 16 + (i - 16) = i := by omega
    simp [low, high, place, BitVec.getLsbD_eq_getElem, inside]

theorem toNat_upperHalf_carry (a : Word) :
    ((upperHalf (a + 0x8000)).setWidth 32 <<< 16 : Word).toNat =
      (a.toNat + 0x8000) % 0x100000000 / 0x10000 * 0x10000 := by
  have carry : (0x8000 : Word).toNat = 0x8000 := rfl
  rw [BitVec.toNat_shiftLeft, BitVec.toNat_setWidth, upperHalf, BitVec.extractLsb'_toNat,
    BitVec.toNat_add, Nat.shiftLeft_eq, Nat.shiftRight_eq_div_pow, carry]
  omega

theorem toNat_lowerHalf_signed (a : Word) : (BitVec.ofInt 32 (lowerHalf a).toInt).toNat =
    if a.toNat % 0x10000 < 0x8000 then a.toNat % 0x10000
    else a.toNat % 0x10000 + 0xFFFF0000 := by
  rw [BitVec.toNat_ofInt, BitVec.toInt_eq_toNat_cond, lowerHalf, BitVec.toNat_setWidth]
  split <;> split <;> omega

theorem add_halves (a : Word) :
    (upperHalf (a + 0x8000)).setWidth 32 <<< 16 + BitVec.ofInt 32 (lowerHalf a).toInt = a := by
  have bound := a.isLt
  apply BitVec.eq_of_toNat_eq
  rw [BitVec.toNat_add, toNat_upperHalf_carry, toNat_lowerHalf_signed]
  split <;> omega

theorem sshiftRight_sign (a : Word) : a.sshiftRight 31 = if a.toInt < 0 then -1 else 0 := by
  have above := a.toInt_lt
  have below := a.le_toInt
  apply BitVec.eq_of_toInt_eq
  rw [BitVec.toInt_sshiftRight, Int.shiftRight_eq_div_pow]
  split <;> simp <;> omega

theorem xor_sub_sign (a : Word) :
    (a.sshiftRight 31 ^^^ a) - a.sshiftRight 31 = BitVec.ofInt 32 a.toInt.natAbs := by
  rw [sshiftRight_sign]
  split
  · next negative =>
    have size : (a.toInt.natAbs : Int) = -a.toInt := by omega
    have ones : (-1 : Word) = BitVec.allOnes 32 := rfl
    rw [size, BitVec.ofInt_neg, BitVec.ofInt_toInt, ones, BitVec.allOnes_xor,
      BitVec.neg_eq_not_add, BitVec.sub_eq_add_neg]
    rfl
  · next positive =>
    have size : (a.toInt.natAbs : Int) = a.toInt := by omega
    rw [size, BitVec.ofInt_toInt]
    simp

theorem toInt_word {v : Int} (low : -0x80000000 ≤ v) (high : v < 0x80000000) :
    (word v).toInt = v := by
  rw [word, BitVec.toInt_ofInt, Int.bmod_eq_of_le] <;> omega

theorem add_word_neg (a : Word) (v : Int) : a + word (-v) = a - word v := by
  rw [word, word, BitVec.ofInt_neg, BitVec.sub_eq_add_neg]

/-- Adding the negated constant overflows just when subtracting the constant does. -/
theorem addSigned_word_neg {v : Int} (fits : fitsSigned16 (-v)) (a : Word) :
    Alu.addSigned a (word (-v)) = Alu.subSigned a (word v) := by
  obtain ⟨low, high⟩ := fits
  have plain : (word v).toInt = v := toInt_word (by omega) (by omega)
  have negated : (word (-v)).toInt = -v := toInt_word (by omega) (by omega)
  unfold Alu.addSigned Alu.subSigned
  rw [add_word_neg, BitVec.saddOverflow, BitVec.ssubOverflow, plain, negated, Int.sub_eq_add_neg]

/-- A constant that fits into the instruction is used as a whole word. -/
theorem imm_operation {op : ImmOp} {v : Int} (fits : op.isLogical = true → fitsUnsigned16 v)
    (a : Word) : Alu.imm op a (word v) = op.operation a (word v) := by
  cases op with
  | andi | ori | xori => simp only [Alu.imm, ImmOp.operation, word_low (fits rfl)]
  | _ => rfl

theorem reg_registerForm (op : ImmOp) (a b : Word) :
    Alu.reg (registerForm op) a b = op.operation a b := by
  cases op <;> rfl

theorem imm_immediateForm {op : RegOp} {v : Int} {form : ImmOp}
    (chosen : immediateForm op v = some form) (a : Word) :
    Alu.imm form a (word v) = Alu.reg op a (word v) := by
  cases op with
  | and | or | xor =>
    obtain ⟨fits, taken⟩ := Option.ite_none_right_eq_some.mp chosen
    obtain rfl := Option.some.inj taken
    simp only [Alu.imm, Alu.reg, word_low fits]
  | nor | mul | sub | subu | movn | movz => exact absurd chosen nofun
  | _ =>
    obtain ⟨fits, taken⟩ := Option.ite_none_right_eq_some.mp chosen
    obtain rfl := Option.some.inj taken
    rfl

theorem registerForm_plain (op : ImmOp) : registerForm op ≠ .movn ∧ registerForm op ≠ .movz := by
  cases op <;> exact ⟨nofun, nofun⟩

theorem taken_beq (a b : Word) : Alu.taken .beq a b = decide (a = b) := rfl

theorem taken_bne (a b : Word) : Alu.taken .bne a b = decide (a ≠ b) := by
  rw [decide_not]
  rfl

theorem reg_lessThan (unsigned : Bool) (a b : Word) : Alu.reg (lessThan unsigned) a b =
    .ok (Alu.bit (number unsigned a < number unsigned b)) := by
  cases unsigned with
  | false => rfl
  | true => simp [lessThan, Alu.reg, number, BitVec.ult]

theorem lessThan_plain (unsigned : Bool) :
    lessThan unsigned ≠ .movn ∧ lessThan unsigned ≠ .movz := by
  cases unsigned <;> exact ⟨nofun, nofun⟩

theorem bit_lt_xor_one (x y : Int) : Alu.bit (x < y) ^^^ (1 &&& 0xFFFF) = Alu.bit (y ≤ x) := by
  by_cases less : x < y
  · have notLe : ¬ y ≤ x := by omega
    simp [less, notLe, Alu.bit]
  · have le : y ≤ x := by omega
    simp [less, le, Alu.bit]

theorem sub_ult_one (a b : Word) : (a - b).ult 1 = decide (a = b) := by
  apply decide_eq_decide.mpr
  constructor <;> intro given <;> bv_omega

theorem zero_ult_sub (a b : Word) : (0 : Word).ult (a - b) = decide (a ≠ b) := by
  apply decide_eq_decide.mpr
  constructor <;> intro given <;> bv_omega

theorem lt_eq_not_ge (x y : Int) : decide (y < x) = (decide (x ≤ y) == false) := by
  by_cases le : x ≤ y
  · have notLess : ¬ y < x := by omega
    simp [le, notLess]
  · have less : y < x := by omega
    simp [le, less]

end MipsLab
