import MipsLab.Machine.Execute
import MipsLab.Proofs.Assembly.Checked
import MipsLab.Proofs.Exec.Contract

/-! Multiplication and division. The two halves hold exact products, sums of 64 bits that go around
at their ends, and the quotient and remainder of a division that rounds toward zero; and no number
on the way to them outgrows the type that it is computed in. -/
namespace MipsLab

def HiLoOp.divides : HiLoOp → Bool
  | .div | .divu => true
  | _ => false

namespace Alu

/-- The number in both halves, read without a sign. -/
def HiLo.unsigned (h : HiLo) : Nat := h.hi.toNat * 0x100000000 + h.lo.toNat

/-- The number in both halves, read with the sign of the upper one. -/
def HiLo.signed (h : HiLo) : Int := h.hi.toInt * 0x100000000 + h.lo.toNat

/-- What may remain of `a` in a division by `b` that rounds toward zero. -/
structure Remains (a b r : Int) : Prop where
  small : |r| < |b|
  side : r = 0 ∨ r.sign = a.sign

/-- The only division whose quotient is no signed word. -/
def QuotientWraps (a b : Word) : Prop := a.toInt = -0x80000000 ∧ b.toInt = -1

instance (a b : Word) : Decidable (QuotientWraps a b) := inferInstanceAs (Decidable (_ ∧ _))

/-- What the halves hold after an operation on `a` and `b`, if they held `old` before. -/
def Exact (op : HiLoOp) (a b : Word) (old new : HiLo) : Prop :=
  match op with
  | .mult => new.signed = a.toInt * b.toInt
  | .multu => new.unsigned = a.toNat * b.toNat
  | .madd => (new.unsigned : Int) = (old.unsigned + a.toInt * b.toInt) % 0x10000000000000000
  | .maddu => (new.unsigned : Int) = (old.unsigned + a.toNat * b.toNat) % 0x10000000000000000
  | .msub => (new.unsigned : Int) = (old.unsigned - a.toInt * b.toInt) % 0x10000000000000000
  | .msubu => (new.unsigned : Int) = (old.unsigned - a.toNat * b.toNat) % 0x10000000000000000
  | .div =>
    Remains a.toInt b.toInt new.hi.toInt ∧
      a.toInt ≡ new.lo.toInt * b.toInt + new.hi.toInt [ZMOD 0x100000000] ∧
      (¬ QuotientWraps a b → a.toInt = new.lo.toInt * b.toInt + new.hi.toInt)
  | .divu =>
    Remains a.toNat b.toNat new.hi.toNat ∧ a.toNat = new.lo.toNat * b.toNat + new.hi.toNat

/-- An operation is refused exactly when it divides by zero; otherwise it is exact. -/
inductive Computes (op : HiLoOp) (a b : Word) (old : HiLo) : Except Fault HiLo → Prop
  | refused (divides : op.divides = true) (zero : b = 0) :
      Computes op a b old (.error .divideByZero)
  | exact (new : HiLo) (defined : op.divides = true → b ≠ 0) (exact : Exact op a b old new) :
      Computes op a b old (.ok new)

end Alu

namespace Checked

open Alu (HiLo QuotientWraps)

variable {ε : Type}

/-- A number that must be a double word. -/
def doubleWord (n : Nat) : Except (Stop ε) (BitVec 64) :=
  if n < 0x10000000000000000 then .ok (BitVec.ofNat 64 n) else .error .overflow

/-- A number that must be a signed double word. -/
def signedDoubleWord (v : Int) : Except (Stop ε) (BitVec 64) :=
  if Fits64 v then .ok (BitVec.ofInt 64 v) else .error .overflow

/-- A number that must be a signed word. -/
def signedWord (v : Int) : Except (Stop ε) Word :=
  if -0x80000000 ≤ v ∧ v < 0x80000000 then .ok (BitVec.ofInt 32 v) else .error .overflow

/-- Signed division. The quotient without room goes around. -/
def divide (a b : Word) : Except (Stop Fault) HiLo :=
  if b = 0 then .error (.refused .divideByZero)
  else if QuotientWraps a b then .ok ⟨0, a⟩
  else do
    let remainder ← signedWord (a.toInt.tmod b.toInt)
    let quotient ← signedWord (a.toInt.tdiv b.toInt)
    return ⟨remainder, quotient⟩

def divideUnsigned (a b : Word) : Except (Stop Fault) HiLo :=
  if b = 0 then .error (.refused .divideByZero)
  else do
    let remainder ← word (a.toNat % b.toNat)
    let quotient ← word (a.toNat / b.toNat)
    return ⟨remainder, quotient⟩

/-- Multiplication and division with checked arithmetic. Besides one quotient only the sums of the
accumulating forms go around. -/
def hiLo (op : HiLoOp) (a b : Word) (old : HiLo) : Except (Stop Fault) HiLo := do
  let signed ← signedDoubleWord (a.toInt * b.toInt)
  let unsigned ← doubleWord (a.toNat * b.toNat)
  let acc ← doubleWord (old.hi.toNat * 0x100000000 + old.lo.toNat)
  match op with
  | .mult => .ok (HiLo.split signed)
  | .multu => .ok (HiLo.split unsigned)
  | .madd => .ok (HiLo.split (acc + signed))
  | .maddu => .ok (HiLo.split (acc + unsigned))
  | .msub => .ok (HiLo.split (acc - signed))
  | .msubu => .ok (HiLo.split (acc - unsigned))
  | .div => divide a b
  | .divu => divideUnsigned a b

end Checked

namespace Alu

variable {a b : Word}

namespace HiLo

theorem toNat_join (h : HiLo) : h.join.toNat = h.unsigned := by
  have below : h.lo.toNat < 2 ^ 32 := h.lo.isLt
  rw [join, BitVec.toNat_append, ← Nat.shiftLeft_add_eq_or_of_lt below, Nat.shiftLeft_eq]
  rfl

theorem unsigned_split (acc : BitVec 64) : (split acc).unsigned = acc.toNat := by
  have below : acc.toNat < 0x10000000000000000 := acc.isLt
  rw [unsigned, split, BitVec.extractLsb'_toNat, BitVec.toNat_setWidth, Nat.shiftRight_eq_div_pow]
  omega

theorem signed_split (acc : BitVec 64) : (split acc).signed = acc.toInt := by
  have whole := unsigned_split acc
  have lower : (split acc).lo.toNat < 0x100000000 := (split acc).lo.isLt
  rw [unsigned] at whole
  rw [signed, BitVec.toInt_eq_toNat_cond, BitVec.toInt_eq_toNat_cond]
  split <;> split <;> omega

end HiLo

/-- A product of signed words has room in a signed double word. -/
theorem toInt_product (a b : Word) :
    (a.signExtend 64 * b.signExtend 64).toInt = a.toInt * b.toInt := by
  have low : -2 ^ 62 ≤ a.toInt * b.toInt := BitVec.le_toInt_mul_toInt
  have high : a.toInt * b.toInt ≤ 2 ^ 62 := BitVec.toInt_mul_toInt_le
  rw [BitVec.toInt_mul, BitVec.toInt_signExtend_of_le (by decide),
    BitVec.toInt_signExtend_of_le (by decide)]
  exact Int.bmod_eq_of_le (by norm_num; omega) (by norm_num; omega)

theorem product_lt (a b : Word) : a.toNat * b.toNat < 0x10000000000000000 := by
  have first : a.toNat < 0x100000000 := a.isLt
  have second : b.toNat < 0x100000000 := b.isLt
  exact Nat.mul_lt_mul'' first second

/-- A product of words has room in a double word. -/
theorem toNat_product (a b : Word) :
    (a.setWidth 64 * b.setWidth 64).toNat = a.toNat * b.toNat := by
  have room := product_lt a b
  have first : a.toNat < 2 ^ 64 := a.isLt.trans (by decide)
  have second : b.toNat < 2 ^ 64 := b.isLt.trans (by decide)
  rw [BitVec.toNat_mul, BitVec.toNat_setWidth, BitVec.toNat_setWidth, Nat.mod_eq_of_lt first,
    Nat.mod_eq_of_lt second, Nat.mod_eq_of_lt room]

section Accumulator

variable (x y : BitVec 64)

theorem toNat_add_signed :
    ((x + y).toNat : Int) = (x.toNat + y.toInt) % 0x10000000000000000 := by
  rw [BitVec.toNat_add, BitVec.toInt_eq_toNat_cond]
  split <;> omega

theorem toNat_sub_signed :
    ((x - y).toNat : Int) = (x.toNat - y.toInt) % 0x10000000000000000 := by
  have below : y.toNat < 0x10000000000000000 := y.isLt
  rw [BitVec.toNat_sub, BitVec.toInt_eq_toNat_cond]
  split <;> omega

theorem toNat_add_unsigned :
    ((x + y).toNat : Int) = (x.toNat + y.toNat) % 0x10000000000000000 := by
  rw [BitVec.toNat_add]
  omega

theorem toNat_sub_unsigned :
    ((x - y).toNat : Int) = (x.toNat - y.toNat) % 0x10000000000000000 := by
  have below : y.toNat < 0x10000000000000000 := y.isLt
  rw [BitVec.toNat_sub]
  omega

end Accumulator

theorem remains_tmod (a : Int) {b : Int} (nonzero : b ≠ 0) : Remains a b (a.tmod b) := by
  have size := Int.natAbs_tmod a b
  have below := Nat.mod_lt a.natAbs (Int.natAbs_pos.mpr nonzero)
  refine ⟨by rw [Int.abs_eq_natAbs, Int.abs_eq_natAbs]; omega, ?_⟩
  have sign := Int.sign_tmod a b
  split at sign
  · exact .inl (Int.sign_eq_zero_iff_zero.mp sign)
  · exact .inr sign

theorem toInt_ne_zero (nonzero : b ≠ 0) : b.toInt ≠ 0 :=
  fun zero => nonzero (BitVec.eq_of_toInt_eq zero)

theorem toInt_sdiv_of_room (room : ¬ QuotientWraps a b) :
    (a.sdiv b).toInt = a.toInt.tdiv b.toInt := by
  apply BitVec.toInt_sdiv_of_ne_or_ne
  by_contra wraps
  rw [not_or, not_not, not_not] at wraps
  obtain ⟨rfl, rfl⟩ := wraps
  exact room (by decide)

theorem eq_of_quotientWraps (wraps : QuotientWraps a b) : a = 0x80000000 ∧ b = -1 :=
  ⟨BitVec.eq_of_toInt_eq wraps.1, BitVec.eq_of_toInt_eq wraps.2⟩

theorem exact_div (nonzero : b ≠ 0) (old : HiLo) : Exact .div a b old ⟨a.srem b, a.sdiv b⟩ := by
  have divided := Int.tdiv_mul_add_tmod a.toInt b.toInt
  have whole (room : ¬ QuotientWraps a b) :
      a.toInt = (a.sdiv b).toInt * b.toInt + (a.srem b).toInt := by
    rw [toInt_sdiv_of_room room, BitVec.toInt_srem, divided]
  refine ⟨?_, ?_, whole⟩
  · rw [BitVec.toInt_srem]
    exact remains_tmod a.toInt (toInt_ne_zero nonzero)
  · by_cases wraps : QuotientWraps a b
    · obtain ⟨rfl, rfl⟩ := eq_of_quotientWraps wraps
      decide
    · exact congrArg (· % 0x100000000) (whole wraps)

theorem exact_divu (nonzero : b ≠ 0) (old : HiLo) : Exact .divu a b old ⟨a.umod b, a.udiv b⟩ := by
  have positive : (b.toNat : Int) ≠ 0 := by
    simpa [BitVec.toNat_eq] using nonzero
  refine ⟨?_, ?_⟩
  · have remains := remains_tmod a.toNat positive
    rwa [← Int.ofNat_tmod] at remains
  · have divided := Nat.div_add_mod a.toNat b.toNat
    rw [Nat.mul_comm] at divided
    exact divided.symm

theorem computes_hiLo (op : HiLoOp) (a b : Word) (old : HiLo) :
    Computes op a b old (hiLo op a b old) := by
  have multiplied {new : HiLo} (multiplies : op.divides = false) (exact : Exact op a b old new) :
      Computes op a b old (.ok new) := .exact new (by simp [multiplies]) exact
  cases op with
  | mult => exact multiplied rfl (by rw [Exact, HiLo.signed_split, toInt_product])
  | multu => exact multiplied rfl (by rw [Exact, HiLo.unsigned_split, toNat_product])
  | madd =>
    refine multiplied rfl ?_
    rw [Exact, HiLo.unsigned_split, toNat_add_signed, HiLo.toNat_join, toInt_product]
  | maddu =>
    refine multiplied rfl ?_
    rw [Exact, HiLo.unsigned_split, toNat_add_unsigned, HiLo.toNat_join, toNat_product]
    rfl
  | msub =>
    refine multiplied rfl ?_
    rw [Exact, HiLo.unsigned_split, toNat_sub_signed, HiLo.toNat_join, toInt_product]
  | msubu =>
    refine multiplied rfl ?_
    rw [Exact, HiLo.unsigned_split, toNat_sub_unsigned, HiLo.toNat_join, toNat_product]
    rfl
  | div =>
    rw [hiLo]
    split
    · next zero => exact .refused rfl zero
    · next nonzero => exact .exact _ (fun _ => nonzero) (exact_div nonzero old)
  | divu =>
    rw [hiLo]
    split
    · next zero => exact .refused rfl zero
    · next nonzero => exact .exact _ (fun _ => nonzero) (exact_divu nonzero old)

end Alu

namespace Checked

open Alu (HiLo QuotientWraps)

variable {ε : Type}

theorem doubleWord_toNat (x : BitVec 64) :
    (doubleWord x.toNat : Except (Stop ε) (BitVec 64)) = .ok x := by
  rw [doubleWord, if_pos x.isLt, BitVec.ofNat_toNat, BitVec.setWidth_eq]

theorem signedDoubleWord_toInt (x : BitVec 64) :
    (signedDoubleWord x.toInt : Except (Stop ε) (BitVec 64)) = .ok x := by
  have fits : Fits64 x.toInt := ⟨BitVec.le_toInt x, BitVec.toInt_lt⟩
  rw [signedDoubleWord, if_pos fits, BitVec.ofInt_toInt]

theorem signedWord_toInt (x : Word) : (signedWord x.toInt : Except (Stop ε) Word) = .ok x := by
  have fits : -0x80000000 ≤ x.toInt ∧ x.toInt < 0x80000000 := ⟨BitVec.le_toInt x, BitVec.toInt_lt⟩
  rw [signedWord, if_pos fits, BitVec.ofInt_toInt]

theorem word_toNat (x : Word) : (word x.toNat : Except (Stop ε) Word) = .ok x := by
  rw [word_of_lt x.isLt, BitVec.ofNat_toNat, BitVec.setWidth_eq]

theorem divide_eq (a b : Word) (old : HiLo) : divide a b = refusing (Alu.hiLo .div a b old) := by
  unfold divide Alu.hiLo
  split
  · rfl
  · split
    · next wraps =>
      obtain ⟨rfl, rfl⟩ := Alu.eq_of_quotientWraps wraps
      rfl
    · next room =>
      rw [← BitVec.toInt_srem, ← Alu.toInt_sdiv_of_room room, signedWord_toInt, signedWord_toInt]
      rfl

theorem divideUnsigned_eq (a b : Word) (old : HiLo) :
    divideUnsigned a b = refusing (Alu.hiLo .divu a b old) := by
  unfold divideUnsigned Alu.hiLo
  split
  · rfl
  · rw [← BitVec.toNat_umod, ← BitVec.toNat_udiv, word_toNat, word_toNat]
    rfl

/-- Where every number is checked on the way, the halves are the same. -/
theorem hiLo_eq (op : HiLoOp) (a b : Word) (old : HiLo) :
    hiLo op a b old = refusing (Alu.hiLo op a b old) := by
  have joined : old.hi.toNat * 0x100000000 + old.lo.toNat = old.join.toNat := old.toNat_join.symm
  rw [hiLo, ← Alu.toInt_product, ← Alu.toNat_product, joined, signedDoubleWord_toInt,
    doubleWord_toNat, doubleWord_toNat]
  cases op with
  | mult | multu | madd | maddu | msub | msubu => rfl
  | div => exact divide_eq a b old
  | divu => exact divideUnsigned_eq a b old

end Checked

/-- The machine after an operation that puts `outcome` into its halves. -/
def Machine.settle (m : Machine) : Except Fault Alu.HiLo → EStateM.Result Fault Machine Control
  | .ok halves => .ok .next (m.setHiLo halves)
  | .error f => .error f m

/-- Every operation on the halves is exact for all words and all that the halves held before: it is
refused just if it divides by zero, none of its numbers outgrows its type, and the instruction does
nothing else to the machine. -/
theorem Alu.hiLo_exact (op : HiLoOp) :
    (∀ a b old, Computes op a b old (hiLo op a b old) ∧
      Checked.hiLo op a b old = Checked.refusing (hiLo op a b old)) ∧
    ∀ (m : Machine) (pc : Word) (rs rt : Reg), Machine.execute pc (.hiLo op rs rt) m =
      m.settle (hiLo op (m.regs.read rs) (m.regs.read rt) m.hiLo) := by
  refine ⟨fun a b old => ⟨computes_hiLo op a b old, Checked.hiLo_eq op a b old⟩, ?_⟩
  intro m pc rs rt
  rw [Machine.execute, Exec.get_bind]
  cases hiLo op (m.regs.read rs) (m.regs.read rt) m.hiLo <;> rfl

/-- The quotient that wraps. -/
example (old : Alu.HiLo) : Alu.hiLo .div 0x80000000 0xFFFFFFFF old = .ok ⟨0, 0x80000000⟩ := by rfl

end MipsLab
