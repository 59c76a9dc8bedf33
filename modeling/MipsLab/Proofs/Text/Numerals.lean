import MipsLab.Proofs.Text.Cuts
import MipsLab.Source.Literal
import Mathlib

/-! Numerals that are read back. The digits of a number in any base up to sixteen are read as that
number, whatever zeros stand in front of them; and so are the integers that a line is written with,
in hexadecimal or in decimal. -/
namespace MipsLab

namespace Text

variable {base : Nat}

theorem digitValue?_digitChar (small : base ≤ 16) {d : Nat} (below : d < base) :
    digitValue? base (Nat.digitChar d) = some d := by
  have value : ∀ d : Fin 16, digitValue? 16 (Nat.digitChar d) = some d.val := by decide
  have widest := value ⟨d, by omega⟩
  unfold digitValue? at widest ⊢
  have bound := (Option.filter_eq_some_iff.mp widest).1
  exact Option.filter_eq_some_iff.mpr ⟨bound, by simpa using below⟩

/-- Reads one more digit. -/
def shiftIn (base value : Nat) (c : Char) : Option Nat :=
  (digitValue? base c).map (base * value + ·)

theorem foldlM_toDigits (big : 1 < base) (small : base ≤ 16) (n : Nat) :
    (Nat.toDigits base n).foldlM (shiftIn base) 0 = some n := by
  have digit {value d : Nat} (below : d < base) :
      shiftIn base value (Nat.digitChar d) = some (base * value + d) := by
    rw [shiftIn, digitValue?_digitChar small below]
    rfl
  induction n using Nat.strongRecOn with
  | ind n ih =>
    rw [Nat.toDigits_eq_if big]
    split
    · next below => simp [digit below]
    · next wide =>
      have shorter : n / base < n := Nat.div_lt_self (by omega) big
      have last : n % base < base := Nat.mod_lt n (by omega)
      rw [List.foldlM_append, ih _ shorter]
      simp [digit last, Nat.div_add_mod]

theorem natural?_paddedDigits (big : 1 < base) (small : base ≤ 16) (width n : Nat) :
    natural? base (paddedDigits base width n) = some n := by
  have zeros (k : Nat) (digits : List Char) :
      (List.replicate k '0' ++ digits).foldlM (shiftIn base) 0 =
        digits.foldlM (shiftIn base) 0 := by
    have zero : shiftIn base 0 '0' = some 0 := by
      have read := digitValue?_digitChar small (d := 0) (by omega)
      rw [shiftIn, show '0' = Nat.digitChar 0 from rfl, read]
      rfl
    induction k with
    | zero => rfl
    | succ k ih =>
      rw [List.replicate_succ, List.cons_append, List.foldlM_cons, zero]
      exact ih
  have filled : (paddedDigits base width n).isEmpty = false := by
    simp [paddedDigits, padLeft, Nat.toDigits_ne_nil]
  rw [natural?, filled, if_neg Bool.false_ne_true]
  exact (zeros _ _).trans (foldlM_toDigits big small n)

theorem exists_of_mem_toDigits (big : 1 < base) {n : Nat} {c : Char}
    (member : c ∈ Nat.toDigits base n) : ∃ d < base, c = Nat.digitChar d := by
  induction n using Nat.strongRecOn with
  | ind n ih =>
    rw [Nat.toDigits_eq_if big] at member
    split at member
    · next below => exact ⟨n, below, List.mem_singleton.mp member⟩
    · next wide =>
      rcases List.mem_append.mp member with front | last
      · exact ih _ (Nat.div_lt_self (by omega) big) front
      · exact ⟨n % base, Nat.mod_lt n (by omega), List.mem_singleton.mp last⟩

/-- A numeral is written with digits only. -/
theorem exists_of_mem_paddedDigits (big : 1 < base) {width n : Nat} {c : Char}
    (member : c ∈ paddedDigits base width n) : ∃ d < base, c = Nat.digitChar d := by
  rcases List.mem_append.mp member with zero | digit
  · exact ⟨0, by omega, List.eq_of_mem_replicate zero⟩
  · exact exists_of_mem_toDigits big digit

theorem isDigit_of_digitValue? {c : Char} {d : Nat} (found : digitValue? 10 c = some d) :
    c.isDigit = true := by
  obtain ⟨value, small⟩ := Option.filter_eq_some_iff.mp found
  by_contra other
  simp only [other, if_false] at value
  split at value
  · cases value
    simp at small
  · split at value
    · cases value
      simp at small
    · cases value

theorem digits_of_natural? {digits : List Char} {n : Nat} (read : natural? 10 digits = some n) :
    digits ≠ [] ∧ ∀ c ∈ digits, c.isDigit = true := by
  have reads : ∀ start, digits.foldlM
      (fun value c => (digitValue? 10 c).map (10 * value + ·)) start = some n →
        ∀ c ∈ digits, c.isDigit = true := by
    clear read
    induction digits with
    | nil => simp
    | cons c digits ih =>
      intro start read
      rw [List.foldlM_cons] at read
      obtain ⟨value, first, later⟩ := Option.bind_eq_some_iff.mp read
      obtain ⟨d, found, -⟩ := Option.map_eq_some_iff.mp first
      exact List.forall_mem_cons.mpr ⟨isDigit_of_digitValue? found, ih value later⟩
  rw [natural?] at read
  split at read
  · cases read
  · next filled => exact ⟨by simpa using filled, reads 0 read⟩

/-- Digits are read as their number, and nothing else is read. -/
theorem natural?_iff {digits : List Char} {n : Nat} : natural? 10 digits = some n ↔
    digits ≠ [] ∧ (∀ c ∈ digits, c.isDigit = true) ∧ Nat.ofDigitChars 10 digits 0 = n := by
  constructor
  · intro read
    obtain ⟨filled, all⟩ := digits_of_natural? read
    rw [natural?_eq filled all] at read
    exact ⟨filled, all, Option.some.inj read⟩
  · rintro ⟨filled, all, rfl⟩
    exact natural?_eq filled all

theorem paddedDigits_zero (base n : Nat) : paddedDigits base 0 n = Nat.toDigits base n := by
  simp [paddedDigits, padLeft]

end Text

namespace Literal

/-- Literals hold smaller numbers than this. -/
abbrev ceiling : Nat := 0x8000000000000000

theorem naturalIn?_paddedDigits {base : Nat} (big : 1 < base) (small : base ≤ 16) (width : Nat)
    {n : Nat} (room : n < ceiling) :
    Text.naturalIn? base 63 (Text.paddedDigits base width n) = some n := by
  rw [Text.naturalIn?, Text.natural?_paddedDigits big small]
  exact Option.filter_some_pos (by simpa using room)

theorem int?_hexText (width : Nat) {n : Nat} (room : n < ceiling) :
    int? (Text.hexText width n).toList = some n := by
  have digits : (Text.hexText width n).toList = '0' :: 'x' :: Text.paddedDigits 16 width n := by
    simp [Text.hexText]
  have read : magnitude? ('0' :: 'x' :: Text.paddedDigits 16 width n) = some n :=
    naturalIn?_paddedDigits (by decide) (by decide) width room
  rw [digits]
  exact congrArg (Option.map Int.ofNat) read

theorem magnitude?_toDigits {n : Nat} (room : n < ceiling) :
    magnitude? (Nat.toDigits 10 n) = some n := by
  have digits : ∀ c ∈ Nat.toDigits 10 n, c.isDigit = true := fun c member =>
    Nat.isDigit_of_mem_toDigits (by decide) (by decide) member
  have ten : 1 < 10 := by decide
  have read := naturalIn?_paddedDigits ten (by decide) 0 room
  rw [Text.paddedDigits_zero] at read
  unfold magnitude?
  split
  · next body same => exact absurd (digits '\x27' (by simp [same])) (by decide)
  · next body same => exact absurd (digits 'x' (by simp [same])) (by decide)
  · next body same => exact absurd (digits 'X' (by simp [same])) (by decide)
  · exact read

theorem int?_toDigits {n : Nat} (room : n < ceiling) :
    int? (Nat.toDigits 10 n) = some n := by
  have digits : ∀ c ∈ Nat.toDigits 10 n, c.isDigit = true := fun c member =>
    Nat.isDigit_of_mem_toDigits (by decide) (by decide) member
  unfold int?
  split
  · next body same => exact absurd (digits '-' (by simp [same])) (by decide)
  · next body same => exact absurd (digits '+' (by simp [same])) (by decide)
  · rw [magnitude?_toDigits room]
    rfl

theorem int?_minus {n : Nat} (room : n < ceiling) :
    int? ('-' :: Nat.toDigits 10 n) = some (-(n : Int)) := by
  rw [int?, magnitude?_toDigits room]
  rfl

/-- An integer that is written in decimal is read as that integer. -/
theorem int?_toString {v : Int} (room : v.natAbs < ceiling) :
    int? (toString v).toList = some v := by
  rw [Int.toString_eq_repr, Int.repr_eq_if]
  split
  · next nonneg =>
    rw [Nat.toList_repr, int?_toDigits (by omega)]
    simp [nonneg]
  · next negative =>
    have minus : ("-" ++ (-v).toNat.repr).toList = '-' :: Nat.toDigits 10 (-v).toNat := by simp
    rw [minus, int?_minus (by omega)]
    exact congrArg some (by omega)

section Bounds

variable {token body : List Char} {n : Nat} {v : Int}

theorem character?_lt (read : character? body = some n) : n < ceiling := by
  have code (c : Char) : c.toNat < ceiling := lt_trans c.val.toNat_lt (by norm_num)
  obtain ⟨opened, -, read⟩ := Option.bind_eq_some_iff.mp read
  obtain ⟨inner, -, read⟩ := Option.bind_eq_some_iff.mp read
  split at read
  · split at read
    · cases read
    · cases read
      exact code _
  · split at read
    · obtain ⟨c, -, rfl⟩ := Option.map_eq_some_iff.mp read
      exact code c
    · cases read
  · cases read

theorem magnitude?_lt (read : magnitude? body = some n) : n < ceiling := by
  have small {base : Nat} {digits : List Char} (found : Text.naturalIn? base 63 digits = some n) :
      n < ceiling := by
    simpa using (Option.filter_eq_some_iff.mp found).2
  unfold magnitude? at read
  split at read
  · exact character?_lt read
  · exact small read
  · exact small read
  · exact small read

/-- Whatever the token, the integer that it is read as has a magnitude below the ceiling. -/
theorem natAbs_lt_of_int? (read : int? token = some v) : v.natAbs < ceiling := by
  unfold int? at read
  split at read <;> obtain ⟨n, found, rfl⟩ := Option.map_eq_some_iff.mp read <;>
    have below := magnitude?_lt found
  · rwa [Int.natAbs_neg, Int.natAbs_natCast]
  · exact below
  · exact below

end Bounds

end Literal

end MipsLab
