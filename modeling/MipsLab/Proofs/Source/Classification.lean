import MipsLab.Proofs.Source.Spelling

/-! The kinds of operands are told apart by how they are written. Registers, numbers, label
expressions and memory operands are tried one after another, each by its first marks; none of these
trials takes what was written for a later one, and every number that is read fits its word. -/
namespace MipsLab

/-- Integers, and how they are written. -/
inductive NumberText : Int → String → Prop where
  | decimal {v : Int} (room : v.natAbs < Literal.ceiling) : NumberText v (toString v)
  | hexadecimal (width : Nat) {n : Nat} (room : n < Literal.ceiling) :
    NumberText n (Text.hexText width n)

/-- What may be written behind a label, and the offset that it stands for. -/
inductive OffsetText : Int → String → Prop where
  | nothing : OffsetText 0 ""
  | plus {n : Nat} {digits : String} (number : NumberText n digits) :
    OffsetText n ("+" ++ digits)
  | minus {n : Nat} {digits : String} (number : NumberText n digits) :
    OffsetText (-n) ("-" ++ digits)

/-- What may be written in front of a base register. -/
inductive DisplacementText : Option String → Int → String → Prop where
  | nothing : DisplacementText none 0 ""
  | number {v : Int} {text : String} (number : NumberText v text) : DisplacementText none v text
  | label {name tail : String} {offset : Int} (identifier : isIdentifier name.toList = true)
      (behind : OffsetText offset tail) : DisplacementText (some name) offset (name ++ tail)

/-- Operands, and how they are written. -/
inductive Operand.Written : Operand → String → Prop where
  | gpr (r : Reg) : Written (.gpr r) (Register.text r)
  | fpr (r : FReg) : Written (.fpr r) (Register.floatText r)
  | int {v : Int} {text : String} (number : NumberText v text) : Written (.int v) text
  | label {name tail : String} {offset : Int} (identifier : isIdentifier name.toList = true)
      (behind : OffsetText offset tail) : Written (.label name offset) (name ++ tail)
  | mem {label : Option String} {offset : Int} {text : String}
      (displacement : DisplacementText label offset text) (base : Reg) :
    Written (.mem label offset base) (text ++ "(" ++ Register.text base ++ ")")

namespace NumberText

variable {v : Int} {n : Nat} {text : String}

theorem int?_eq (number : NumberText v text) : Literal.int? text.toList = some v := by
  cases number with
  | decimal room => exact Literal.int?_toString room
  | hexadecimal width room => exact Literal.int?_hexText width room

/-- A number that is not negative is written without a sign. -/
theorem magnitude?_eq (number : NumberText n text) : Literal.magnitude? text.toList = some n := by
  generalize same : (n : Int) = v at number
  cases number with
  | decimal room =>
    subst same
    have digits : (toString (n : Int)).toList = Nat.toDigits 10 n := by
      rw [Int.toString_eq_repr, Int.repr_eq_if, if_pos (Int.natCast_nonneg n), Int.toNat_natCast,
        Nat.toList_repr]
    rw [digits]
    exact Literal.magnitude?_toDigits room
  | @hexadecimal width m room =>
    obtain rfl : n = m := Int.ofNat.inj same
    rw [hexText_toList]
    exact Literal.naturalIn?_paddedDigits (by decide) (by decide) width room

theorem clean (number : NumberText v text) : ∀ c ∈ text.toList, isOpening c = false := by
  cases number with
  | decimal => exact clean_of_bare (bare_toString v)
  | hexadecimal width => exact clean_of_bare (bare_hexText width _)

end NumberText

section Expressions

variable {name tail : String} {offset : Int}

theorem OffsetText.clean (behind : OffsetText offset tail) :
    ∀ c ∈ tail.toList, isOpening c = false := by
  cases behind with
  | nothing => simp
  | plus number => simpa using ⟨by decide, number.clean⟩
  | minus number => simpa using ⟨by decide, number.clean⟩

theorem expression_clean (identifier : isIdentifier name.toList = true)
    (behind : OffsetText offset tail) : ∀ c ∈ (name ++ tail).toList, isOpening c = false := by
  rw [String.toList_append]
  intro c member
  rcases List.mem_append.mp member with named | later
  · exact not_isOpening_of_isBare (bare_identifier identifier c named)
  · exact behind.clean c later

theorem OffsetText.signed (behind : OffsetText offset tail) :
    ∀ c ∈ tail.toList.head?, c = '+' ∨ c = '-' := by
  cases behind <;> simp

/-- A label and the offset behind it are told apart by the sign. -/
theorem labelExpression?_eq (identifier : isIdentifier name.toList = true)
    (behind : OffsetText offset tail) :
    Operand.labelExpression? (name ++ tail).toList = some (name, offset) := by
  rw [String.toList_append, labelExpression?_append identifier behind.signed,
    String.ofList_toList]
  cases behind with
  | nothing => rfl
  | @plus n digits number =>
    have read : Literal.int? ('+' :: digits.toList) = some (n : Int) := by
      rw [Literal.int?, number.magnitude?_eq]
      rfl
    simp [read]
  | @minus n digits number =>
    have read : Literal.int? ('-' :: digits.toList) = some (-(n : Int)) := by
      rw [Literal.int?, number.magnitude?_eq]
      rfl
    simp [read]

end Expressions

namespace DisplacementText

variable {label : Option String} {offset : Int} {text : String}

theorem clean (displacement : DisplacementText label offset text) :
    ∀ c ∈ text.toList, isOpening c = false := by
  cases displacement with
  | nothing => simp
  | number number => exact number.clean
  | label identifier behind => exact expression_clean identifier behind

theorem displacement?_eq (displacement : DisplacementText label offset text) :
    Operand.displacement? text.toList = some (label, offset) := by
  cases displacement with
  | nothing => rfl
  | number number =>
    have read := number.int?_eq
    have filled : text.toList.isEmpty = false := by
      cases chars : text.toList with
      | nil =>
        rw [chars] at read
        cases read
      | cons c rest => rfl
    rw [Operand.displacement?, filled, if_neg Bool.false_ne_true, read]
  | @label name tail _ identifier behind =>
    have filled : (name ++ tail).toList.isEmpty = false := by
      cases chars : name.toList with
      | nil =>
        rw [chars] at identifier
        cases identifier
      | cons c rest => simp [chars]
    have number : Literal.int? (name ++ tail).toList = none := by
      rw [String.toList_append]
      exact int?_identifier identifier tail.toList
    rw [Operand.displacement?, filled, if_neg Bool.false_ne_true, number,
      labelExpression?_eq identifier behind]
    rfl

end DisplacementText

namespace Operand

/-- What was written for an operand is read as that operand, and no token is read as an integer
that does not fit. -/
theorem ofToken_written :
    (∀ op text, Written op text → ofToken text.toList = .ok op) ∧
      ∀ token v, Literal.int? token = some v → -0x7FFFFFFFFFFFFFFF ≤ v ∧ v ≤ 0x7FFFFFFFFFFFFFFF := by
  refine ⟨fun op text written => ?_, fun token v read => ?_⟩
  · cases written with
    | gpr r => exact (spells_register r).read
    | fpr r => exact (spells_floatRegister r).read
    | int number => exact ofToken_int number.clean number.int?_eq
    | @label name tail _ identifier behind =>
      have number := int?_identifier identifier tail.toList
      rw [← String.toList_append] at number
      exact ofToken_label (expression_clean identifier behind) number
        (labelExpression?_eq identifier behind)
    | @mem _ _ text displacement base =>
      have chars : (text ++ "(" ++ Register.text base ++ ")").toList =
          text.toList ++ '(' :: ((Register.text base).toList ++ [')']) := by simp
      rw [chars]
      exact ofToken_mem displacement.clean displacement.displacement?_eq base
  · have below : v.natAbs < 0x8000000000000000 := Literal.natAbs_lt_of_int? read
    omega

/-- A label with a dot, an offset behind a minus sign and a base register; and the lowest number. -/
theorem ofToken_written_negative :
    (Written (.mem (some "a.b") (-12) Register.sp) "a.b-12($sp)" ∧
      ofToken "a.b-12($sp)".toList = .ok (.mem (some "a.b") (-12) Register.sp)) ∧
    Literal.int? "-0x7fffffffffffffff".toList = some (-0x7FFFFFFFFFFFFFFF) ∧
      (-0x7FFFFFFFFFFFFFFF : Int) ≤ -0x7FFFFFFFFFFFFFFF ∧
      (-0x7FFFFFFFFFFFFFFF : Int) ≤ 0x7FFFFFFFFFFFFFFF := by
  have twelve : NumberText ((12 : Nat) : Int) (toString ((12 : Nat) : Int)) := .decimal (by decide)
  have written := Written.mem (.label (by decide : isIdentifier "a.b".toList = true)
    (.minus twelve)) Register.sp
  have text : "a.b" ++ ("-" ++ toString ((12 : Nat) : Int)) ++ "(" ++ Register.text Register.sp ++
      ")" = "a.b-12($sp)" := by decide +kernel
  rw [text] at written
  have lowest : Literal.int? "-0x7fffffffffffffff".toList = some (-0x7FFFFFFFFFFFFFFF) := by
    decide +kernel
  exact ⟨⟨written, ofToken_written.1 _ _ written⟩, lowest, ofToken_written.2 _ _ lowest⟩

end Operand

end MipsLab
