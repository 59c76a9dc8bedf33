import MipsLab.Proofs.Source.Lexing
import MipsLab.Proofs.Text.Numerals
import MipsLab.Source.Operand
import Mathlib

/-! How operands are written. Each of the forms that the text of an instruction uses is one token,
and it is read as the operand that it was written for. -/
namespace MipsLab

theorem except_ok_of_toOption {ε α : Type} {x : Except ε α} {a : α}
    (found : x.toOption = some a) : x = .ok a := by
  cases x with
  | error e => cases found
  | ok b => exact congrArg _ (Option.some.inj found)

/-- A token is read as an operand wherever it stands in a line. -/
structure Spells (token : String) (op : Operand) : Prop where
  isToken : IsToken token
  read : Operand.ofToken token.toList = .ok op

theorem spells_register (r : Reg) : Spells (Register.text r) (.gpr r) := by
  have tokens : ∀ r : Reg, IsToken (Register.text r) := by decide +kernel
  have read : ∀ r : Reg, (Operand.ofToken (Register.text r).toList).toOption = some (.gpr r) := by
    decide +kernel
  exact ⟨tokens r, except_ok_of_toOption (read r)⟩

theorem spells_floatRegister (r : FReg) : Spells (Register.floatText r) (.fpr r) := by
  have tokens : ∀ r : FReg, IsToken (Register.floatText r) := by decide +kernel
  have read : ∀ r : FReg,
      (Operand.ofToken (Register.floatText r).toList).toOption = some (.fpr r) := by
    decide +kernel
  exact ⟨tokens r, except_ok_of_toOption (read r)⟩

theorem cutFirst_none {p : Char → Bool} {text : List Char} (clean : ∀ c ∈ text, p c = false) :
    Text.cutFirst p text = none := by
  induction text with
  | nil => rfl
  | cons c rest ih =>
    obtain ⟨here, later⟩ := List.forall_mem_cons.mp clean
    simp [Text.cutFirst, here, ih later]

/-- The characters of numbers and of names. -/
def isBare (c : Char) : Bool := c.isAlphanum || c = '_' || c = '.' || c = '-'

theorem isBare_code {c : Char} (bare : isBare c = true) :
    c.toNat = 45 ∨ c.toNat = 46 ∨ 48 ≤ c.toNat ∧ c.toNat ≤ 57 ∨ 65 ≤ c.toNat ∧ c.toNat ≤ 90 ∨
      c.toNat = 95 ∨ 97 ≤ c.toNat ∧ c.toNat ≤ 122 := by
  simp only [isBare, Char.isAlphanum, Char.isAlpha, Char.isUpper, Char.isLower, Char.isDigit,
    UInt32.le_iff_toNat_le, ge_iff_le, Bool.or_eq_true, Bool.and_eq_true, decide_eq_true_eq] at bare
  rcases bare with ((alphanumeric | rfl) | rfl) | rfl
  · change (65 ≤ c.toNat ∧ c.toNat ≤ 90 ∨ 97 ≤ c.toNat ∧ c.toNat ≤ 122) ∨
      48 ≤ c.toNat ∧ c.toNat ≤ 57 at alphanumeric
    omega
  all_goals decide

/-- A mark of the language is no such character. -/
theorem ne_of_isBare {c d : Char} (bare : isBare c = true) (mark : isBare d = false) : c ≠ d := by
  rintro rfl
  exact Bool.false_ne_true (mark.symm.trans bare)

theorem isPlain_of_isBare {c : Char} (bare : isBare c = true) : isPlain c = true := by
  have code := isBare_code bare
  have blank : Text.isBlank c = false := by
    simp only [Text.isBlank, Bool.or_eq_false_iff, Bool.and_eq_false_iff, beq_eq_false_iff_ne,
      decide_eq_false_iff_not]
    omega
  have comma : c ≠ ',' := ne_of_isBare bare (by decide)
  have double : c ≠ '"' := ne_of_isBare bare (by decide)
  have single : c ≠ '\x27' := ne_of_isBare bare (by decide)
  have comment : c ≠ '#' := ne_of_isBare bare (by decide)
  have colon : c ≠ ':' := ne_of_isBare bare (by decide)
  simp [isPlain, isSeparator, isQuote, *]

theorem isToken_of_bare {token : String} (filled : token.toList ≠ [])
    (bare : ∀ c ∈ token.toList, isBare c = true) : IsToken token :=
  ⟨filled, fun c member => isPlain_of_isBare (bare c member)⟩

/-- The marks by which registers and memory operands are known. -/
def isOpening (c : Char) : Bool := c = '$' || c = '('

theorem not_isOpening_of_isBare {c : Char} (bare : isBare c = true) : isOpening c = false := by
  have dollar : c ≠ '$' := ne_of_isBare bare (by decide)
  have bracket : c ≠ '(' := ne_of_isBare bare (by decide)
  simp [isOpening, dollar, bracket]

section Operands

variable {text : List Char}

theorem clean_of_bare (bare : ∀ c ∈ text, isBare c = true) : ∀ c ∈ text, isOpening c = false :=
  fun c member => not_isOpening_of_isBare (bare c member)

theorem cutFirst_clean (clean : ∀ c ∈ text, isOpening c = false) :
    Text.cutFirst (· = '(') text = none := by
  refine cutFirst_none fun c member => ?_
  have closed := clean c member
  simp_all [isOpening]

/-- Text without these marks is a number if it can be read as one. -/
theorem ofToken_int (clean : ∀ c ∈ text, isOpening c = false) {v : Int}
    (read : Literal.int? text = some v) : Operand.ofToken text = .ok (.int v) := by
  unfold Operand.ofToken
  split
  · next rest => exact absurd (clean '$' List.mem_cons_self) (by decide)
  · simp only [cutFirst_clean clean, read]

theorem ofToken_label (clean : ∀ c ∈ text, isOpening c = false)
    (read : Literal.int? text = none) {name : String} {offset : Int}
    (found : Operand.labelExpression? text = some (name, offset)) :
    Operand.ofToken text = .ok (.label name offset) := by
  unfold Operand.ofToken
  split
  · next rest => exact absurd (clean '$' List.mem_cons_self) (by decide)
  · simp only [cutFirst_clean clean, read, found]

end Operands

section Numbers

theorem bare_digitChar {d : Nat} (below : d < 16) : isBare (Nat.digitChar d) = true := by
  have all : ∀ d : Fin 16, isBare (Nat.digitChar d) = true := by decide
  exact all ⟨d, below⟩

theorem bare_toDigits {n : Nat} : ∀ c ∈ Nat.toDigits 10 n, isBare c = true := by
  intro c member
  obtain ⟨d, below, rfl⟩ := Text.exists_of_mem_toDigits (by decide) member
  exact bare_digitChar (by omega)

theorem bare_toString (v : Int) : ∀ c ∈ (toString v).toList, isBare c = true := by
  rw [Int.toString_eq_repr, Int.repr_eq_if]
  split
  · rw [Nat.toList_repr]
    exact bare_toDigits
  · have minus : ("-" ++ (-v).toNat.repr).toList = '-' :: Nat.toDigits 10 (-v).toNat := by simp
    rw [minus]
    exact List.forall_mem_cons.mpr ⟨by decide, bare_toDigits⟩

theorem spells_int {v : Int} (room : v.natAbs < Literal.ceiling) :
    Spells (toString v) (.int v) := by
  have read := Literal.int?_toString room
  have bare := bare_toString v
  refine ⟨isToken_of_bare (fun empty => ?_) bare, ofToken_int (clean_of_bare bare) read⟩
  rw [empty] at read
  cases read

theorem spells_natural {n : Nat} (room : n < Literal.ceiling) : Spells (toString n) (.int n) :=
  spells_int (v := n) room

theorem hexText_toList (width n : Nat) :
    (Text.hexText width n).toList = '0' :: 'x' :: Text.paddedDigits 16 width n := by
  simp [Text.hexText]

theorem bare_hexText (width n : Nat) : ∀ c ∈ (Text.hexText width n).toList, isBare c = true := by
  rw [hexText_toList]
  refine List.forall_mem_cons.mpr ⟨by decide, List.forall_mem_cons.mpr ⟨by decide, ?_⟩⟩
  intro c member
  obtain ⟨d, below, rfl⟩ := Text.exists_of_mem_paddedDigits (by decide) member
  exact bare_digitChar below

theorem hexWord_toList (w : Word) :
    (hexWord w).toList = '0' :: 'x' :: Text.paddedDigits 16 8 w.toNat := hexText_toList 8 w.toNat

theorem bare_hexWord (w : Word) : ∀ c ∈ (hexWord w).toList, isBare c = true :=
  bare_hexText 8 w.toNat

theorem int?_hexWord (w : Word) : Literal.int? (hexWord w).toList = some w.toNat :=
  Literal.int?_hexText 8 (Nat.lt_trans w.isLt (by decide))

theorem spells_hexWord (w : Word) : Spells (hexWord w) (.int w.toNat) := by
  refine ⟨isToken_of_bare ?_ (bare_hexWord w),
    ofToken_int (clean_of_bare (bare_hexWord w)) (int?_hexWord w)⟩
  rw [hexWord_toList]
  exact List.cons_ne_nil _ _

end Numbers

section Memory

variable {text : List Char} {label : Option String} {offset : Int}

/-- A displacement is read in front of the base register, which stands in brackets. -/
theorem ofToken_mem (clean : ∀ c ∈ text, isOpening c = false)
    (read : Operand.displacement? text = some (label, offset)) (base : Reg) :
    Operand.ofToken (text ++ '(' :: ((Register.text base).toList ++ [')'])) =
      .ok (.mem label offset base) := by
  have register : ∀ r : Reg, Register.ofToken? (Register.text r).toList = some r := by
    decide +kernel
  have cut : Text.cutFirst (· = '(') (text ++ '(' :: ((Register.text base).toList ++ [')'])) =
      some (text, '(', (Register.text base).toList ++ [')']) :=
    Text.cutFirst_append (fun c member => by have := clean c member; simp_all [isOpening]) rfl
  unfold Operand.ofToken
  split
  · next rest same =>
    cases text with
    | nil => exact absurd (List.cons.inj same).1 (by decide)
    | cons c text =>
      obtain ⟨rfl, -⟩ := List.cons.inj same
      exact absurd (clean '$' List.mem_cons_self) (by decide)
  · rw [cut]
    simp only [Text.dropEnd?_append, register, read]

/-- The displacement of a disassembled access is a hexadecimal number. -/
theorem spells_mem (w : Word) (base : Reg) :
    Spells (hexWord w ++ "(" ++ Register.text base ++ ")") (.mem none w.toNat base) := by
  have chars : (hexWord w ++ "(" ++ Register.text base ++ ")").toList =
      (hexWord w).toList ++ '(' :: ((Register.text base).toList ++ [')']) := by simp
  have number := bare_hexWord w
  constructor
  · refine ⟨by rw [chars]; simp, fun c member => ?_⟩
    rw [chars] at member
    rcases List.mem_append.mp member with digit | member
    · exact isPlain_of_isBare (number c digit)
    rcases List.mem_cons.mp member with rfl | member
    · decide
    rcases List.mem_append.mp member with name | close
    · exact (spells_register base).isToken.plain c name
    · cases List.mem_singleton.mp close
      decide
  · have displacement :
        Operand.displacement? (hexWord w).toList = some (none, (w.toNat : Int)) := by
      rw [Operand.displacement?, int?_hexWord, hexWord_toList]
      rfl
    rw [chars]
    exact ofToken_mem (clean_of_bare number) displacement base

end Memory

section Labels

variable {c : Char} {name : List Char}

/-- What may begin a label is no digit. -/
theorem isDigit_letter (letter : (c.isAlpha || c = '_') = true) : c.isDigit = false := by
  simp only [Char.isAlpha, Char.isUpper, Char.isLower, UInt32.le_iff_toNat_le, ge_iff_le,
    Bool.or_eq_true, Bool.and_eq_true, decide_eq_true_eq] at letter
  rcases letter with alphabetic | rfl
  · change 65 ≤ c.toNat ∧ c.toNat ≤ 90 ∨ 97 ≤ c.toNat ∧ c.toNat ≤ 122 at alphabetic
    rw [← Bool.not_eq_true, Char.isDigit_iff_toNat]
    change ¬ (48 ≤ c.toNat ∧ c.toNat ≤ 57)
    omega
  · decide

theorem digitValue?_letter (letter : (c.isAlpha || c = '_') = true) :
    Text.digitValue? 10 c = none := by
  cases found : Text.digitValue? 10 c with
  | none => rfl
  | some d =>
    have digit := Text.isDigit_of_digitValue? found
    exact absurd ((isDigit_letter letter).symm.trans digit) Bool.false_ne_true

/-- What begins like a label is no number. -/
theorem int?_letter (letter : (c.isAlpha || c = '_') = true) (rest : List Char) :
    Literal.int? (c :: rest) = none := by
  have other {d : Char} (mark : (d.isAlpha || d = '_') = false) : c ≠ d := by
    rintro rfl
    exact Bool.false_ne_true (mark.symm.trans letter)
  have decimal : Text.naturalIn? 10 63 (c :: rest) = none := by
    rw [Text.naturalIn?, Text.natural?, List.foldlM_cons, digitValue?_letter letter]
    rfl
  unfold Literal.int?
  split
  · next same => exact absurd (List.cons.inj same).1 (other (by decide))
  · next same => exact absurd (List.cons.inj same).1 (other (by decide))
  · unfold Literal.magnitude?
    split
    · next same => exact absurd (List.cons.inj same).1 (other (by decide))
    · next same => exact absurd (List.cons.inj same).1 (other (by decide))
    · next same => exact absurd (List.cons.inj same).1 (other (by decide))
    · rw [decimal]
      rfl

theorem int?_identifier (identifier : isIdentifier name = true) (rest : List Char) :
    Literal.int? (name ++ rest) = none := by
  cases name with
  | nil => cases identifier
  | cons c name => exact int?_letter ((Bool.and_eq_true _ _).mp identifier).1 (name ++ rest)

theorem bare_identifier (identifier : isIdentifier name = true) :
    ∀ c ∈ name, isBare c = true := by
  cases name with
  | nil => cases identifier
  | cons c rest =>
    obtain ⟨letter, others⟩ := (Bool.and_eq_true _ _).mp identifier
    refine List.forall_mem_cons.mpr ⟨?_, fun d member => ?_⟩
    · simp only [Bool.or_eq_true, decide_eq_true_eq] at letter
      rcases letter with alphabetic | underscore
      · simp [isBare, Char.isAlphanum, alphabetic]
      · simp [isBare, underscore]
    · have inside := List.all_eq_true.mp others d member
      simp only [Bool.or_eq_true, decide_eq_true_eq] at inside
      rcases inside with (alphanumeric | underscore) | dot
      · simp [isBare, alphanumeric]
      · simp [isBare, underscore]
      · simp [isBare, dot]

/-- No character of a label can begin an offset. -/
theorem labelExpression?_append (identifier : isIdentifier name = true) {rest : List Char}
    (signed : ∀ d ∈ rest.head?, d = '+' ∨ d = '-') :
    Operand.labelExpression? (name ++ rest) =
      if rest.isEmpty then some (String.ofList name, 0)
      else (Literal.int? rest).map fun offset => (String.ofList name, offset) := by
  cases name with
  | nil => cases identifier
  | cons c front =>
    obtain ⟨-, others⟩ := (Bool.and_eq_true _ _).mp identifier
    have unsigned : ∀ d ∈ front, (! (d = '+' || d = '-' : Bool)) = true := by
      intro d member
      have inside := List.all_eq_true.mp others d member
      have plus : d ≠ '+' := by
        rintro rfl
        exact absurd inside (by decide)
      have minus : d ≠ '-' := by
        rintro rfl
        exact absurd inside (by decide)
      simp [plus, minus]
    have ends : rest.takeWhile (fun d => ! (d = '+' || d = '-' : Bool)) = [] ∧
        rest.dropWhile (fun d => ! (d = '+' || d = '-' : Bool)) = rest := by
      cases rest with
      | nil => exact ⟨rfl, rfl⟩
      | cons d rest => rcases signed d rfl with rfl | rfl <;> simp
    simp only [Operand.labelExpression?, List.cons_append, List.take_succ_cons, List.take_zero,
      List.drop_succ_cons, List.drop_zero, List.takeWhile_append_of_pos unsigned,
      List.dropWhile_append_of_pos unsigned, ends, List.append_nil, List.nil_append, identifier,
      if_true]

theorem labelExpression?_identifier (identifier : isIdentifier name = true) :
    Operand.labelExpression? name = some (String.ofList name, 0) := by
  have unsigned : ∀ d ∈ ([] : List Char).head?, d = '+' ∨ d = '-' := by simp
  have read := labelExpression?_append identifier unsigned
  rwa [List.append_nil] at read

theorem spells_label {name : String} (identifier : isIdentifier name.toList = true) :
    Spells name (.label name 0) := by
  have bare := bare_identifier identifier
  constructor
  · refine isToken_of_bare (fun empty => ?_) bare
    rw [empty] at identifier
    cases identifier
  · have found := labelExpression?_identifier identifier
    rw [String.ofList_toList] at found
    have number := int?_identifier identifier []
    rw [List.append_nil] at number
    exact ofToken_label (clean_of_bare bare) number found

theorem identifier_of_labelExpression? {text : List Char} {label : String} {offset : Int}
    (found : Operand.labelExpression? text = some (label, offset)) :
    isIdentifier label.toList = true := by
  unfold Operand.labelExpression? at found
  dsimp only at found
  split at found
  · next identifier =>
    split at found
    · cases found
      rwa [String.toList_ofList]
    · obtain ⟨value, -, same⟩ := Option.map_eq_some_iff.mp found
      cases same
      rwa [String.toList_ofList]
  · cases found

/-- Operands name labels only. -/
theorem identifier_of_ofToken {token : List Char} {label : String} {offset : Int}
    (read : Operand.ofToken token = .ok (.label label offset)) :
    isIdentifier label.toList = true := by
  unfold Operand.ofToken at read
  repeat' split at read
  all_goals cases read
  next found => exact identifier_of_labelExpression? found

end Labels

end MipsLab
