import MipsLab.Text.Blank

/-! Numerals: reading digit strings, and writing numbers with a least width. -/
namespace MipsLab.Text

def digitValue? (base : Nat) (c : Char) : Option Nat :=
  let value :=
    if c.isDigit then some (c.toNat - '0'.toNat)
    else if 'a' ≤ c ∧ c ≤ 'f' then some (c.toNat - 'a'.toNat + 10)
    else if 'A' ≤ c ∧ c ≤ 'F' then some (c.toNat - 'A'.toNat + 10)
    else none
  value.filter (· < base)

def natural? (base : Nat) (digits : List Char) : Option Nat :=
  if digits.isEmpty then none
  else digits.foldlM (fun value c => (digitValue? base c).map (base * value + ·)) 0

/-- The value of a string of digits, if it is below `2 ^ bits`. -/
def naturalIn? (base bits : Nat) (digits : List Char) : Option Nat :=
  (natural? base digits).filter (· < Nat.pow 2 bits)

/-- A decimal numeral below `2 ^ bits`, after at most one plus sign. -/
def unsigned? (bits : Nat) (text : List Char) : Option Nat :=
  naturalIn? 10 bits ((dropStart? ['+'] text).getD text)

/-- A decimal numeral, after at most one sign, in the two's complement range of `bits` bits. -/
def signed? (bits : Nat) (text : List Char) : Option Int :=
  match dropStart? ['-'] text with
  | some digits =>
    ((natural? 10 digits).filter (· ≤ Nat.pow 2 (bits - 1))).map fun (n : Nat) => -(n : Int)
  | none => (unsigned? (bits - 1) text).map Int.ofNat

def padLeft (fill : Char) (width : Nat) (text : List Char) : List Char :=
  List.replicate (width - text.length) fill ++ text

def padRight (fill : Char) (width : Nat) (text : List Char) : List Char :=
  text ++ List.replicate (width - text.length) fill

/-- The digits of `n`, with zeros in front up to `width`. -/
def paddedDigits (base width n : Nat) : List Char :=
  padLeft '0' width (Nat.toDigits base n)

def hexText (width n : Nat) : String :=
  "0x" ++ String.ofList (paddedDigits 16 width n)

end MipsLab.Text
