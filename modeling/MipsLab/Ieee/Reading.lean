import MipsLab.Ieee.Rounding
import MipsLab.Text.Numeral

/-! Reading float literals: an optional sign, then `inf`, `infinity` or `nan` in any case, or
decimal digits with an optional point and an optional exponent. The value is rounded once, from
the decimal itself. -/
namespace MipsLab.Ieee

inductive Literal where
  | nan
  | infinite
  | decimal (digits : Nat) (exponent : Int)
  deriving DecidableEq

/-- The exponent after `e`: a sign and at least one digit. -/
def exponent? (text : List Char) : Option Int :=
  match text with
  | '-' :: digits => (Text.natural? 10 digits).map fun (n : Nat) => -(n : Int)
  | '+' :: digits => (Text.natural? 10 digits).map Int.ofNat
  | digits => (Text.natural? 10 digits).map Int.ofNat

/-- A number without its sign. At least one digit stands before or after the point. -/
def decimal? (text : List Char) : Option Literal := do
  let whole := text.takeWhile Char.isDigit
  let rest := text.dropWhile Char.isDigit
  let afterPoint := Text.dropStart? ['.'] rest
  let fraction := (afterPoint.getD []).takeWhile Char.isDigit
  let rest := match afterPoint with
    | some tail => tail.dropWhile Char.isDigit
    | none => rest
  let digits ← Text.natural? 10 (whole ++ fraction)
  let exponent ← match rest with
    | [] => some 0
    | 'e' :: tail | 'E' :: tail => exponent? tail
    | _ => none
  return .decimal digits (exponent - fraction.length)

def unsignedLiteral? (text : List Char) : Option Literal :=
  let lower := text.map Char.toLower
  if lower = "inf".toList ∨ lower = "infinity".toList then some .infinite
  else if lower = "nan".toList then some .nan
  else decimal? text

def literal? (text : List Char) : Option (Bool × Literal) :=
  match text with
  | '-' :: rest => (unsignedLiteral? rest).map (true, ·)
  | '+' :: rest => (unsignedLiteral? rest).map (false, ·)
  | rest => (unsignedLiteral? rest).map (false, ·)

/-- Past these exponents every non-zero decimal of either format is infinite or zero, so that the
power of ten need not be computed. -/
def exponentBound : Int := 400

def Literal.round (f : Format) (negative : Bool) : Literal → Nat
  | .nan => f.withSign negative (f.infinity + f.quietBit)
  | .infinite => f.withSign negative f.infinity
  | .decimal digits exponent =>
    let top := exponent + (Nat.toDigits 10 digits).length
    if digits = 0 ∨ top < -exponentBound then f.withSign negative 0
    else if exponentBound < top then f.withSign negative f.infinity
    else if exponent < 0 then ofQuotient f negative digits (Nat.pow 10 exponent.natAbs)
    else ofQuotient f negative (digits * Nat.pow 10 exponent.natAbs) 1

def read? (f : Format) (text : List Char) : Option Nat :=
  (literal? text).map fun (negative, value) => value.round f negative

end MipsLab.Ieee
