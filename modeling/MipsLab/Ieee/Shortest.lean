import MipsLab.Ieee.Rounding

/-! The decimal text of a pattern: the fewest digits that read back as the same pattern, and of
those the digits nearest to it. -/
namespace MipsLab.Ieee

/-- The reals strictly between the two quotients round to a pattern; when `closed`, so do the two
ends. All three quantities are in units of `1 / den`. -/
structure Interval where
  low : Nat
  value : Nat
  high : Nat
  den : Nat
  closed : Bool

/-- The reals that round to `mantissa · 2 ^ scale`. Below a power of two the next pattern is only
half as far away, unless the exponent is already the least. -/
def interval (f : Format) (mantissa : Nat) (scale : Int) : Interval :=
  let narrow := mantissa = Nat.pow 2 f.fractionBits ∧ f.minScale < scale
  let exponent := scale - 2
  let up := Nat.pow 2 exponent.toNat
  { low := (4 * mantissa - if narrow then 1 else 2) * up
    value := 4 * mantissa * up
    high := (4 * mantissa + 2) * up
    den := Nat.pow 2 (-exponent).toNat
    closed := mantissa % 2 == 0 }

structure Decimal where
  digits : Nat
  exponent : Int
  deriving DecidableEq

def Interval.admits (i : Interval) (d : Decimal) : Bool :=
  let up := d.digits * Nat.pow 10 d.exponent.toNat * i.den
  let down := Nat.pow 10 (-d.exponent).toNat
  if i.closed then i.low * down ≤ up && up ≤ i.high * down
  else i.low * down < up && up < i.high * down

/-- The largest exponent `e` with `10 ^ e ≤ num / den`, for a positive quotient. -/
def decimalExponent (num den : Nat) : Int :=
  if den ≤ num then ((Nat.toDigits 10 (num / den)).length : Int) - 1
  else
    let guess := (Nat.toDigits 10 (den / num)).length
    if den ≤ num * Nat.pow 10 (guess - 1) then -((guess : Int) - 1) else -(guess : Int)

/-- The best decimal with `count` digits that the interval admits. The value lies between two
neighbours of that grid; of two admitted neighbours the nearer is taken, and the upper on a tie. -/
def Interval.withDigits (i : Interval) (top : Int) (count : Nat) : Option Decimal :=
  let exponent := top - (count : Int) + 1
  let num := i.value * Nat.pow 10 (-exponent).toNat
  let den := i.den * Nat.pow 10 exponent.toNat
  let below : Decimal := ⟨num / den, exponent⟩
  let above : Decimal := ⟨num / den + 1, exponent⟩
  match i.admits below, i.admits above with
  | true, true => some (if 2 * (num % den) < den then below else above)
  | true, false => some below
  | false, true => some above
  | false, false => none

/-- No format here needs more than seventeen digits. -/
def maxDigits : Nat := 17

def shortest (f : Format) (mantissa : Nat) (scale : Int) : Decimal :=
  let i := interval f mantissa scale
  let top := decimalExponent i.value i.den
  ((List.range maxDigits).findSome? fun n => i.withDigits top (n + 1)).getD ⟨0, 0⟩

def Decimal.trimmed (d : Decimal) : Decimal :=
  let zeros := (Nat.toDigits 10 d.digits).reverse.takeWhile (· = '0')
  ⟨d.digits / Nat.pow 10 zeros.length, d.exponent + zeros.length⟩

/-- How a program prints numbers: the exponents written positionally, with at least one digit
after the point; all others as a digit, the rest after a point if there is one, and `e`. -/
structure Style where
  leastPositional : Int
  leastScientific : Int

def consoleStyle : Style := ⟨-4, 16⟩

def Decimal.text (style : Style) (d : Decimal) : String :=
  let digits := Nat.toDigits 10 d.digits
  let top := d.exponent + digits.length - 1
  let zeros (n : Int) := List.replicate n.toNat '0'
  let chars :=
    if top < style.leastPositional ∨ style.leastScientific ≤ top then
      let tail := match digits.drop 1 with
        | [] => []
        | rest => '.' :: rest
      digits.take 1 ++ tail ++ 'e' :: (toString top).toList
    else if 0 ≤ d.exponent then digits ++ zeros d.exponent ++ ['.', '0']
    else if 0 ≤ top then
      digits.take (top.toNat + 1) ++ '.' :: digits.drop (top.toNat + 1)
    else ['0', '.'] ++ zeros (-top - 1) ++ digits
  String.ofList chars

/-- The console text of a pattern: `nan`, `inf`, `-inf`, or the shortest decimal. -/
def text (f : Format) (bits : Nat) : String :=
  match decode f bits with
  | .nan .. => "nan"
  | .infinite negative => if negative then "-inf" else "inf"
  | .finite negative m s =>
    let magnitude := if m = 0 then "0.0" else (shortest f m s).trimmed.text consoleStyle
    if negative then "-" ++ magnitude else magnitude

/-- `mantissa · 2 ^ scale` with the given number of digits after the point, a tie to the even
neighbour. -/
def fixedText (places mantissa : Nat) (scale : Int) : String :=
  let scaled := mantissa * Nat.pow 10 places * Nat.pow 2 scale.toNat
  let rounded := roundQuotient scaled (Nat.pow 2 (-scale).toNat)
  let fraction := Nat.toDigits 10 (rounded % Nat.pow 10 places)
  toString (rounded / Nat.pow 10 places) ++ "." ++
    String.ofList (List.replicate (places - fraction.length) '0' ++ fraction)

end MipsLab.Ieee
