import MipsLab.Ieee.Rounding

/-! Arithmetic, comparison and conversion of bit patterns. Every result is the exact one, rounded
once. A NaN operand is passed on, the first operand's before the second's; an operation without a
defined result delivers the format's invalid NaN. -/
namespace MipsLab.Ieee

/-- `± mantissa · 2 ^ scale` in units of `2 ^ unit`, for a unit not above the scale. -/
def unitsOf (negative : Bool) (mantissa : Nat) (scale unit : Int) : Int :=
  let n : Nat := mantissa * Nat.pow 2 (scale - unit).toNat
  if negative then -(n : Int) else n

def add (f : Format) (a b : Nat) : Nat :=
  match decode f a, decode f b with
  | .nan .., _ => quiet f a
  | _, .nan .. => quiet f b
  | .infinite n, .infinite k => if n = k then a else f.invalid
  | .infinite _, _ => a
  | _, .infinite _ => b
  | .finite n₁ m₁ s₁, .finite n₂ m₂ s₂ =>
    let unit := min s₁ s₂
    let sum := unitsOf n₁ m₁ s₁ unit + unitsOf n₂ m₂ s₂ unit
    if sum = 0 then f.withSign (n₁ && n₂) 0 else ofScaled f (sum < 0) sum.natAbs unit

def neg (f : Format) (a : Nat) : Nat := a ^^^ f.signBit

def abs (f : Format) (a : Nat) : Nat := a % f.signBit

/-- Subtraction adds the opposite, but passes on a NaN of the second operand unchanged. -/
def sub (f : Format) (a b : Nat) : Nat :=
  match decode f a, decode f b with
  | .nan .., _ => quiet f a
  | _, .nan .. => quiet f b
  | _, _ => add f a (neg f b)

def mul (f : Format) (a b : Nat) : Nat :=
  match decode f a, decode f b with
  | .nan .., _ => quiet f a
  | _, .nan .. => quiet f b
  | .infinite n, .infinite k => f.withSign (n ^^ k) f.infinity
  | .infinite n, .finite k m _ | .finite n m _, .infinite k =>
    if m = 0 then f.invalid else f.withSign (n ^^ k) f.infinity
  | .finite n₁ m₁ s₁, .finite n₂ m₂ s₂ => ofScaled f (n₁ ^^ n₂) (m₁ * m₂) (s₁ + s₂)

def div (f : Format) (a b : Nat) : Nat :=
  match decode f a, decode f b with
  | .nan .., _ => quiet f a
  | _, .nan .. => quiet f b
  | .infinite _, .infinite _ => f.invalid
  | .infinite n, .finite k .. => f.withSign (n ^^ k) f.infinity
  | .finite n .., .infinite k => f.withSign (n ^^ k) 0
  | .finite n₁ m₁ s₁, .finite n₂ m₂ s₂ =>
    if m₂ = 0 then if m₁ = 0 then f.invalid else f.withSign (n₁ ^^ n₂) f.infinity
    else
      let shift := s₁ - s₂
      if shift < 0 then ofQuotient f (n₁ ^^ n₂) m₁ (m₂ * Nat.pow 2 shift.natAbs)
      else ofQuotient f (n₁ ^^ n₂) (m₁ * Nat.pow 2 shift.natAbs) m₂

/-- The largest natural number whose square is not above `n`. -/
def floorSqrt (n : Nat) : Nat :=
  if h : n = 0 then 0
  else
    let r := 2 * floorSqrt (n / 4)
    if (r + 1) * (r + 1) ≤ n then r + 1 else r
termination_by n
decreasing_by omega

/-- The root of the mantissa is taken with more bits than the format keeps; one more bit below
records whether it was exact, so that the final rounding sees on which side the root lies. -/
def sqrt (f : Format) (a : Nat) : Nat :=
  match decode f a with
  | .nan .. => quiet f a
  | .infinite true => f.invalid
  | .infinite false => a
  | .finite negative m s =>
    if m = 0 then a
    else if negative then f.invalid
    else
      let extra := 2 * (f.fractionBits + 3) + (s % 2).toNat
      let wide := m * Nat.pow 2 extra
      let root := floorSqrt wide
      let inexact := if root * root = wide then 0 else 1
      ofScaled f false (2 * root + inexact) ((s - extra) / 2 - 1)

/-- The sign of `a - b`, or nothing when either is NaN. -/
def compare? (f : Format) (a b : Nat) : Option Ordering :=
  match decode f a, decode f b with
  | .nan .., _ | _, .nan .. => none
  | .infinite n, .infinite k => some (compare (!n) (!k))
  | .infinite n, .finite .. => some (if n then .lt else .gt)
  | .finite .., .infinite k => some (if k then .gt else .lt)
  | .finite n₁ m₁ s₁, .finite n₂ m₂ s₂ =>
    let unit := min s₁ s₂
    some (compare (unitsOf n₁ m₁ s₁ unit) (unitsOf n₂ m₂ s₂ unit))

/-- The pattern of another format nearest to what `a` means. A NaN keeps its sign and the
highest bits of its payload. -/
def convert (source target : Format) (a : Nat) : Nat :=
  match decode source a with
  | .nan negative payload =>
    let kept :=
      if source.fractionBits < target.fractionBits then
        payload * Nat.pow 2 (target.fractionBits - source.fractionBits)
      else payload / Nat.pow 2 (source.fractionBits - target.fractionBits)
    quiet target (target.withSign negative (target.infinity + kept))
  | .infinite negative => target.withSign negative target.infinity
  | .finite negative m s => ofScaled target negative m s

inductive RoundMode where
  | ceil | floor | round | trunc
  deriving DecidableEq, Inhabited

/-- `± mantissa · 2 ^ scale` rounded to an integer; `round` sends ties to the even neighbour. -/
def toInteger (mode : RoundMode) (negative : Bool) (mantissa : Nat) (scale : Int) : Int :=
  let signed (n : Nat) : Int := if negative then -(n : Int) else n
  if 0 ≤ scale then signed (mantissa * Nat.pow 2 scale.natAbs)
  else
    let unit := Nat.pow 2 scale.natAbs
    match mode with
    | .trunc => signed (mantissa / unit)
    | .round => signed (roundQuotient mantissa unit)
    | .floor => Int.fdiv (signed mantissa) unit
    | .ceil => -(Int.fdiv (-(signed mantissa)) unit)

end MipsLab.Ieee
