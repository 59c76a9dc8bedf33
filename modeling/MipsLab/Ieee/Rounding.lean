import MipsLab.Ieee.Format

/-! Rounding an exact quotient to the nearest pattern of a format. Ties go to the even
neighbour; a magnitude past the largest finite number becomes infinite. -/
namespace MipsLab.Ieee

/-- The quotient rounded to the nearest natural number, a tie to the even one. -/
def roundQuotient (num den : Nat) : Nat :=
  let q := num / den
  let twice := 2 * (num % den)
  if den < twice ∨ (twice = den ∧ q % 2 = 1) then q + 1 else q

def roundAt (num den : Nat) (scale : Int) : Nat :=
  if scale < 0 then roundQuotient (num * Nat.pow 2 scale.natAbs) den
  else roundQuotient num (den * Nat.pow 2 scale.natAbs)

/-- The scale at which the positive quotient `num / den` has as many bits as the mantissa of a
normal number. -/
def normalScale (f : Format) (num den : Nat) : Int :=
  let guess : Int := (num.log2 : Int) - den.log2 - f.fractionBits
  let short :=
    if guess < 0 then num * Nat.pow 2 guess.natAbs < den * Nat.pow 2 f.fractionBits
    else num < den * Nat.pow 2 guess.natAbs * Nat.pow 2 f.fractionBits
  if short then guess - 1 else guess

/-- The pattern nearest to `± num / den`. A rounded mantissa that outgrows its field carries into
the exponent, which is why the two fields are added and not joined. -/
def ofQuotient (f : Format) (negative : Bool) (num den : Nat) : Nat :=
  if num = 0 then f.withSign negative 0
  else
    let scale := max f.minScale (normalScale f num den)
    let magnitude := (scale - f.minScale).toNat * Nat.pow 2 f.fractionBits + roundAt num den scale
    f.withSign negative (min magnitude f.infinity)

def ofScaled (f : Format) (negative : Bool) (mantissa : Nat) (scale : Int) : Nat :=
  if scale < 0 then ofQuotient f negative mantissa (Nat.pow 2 scale.natAbs)
  else ofQuotient f negative (mantissa * Nat.pow 2 scale.natAbs) 1

def ofInt (f : Format) (i : Int) : Nat := ofQuotient f (i < 0) i.natAbs 1

end MipsLab.Ieee
