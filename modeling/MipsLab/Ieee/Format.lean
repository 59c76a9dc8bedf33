/-! Binary interchange formats. A bit pattern is a natural number with the sign in the highest
bit, the exponent field below it and the fraction field lowest. A finite pattern means
`± mantissa · 2 ^ scale`, and every operation on patterns is done on those integers. -/
namespace MipsLab.Ieee

structure Format where
  fractionBits : Nat
  exponentBits : Nat
  deriving DecidableEq

def single : Format := ⟨23, 8⟩

def double : Format := ⟨52, 11⟩

namespace Format

def signBit (f : Format) : Nat := Nat.pow 2 (f.fractionBits + f.exponentBits)

def infinity (f : Format) : Nat := (Nat.pow 2 f.exponentBits - 1) * Nat.pow 2 f.fractionBits

def quietBit (f : Format) : Nat := Nat.pow 2 (f.fractionBits - 1)

def minScale (f : Format) : Int :=
  2 - Nat.pow 2 (f.exponentBits - 1) - (f.fractionBits : Int)

def withSign (f : Format) (negative : Bool) (magnitude : Nat) : Nat :=
  if negative then f.signBit + magnitude else magnitude

/-- The NaN that an operation without a defined result delivers. -/
def invalid (f : Format) : Nat := f.withSign true (f.infinity + f.quietBit)

end Format

inductive Value where
  | nan (negative : Bool) (payload : Nat)
  | infinite (negative : Bool)
  | finite (negative : Bool) (mantissa : Nat) (scale : Int)
  deriving DecidableEq

def decode (f : Format) (bits : Nat) : Value :=
  let negative := bits / f.signBit % 2 == 1
  let magnitude := bits % f.signBit
  let fraction := magnitude % Nat.pow 2 f.fractionBits
  let exponent := magnitude / Nat.pow 2 f.fractionBits
  if f.infinity < magnitude then .nan negative fraction
  else if magnitude = f.infinity then .infinite negative
  else if exponent = 0 then .finite negative fraction f.minScale
  else .finite negative (fraction + Nat.pow 2 f.fractionBits) (f.minScale + exponent - 1)

namespace Value

def isNan : Value → Bool
  | .nan .. => true
  | _ => false

def negative : Value → Bool
  | .nan n _ | .infinite n | .finite n .. => n

end Value

/-- The pattern of a NaN as an operation passes it on: the payload is kept and made quiet. -/
def quiet (f : Format) (bits : Nat) : Nat := bits ||| f.quietBit

end MipsLab.Ieee
