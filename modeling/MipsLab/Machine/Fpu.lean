import MipsLab.Isa.Instruction
import MipsLab.Ieee.Shortest

/-! Float operations on register bits. -/
namespace MipsLab.Fpu

open Ieee (Format)

def arith (f : Format) (op : FloatOp) (a b : Nat) : Nat :=
  match op with
  | .add => Ieee.add f a b
  | .sub => Ieee.sub f a b
  | .mul => Ieee.mul f a b
  | .div => Ieee.div f a b

def unary (f : Format) (op : FloatUnary) (a : Nat) : Nat :=
  match op with
  | .abs => Ieee.abs f a
  | .neg => Ieee.neg f a
  | .sqrt => Ieee.sqrt f a
  | .mov => a

/-- A comparison with NaN fails. -/
def compare (f : Format) (cond : Cond) (a b : Nat) : Bool :=
  match cond, Ieee.compare? f a b with
  | .eq, some .eq | .lt, some .lt | .le, some .lt | .le, some .eq => true
  | _, _ => false

/-- The integer that a number rounds to. Whatever has no such 32-bit integer gives the largest
one. -/
def toWord (f : Format) (mode : Ieee.RoundMode) (a : Nat) : Word :=
  match Ieee.decode f a with
  | .finite negative m s =>
    let i := Ieee.toInteger mode negative m s
    if -0x80000000 ≤ i ∧ i < 0x80000000 then BitVec.ofInt 32 i else 0x7FFFFFFF
  | _ => 0x7FFFFFFF

def singleText (w : Word) : String := Ieee.text Ieee.single w.toNat

def doubleText (d : BitVec 64) : String := Ieee.text Ieee.double d.toNat

end MipsLab.Fpu
