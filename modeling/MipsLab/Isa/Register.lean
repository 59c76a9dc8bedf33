import MipsLab.Text.Numeral
import MipsLab.Text.Bytes

/-! Registers and their names. Integer registers have conventional names and numbers, float
registers are `f0` to `f31`, and there are eight condition flags. -/
namespace MipsLab

abbrev Reg := Fin 32

abbrev FReg := Fin 32

abbrev Flag := Fin 8

/-- The flag of an instruction that names none. -/
def Flag.unnamed : Flag := ⟨0, by decide⟩

namespace Register

def zero : Reg := 0
def at1 : Reg := 1
def v0 : Reg := 2
def a0 : Reg := 4
def a1 : Reg := 5
def a2 : Reg := 6
def gp : Reg := 28
def sp : Reg := 29
def fp : Reg := 30
def ra : Reg := 31

def f0 : FReg := 0

def f12 : FReg := 12

def names : List String :=
  ["zero", "at", "v0", "v1", "a0", "a1", "a2", "a3", "t0", "t1", "t2", "t3", "t4", "t5", "t6",
   "t7", "s0", "s1", "s2", "s3", "s4", "s5", "s6", "s7", "t8", "t9", "k0", "k1", "gp", "sp",
   "fp", "ra"]

/-- The canonical spelling of integer register `i`: `$0` for the zero register, else its name. -/
def text (i : Nat) : String :=
  if i = 0 then "$0"
  else match names[i]? with
    | some name => "$" ++ name
    | none => "$" ++ toString i

def floatText (i : Nat) : String := "$f" ++ toString i

def ofNat? (i : Nat) : Option Reg := if h : i < 32 then some ⟨i, h⟩ else none

/-- The integer register with a name or number, written without the dollar sign. `s8` is another
name of the frame pointer. -/
def named? (name : List Char) : Option Reg :=
  match Text.natural? 10 name with
  | some n => ofNat? n
  | none =>
    if name = ['s', '8'] then some fp
    else ((List.finRange 32).find? fun r => (names[r.val]?.map String.toList) == some name)

def floatNamed? : List Char → Option FReg
  | 'f' :: digits => (Text.natural? 10 digits).bind ofNat?
  | _ => none

def ofToken? : List Char → Option Reg
  | '$' :: name => named? name
  | _ => none

def floatOfToken? : List Char → Option FReg
  | '$' :: name => floatNamed? name
  | _ => none

/-- Whether a text spells a register of either kind, with or without the dollar sign. -/
def isToken (text : List Char) : Bool :=
  let name := (Text.dropStart? ['$'] text).getD text
  (named? name).isSome || (floatNamed? name).isSome

end Register

end MipsLab
