import MipsLab.Source.Statement
import MipsLab.Ieee.Reading

/-! Literals of the assembly language: integers in decimal, hexadecimal or as a character, floats,
and strings with escapes. -/
namespace MipsLab.Literal

/-- The character that a backslash and `c` stand for. -/
def unescape? : Char → Option Char
  | 'n' => some '\n'
  | 't' => some '\t'
  | 'r' => some '\r'
  | '0' => some '\x00'
  | '\\' => some '\\'
  | '"' => some '"'
  | '\x27' => some '\x27'
  | _ => none

/-- The characters between the quotes of a string literal; a quote among them is written with a
backslash. -/
def unescapeAll? : List Char → Option (List Char)
  | [] => some []
  | '\\' :: c :: rest => do
    let d ← unescape? c
    let tail ← unescapeAll? rest
    return d :: tail
  | c :: rest =>
    if c = '\\' || c = '"' then none else (unescapeAll? rest).map (c :: ·)

def string? (token : List Char) : Option String := do
  let body ← Text.dropStart? ['"'] token
  let body ← Text.dropEnd? ['"'] body
  let chars ← unescapeAll? body
  return String.ofList chars

/-- The code point of a character literal. -/
def character? (token : List Char) : Option Nat := do
  let body ← Text.dropStart? ['\x27'] token
  let body ← Text.dropEnd? ['\x27'] body
  match body with
  | [c] => if c = '\\' then none else some c.toNat
  | [mark, c] => if mark = '\\' then (unescape? c).map Char.toNat else none
  | _ => none

def magnitude? (body : List Char) : Option Nat :=
  match body with
  | '\x27' :: _ => character? body
  | '0' :: 'x' :: digits | '0' :: 'X' :: digits => Text.naturalIn? 16 63 digits
  | _ => Text.naturalIn? 10 63 body

/-- An integer: at most one sign, then a magnitude below `2 ^ 63`. -/
def int? (token : List Char) : Option Int :=
  match token with
  | '-' :: body => (magnitude? body).map fun (n : Nat) => -(n : Int)
  | '+' :: body => (magnitude? body).map Int.ofNat
  | body => (magnitude? body).map Int.ofNat

/-- The double of a float literal; integers are accepted too. -/
def float? (token : List Char) : Option (BitVec 64) :=
  match int? token with
  | some i => some (BitVec.ofNat 64 (Ieee.ofInt Ieee.double i))
  | none => (Ieee.read? Ieee.double token).map (BitVec.ofNat 64)

end MipsLab.Literal
