import MipsLab.Settings.Basic
import MipsLab.Text.Numeral

/-! Reading settings from JSON. An object may name each setting at most once; an array gives them
in order, and may stop early. Only the values that settings have are read: booleans, `null` and
integers below `2 ^ 64`. -/
namespace MipsLab.Settings

inductive JsonValue where
  | null
  | bool (b : Bool)
  | integer (n : Nat)
  deriving DecidableEq

def jsonBlank (c : Char) : Bool := c = ' ' || c = '\t' || c = '\n' || c = '\r'

def skipBlank (text : List Char) : List Char := text.dropWhile jsonBlank

def codeUnit? : List Char → Option (Nat × List Char)
  | a :: b :: c :: d :: rest => (Text.natural? 16 [a, b, c, d]).map (·, rest)
  | _ => none

/-- The rest of a string behind its opening quote: the decoded characters, and what follows the
closing quote. `fuel` bounds the number of characters. -/
def stringBody? : (fuel : Nat) → List Char → Option (List Char × List Char)
  | 0, _ => none
  | fuel + 1, text =>
    let continue? (c : Char) (rest : List Char) :=
      (stringBody? fuel rest).map fun (chars, after) => (c :: chars, after)
    match text with
    | '"' :: rest => some ([], rest)
    | '\\' :: 'u' :: rest => do
      let (unit, rest) ← codeUnit? rest
      if 0xD800 ≤ unit ∧ unit < 0xDC00 then
        let afterMark ← Text.dropStart? ['\\', 'u'] rest
        let (low, rest) ← codeUnit? afterMark
        if 0xDC00 ≤ low ∧ low < 0xE000 then
          continue? (Char.ofNat (0x10000 + (unit - 0xD800) * 0x400 + (low - 0xDC00))) rest
        else none
      else if 0xDC00 ≤ unit ∧ unit < 0xE000 then none
      else continue? (Char.ofNat unit) rest
    | '\\' :: c :: rest => do
      let escapes := [('"', '"'), ('\\', '\\'), ('/', '/'), ('b', '\x08'), ('f', '\x0c'),
        ('n', '\n'), ('r', '\r'), ('t', '\t')]
      let decoded ← escapes.lookup c
      continue? decoded rest
    | c :: rest => if c = '\\' ∨ c.toNat < 32 then none else continue? c rest
    | [] => none

def string? (text : List Char) : Option (String × List Char) :=
  match text with
  | '"' :: rest =>
    (stringBody? (rest.length + 1) rest).map fun (chars, after) => (String.ofList chars, after)
  | _ => none

/-- A number is read only if it is a non-negative integer without fraction and exponent. -/
def integer? (text : List Char) : Option (Nat × List Char) := do
  let digits := text.takeWhile Char.isDigit
  let rest := text.dropWhile Char.isDigit
  let n ← Text.naturalIn? 10 64 digits
  match rest with
  | '.' :: _ | 'e' :: _ | 'E' :: _ => none
  | _ => if digits.length ≠ 1 ∧ digits.head? = some '0' then none else some (n, rest)

def value? (text : List Char) : Option (JsonValue × List Char) :=
  match Text.dropStart? "null".toList text with
  | some rest => some (.null, rest)
  | none =>
    match Text.dropStart? "true".toList text with
    | some rest => some (.bool true, rest)
    | none =>
      match Text.dropStart? "false".toList text with
      | some rest => some (.bool false, rest)
      | none => (integer? text).map fun (n, rest) => (.integer n, rest)

def names : List String :=
  ["debug", "garbage_memory", "garbage_registers", "warnings", "show_instruction_count",
   "max_instructions", "start_at_main"]

def put? (s : Settings) (index : Nat) (value : JsonValue) : Option Settings :=
  match index, value with
  | 0, .bool b => some { s with debug := b }
  | 1, .bool b => some { s with garbageMemory := b }
  | 2, .bool b => some { s with garbageRegisters := b }
  | 3, .bool b => some { s with warnings := b }
  | 4, .bool b => some { s with showCount := b }
  | 5, .null => some { s with maxInstructions := none }
  | 5, .integer n => some { s with maxInstructions := some n }
  | 6, .bool b => some { s with startAtMain := b }
  | _, _ => none

/-- Elements of an array from position `index` on. -/
def elements? (index : Nat) : (fuel : Nat) → Settings → List Char →
    Option (Settings × List Char)
  | 0, _, _ => none
  | fuel + 1, s, text => do
    let (value, rest) ← value? (skipBlank text)
    let s ← put? s index value
    match skipBlank rest with
    | ']' :: after => some (s, after)
    | ',' :: after => elements? (index + 1) fuel s after
    | _ => none

/-- Members of an object; `seen` holds the settings already named. -/
def members? (seen : List Nat) : (fuel : Nat) → Settings → List Char →
    Option (Settings × List Char)
  | 0, _, _ => none
  | fuel + 1, s, text => do
    let (name, rest) ← string? (skipBlank text)
    let index ← names.findIdx? (· = name)
    let tail ← Text.dropStart? [':'] (skipBlank rest)
    let (value, rest) ← value? (skipBlank tail)
    let s ← if seen.contains index then none else put? s index value
    match skipBlank rest with
    | '}' :: after => some (s, after)
    | ',' :: after => members? (index :: seen) fuel s after
    | _ => none

def ofJson? (text : List Char) : Option Settings := do
  let (s, rest) ← match skipBlank text with
    | '[' :: rest =>
      match skipBlank rest with
      | ']' :: after => some ({}, after)
      | _ => elements? 0 (names.length + 1) {} rest
    | '\x7b' :: rest =>
      match skipBlank rest with
      | '}' :: after => some ({}, after)
      | _ => members? [] (names.length + 1) {} rest
    | _ => none
  if (skipBlank rest).isEmpty then some s else none

end MipsLab.Settings
