import MipsLab.Text.Blank

/-! The parts of a source line: labels, then a head that is a directive or a mnemonic, then
operands, then a comment. Operands are separated by commas or blanks; a quoted literal belongs to
one operand whatever it contains. -/
namespace MipsLab

/-- Labels are a letter or underscore, then letters, digits, underscores and dots. -/
def isIdentifier : List Char → Bool
  | [] => false
  | c :: rest =>
    (c.isAlpha || c = '_') && rest.all fun d => d.isAlphanum || d = '_' || d = '.'

def isQuote (c : Char) : Bool := c = '"' || c = '\x27'

/-- The state of reading through quoted literals: the open quote, and whether a backslash came
just before. -/
structure Quoting where
  opened : Option Char
  escaped : Bool
  deriving DecidableEq

namespace Quoting

def outside : Quoting := ⟨none, false⟩

def next (q : Quoting) (c : Char) : Quoting :=
  match q.opened with
  | none => if isQuote c then ⟨some c, false⟩ else outside
  | some quote =>
    if q.escaped then ⟨some quote, false⟩
    else if c = '\\' then ⟨some quote, true⟩
    else if c = quote then outside
    else ⟨some quote, false⟩

end Quoting

/-- The line up to the first `#` outside quoted literals. -/
def withoutComment : (q : Quoting) → List Char → List Char
  | _, [] => []
  | q, c :: rest =>
    if q.opened.isNone && c = '#' then [] else c :: withoutComment (q.next c) rest

def stripComment (line : List Char) : List Char := withoutComment .outside line

def isLabelChar (c : Char) : Bool := c.isAlphanum || c = '_' || c = '.'

/-- A label with its colon, split off the front of a text. -/
def splitLabel? (text : List Char) : Option (List Char × List Char) :=
  match text.takeWhile isLabelChar, text.dropWhile isLabelChar with
  | c :: label, ':' :: rest => some (c :: label, rest)
  | _, _ => none

theorem length_trimStart_le (text : List Char) : (Text.trimStart text).length ≤ text.length :=
  (List.dropWhile_suffix _).length_le

theorem length_lt_of_splitLabel? {text label rest : List Char}
    (h : splitLabel? text = some (label, rest)) : rest.length < text.length := by
  unfold splitLabel? at h
  split at h
  · rename_i c front tail _ dropped
    cases h
    have := (List.dropWhile_suffix (l := text) isLabelChar).length_le
    rw [dropped] at this
    simp only [List.length_cons] at this
    omega
  · cases h

/-- All labels at the front of a text, and what follows them. -/
def splitLabels (text : List Char) : List (List Char) × List Char :=
  match h : splitLabel? text with
  | none => ([], text)
  | some (label, rest) =>
    have : (Text.trimStart rest).length < text.length :=
      Nat.lt_of_le_of_lt (length_trimStart_le rest) (length_lt_of_splitLabel? h)
    let (labels, body) := splitLabels (Text.trimStart rest)
    (label :: labels, body)
termination_by text.length

def isSeparator (c : Char) : Bool := c = ',' || Text.isBlank c

/-- The tokens of a text. `token` holds the characters of the token being read, last first;
nothing is returned when a quoted literal does not end. -/
def tokensFrom : (q : Quoting) → (token : List Char) → List Char → Option (List (List Char))
  | q, token, [] =>
    if q.opened.isSome then none else some (if token.isEmpty then [] else [token.reverse])
  | q, token, c :: rest =>
    if q.opened.isNone && isSeparator c then
      (tokensFrom .outside [] rest).map fun tokens =>
        if token.isEmpty then tokens else token.reverse :: tokens
    else tokensFrom (q.next c) (c :: token) rest

def tokens? (text : List Char) : Option (List (List Char)) := tokensFrom .outside [] text

structure Statement where
  labels : List String
  head : Option String
  args : List String
  deriving DecidableEq, Inhabited

inductive LexError where
  | badLabel (label : String)
  | malformedString
  deriving DecidableEq

def lex (line : List Char) : Except LexError Statement :=
  let (labels, body) := splitLabels (Text.trim (stripComment line))
  match labels.find? (! isIdentifier ·) with
  | some label => .error (.badLabel (String.ofList label))
  | none =>
    match tokens? body with
    | none => .error .malformedString
    | some tokens =>
      let texts := tokens.map String.ofList
      .ok ⟨labels.map String.ofList, texts.head?, texts.drop 1⟩

/-- The text of an instruction line without labels and comment. -/
def statementText (line : List Char) : List Char :=
  Text.trimEnd (splitLabels (Text.trim (stripComment line))).2

def directiveOf? (line : List Char) : Option (List Char × List Char) :=
  match (splitLabels (Text.trim (stripComment line))).2 with
  | '.' :: rest =>
    let name := ('.' :: rest).takeWhile (! Text.isBlank ·)
    some (name, Text.trim (('.' :: rest).dropWhile (! Text.isBlank ·)))
  | _ => none

/-- Whether a line declares strings, in which nothing is replaced. -/
def isStringLine (line : List Char) : Bool :=
  (Text.dropStart? ".ascii".toList (splitLabels (Text.trimStart line)).2).isSome

end MipsLab
