import MipsLab.Text.Blank

/-! The table of `.eqv` definitions, and the replacement of whole words by their definitions. -/
namespace MipsLab

def isWordChar (c : Char) : Bool := c.isAlphanum || c = '_'

/-- Whether no word continues from the character before into the text after. -/
def isBoundary (before : Option Char) (after : List Char) : Bool :=
  !(before.any isWordChar) && !(after.head?.any isWordChar)

/-- Replaces a non-empty `name` by `value` from left to right wherever it stands as a whole word.
`before` is the character in front of the text. An occurrence inside a longer word is passed over
as a whole. -/
def replaceWordFrom (name value : List Char) (before : Option Char) : List Char → List Char
  | [] => []
  | c :: rest =>
    if name.isPrefixOf (c :: rest) then
      let after := rest.drop (name.length - 1)
      (if isBoundary before after then value else name) ++
        replaceWordFrom name value name.getLast? after
    else c :: replaceWordFrom name value (some c) rest
termination_by text => text.length
decreasing_by
  · simp only [List.length_drop, List.length_cons]
    omega
  · simp

/-- Puts `value` into every gap between characters that touches no word. -/
def fillGaps (value : List Char) (before : Option Char) : List Char → List Char
  | [] => if isBoundary before [] then value else []
  | c :: rest =>
    (if isBoundary before (c :: rest) then value else []) ++ c :: fillGaps value (some c) rest

/-- Whole-word replacement. The empty name stands in every gap. -/
def replaceWord (name value text : List Char) : List Char :=
  if name.isEmpty then fillGaps value none text else replaceWordFrom name value none text

/-- Names with their replacements, in the order in which the names were first defined. -/
structure EqvTable where
  entries : List (String × String) := []
  deriving DecidableEq, Inhabited

namespace EqvTable

def get? (table : EqvTable) (name : String) : Option String := table.entries.lookup name

/-- Defines a name. A name that is already defined keeps its place and gets the new value; its
old value is returned. -/
def define (table : EqvTable) (name value : String) : Option String × EqvTable :=
  match table.get? name with
  | some previous =>
    (some previous,
      ⟨table.entries.map fun (n, v) => if n = name then (n, value) else (n, v)⟩)
  | none => (none, ⟨table.entries ++ [(name, value)]⟩)

/-- Replaces every name in the text, one after the other in the order of the table. -/
def apply (table : EqvTable) (text : List Char) : List Char :=
  table.entries.foldl (fun text (name, value) => replaceWord name.toList value.toList text) text

/-- Each name as a whole-word pattern, with its replacement. -/
def patterns (table : EqvTable) : List (String × String) :=
  table.entries.map fun (name, value) => ("\\b" ++ name ++ "\\b", value)

end EqvTable

end MipsLab
