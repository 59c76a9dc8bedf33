import MipsLab.Text.Numeral

/-! Where a line came from. Diagnostics and breakpoints name lines by tags, and the linked form of
a program carries the tag of a line behind its text. -/
namespace MipsLab

/-- A line of a file, counted from one. -/
structure SourceTag where
  file : String
  line : Nat
  deriving DecidableEq, Inhabited

structure SourceLine where
  text : List Char
  tag : SourceTag
  deriving DecidableEq, Inhabited

namespace SourceTag

def text (tag : SourceTag) : String := "\"" ++ tag.file ++ "\" " ++ toString tag.line

/-- The linked form of a line: its text, two spaces and the tag. -/
def suffix (tag : SourceTag) (line : List Char) : List Char :=
  line ++ "  ".toList ++ tag.text.toList

end SourceTag

namespace SourceLine

/-- The linked form of a line; a blank line carries no tag. -/
def tagged (line : SourceLine) : List Char :=
  if line.text.isEmpty then [] else line.tag.suffix line.text

/-- Takes the linked form of a line apart. The tag is the last thing on the line, so that text in
front of it may contain anything. -/
def ofTagged? (line : List Char) : Option SourceLine := do
  let (head, _, number) ← Text.cutLast (· = ' ') (Text.trimEnd line)
  let count ← Text.unsigned? 64 number
  let quoted ← Text.dropEnd? ['"'] head
  let (front, _, file) ← Text.cutLast (· = '"') quoted
  let text ← Text.dropEnd? [' ', ' '] front
  return ⟨text, ⟨String.ofList file, count⟩⟩

/-- Lines in the linked form, each with a newline behind it. -/
def taggedText (lines : List SourceLine) : String :=
  String.ofList (lines.flatMap fun line => line.tagged ++ ['\n'])

end SourceLine

end MipsLab
