/-! Segments and directives: where assembled units go, and which lines direct the assembler. -/
namespace MipsLab

inductive Segment where
  | text | data
  deriving DecidableEq, Inhabited

def Segment.name : Segment → String
  | .text => "text"
  | .data => "data"

inductive DataKind where
  | word | byte | half | float | double | ascii | asciiz | space
  deriving DecidableEq, Inhabited

/-- Bytes of one element, which is also the alignment it needs. -/
def DataKind.align : DataKind → Nat
  | .word | .float => 4
  | .half => 2
  | .double => 8
  | .byte | .ascii | .asciiz | .space => 1

inductive Directive where
  | enter (segment : Segment)
  | emit (kind : DataKind)
  | align
  | eqv
  | includeFile
  | globl
  deriving DecidableEq, Inhabited

namespace Directive

def table : List (String × Directive) :=
  [(".text", enter .text), (".data", enter .data), (".word", emit .word), (".byte", emit .byte),
   (".half", emit .half), (".float", emit .float), (".double", emit .double),
   (".ascii", emit .ascii), (".asciiz", emit .asciiz), (".space", emit .space),
   (".align", align), (".eqv", eqv), (".include", includeFile), (".globl", globl),
   (".global", globl)]

def ofName? (name : String) : Option Directive := table.lookup name

end Directive

end MipsLab
