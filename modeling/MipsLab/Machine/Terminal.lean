import MipsLab.Machine.Memory
import MipsLab.Text.Blank

/-! The terminal: a grid of cells in memory, row by row. A cell is a character and a color; the
high half of the color is the background, the low half the foreground. -/
namespace MipsLab.Terminal

open MemoryMap (terminalBase terminalColumns terminalRows)

def palette : List (String × List Nat) :=
  [("black", [0, 0, 0]), ("darkRed", [128, 0, 0]), ("darkGreen", [0, 128, 0]),
   ("darkYellow", [192, 119, 0]), ("darkBlue", [0, 0, 128]), ("darkMagenta", [128, 0, 128]),
   ("darkCyan", [0, 128, 128]), ("gray", [160, 160, 164]), ("darkGray", [128, 128, 128]),
   ("red", [255, 0, 0]), ("green", [0, 255, 0]), ("yellow", [255, 255, 0]),
   ("blue", [0, 0, 255]), ("magenta", [255, 0, 255]), ("cyan", [0, 255, 255]),
   ("white", [255, 255, 255])]

structure ScreenCell where
  char : Byte
  color : Byte
  deriving DecidableEq

namespace ScreenCell

/-- The character drawn; code zero draws a space. -/
def glyph (c : ScreenCell) : Char := if c.char = 0 then ' ' else Text.byteChar c.char

def background (c : ScreenCell) : Nat := c.color.toNat / 16

def foreground (c : ScreenCell) : Nat := c.color.toNat % 16

end ScreenCell

def cellAddress? (column row : Nat) : Option Word :=
  if column < terminalColumns ∧ row < terminalRows then
    some (terminalBase + BitVec.ofNat 32 ((row * terminalColumns + column) * 2))
  else none

def cell? (m : Memory) (column row : Nat) : Option ScreenCell :=
  (cellAddress? column row).map fun a => ⟨m.peek a, m.peek (a + 1)⟩

def rowGlyphs (m : Memory) (row : Nat) : List Char :=
  (List.range terminalColumns).filterMap fun column => (cell? m column row).map ScreenCell.glyph

/-- The grid as text: every row without the blanks at its end, with a newline behind it. -/
def render (m : Memory) : String :=
  String.ofList ((List.range terminalRows).flatMap fun row =>
    Text.trimEnd (rowGlyphs m row) ++ ['\n'])

end MipsLab.Terminal
