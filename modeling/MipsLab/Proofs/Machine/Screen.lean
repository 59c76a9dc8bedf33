import MipsLab.Machine.Terminal
import MipsLab.Proofs.Source.Directive

/-! The terminal as a text. The rows of the grid are shown in their order, each without the blanks
at its end and with a newline behind it. They are the lines of the text, unless a cell holds the
code of a newline and a glyph that can be seen follows in its row. -/
namespace MipsLab

namespace Text

/-- What is left of a text without the blanks at its end. -/
structure Trimmed (text line : List Char) : Prop where
  cut : ∃ blanks, text = line ++ blanks ∧ ∀ c ∈ blanks, isBlank c = true
  ends : ∀ c ∈ line.getLast?, isBlank c = false

/-- Lines with a newline behind each of them. -/
def ended (lines : List (List Char)) : List Char := lines.flatMap (· ++ ['\n'])

theorem trimmed_trimEnd (text : List Char) : Trimmed text (trimEnd text) := by
  obtain ⟨trail, cut, behind, ends⟩ := trimEnd_cases text
  exact ⟨⟨trail, cut, behind⟩, ends⟩

namespace Trimmed

variable {text line : List Char}

theorem eq_trimEnd (trimmed : Trimmed text line) : line = trimEnd text := by
  obtain ⟨⟨blanks, rfl, behind⟩, ends⟩ := trimmed
  have turned : ∀ c ∈ blanks.reverse, isBlank c = true := fun c member =>
    behind c (List.mem_reverse.mp member)
  have marked : trimStart line.reverse = line.reverse :=
    trimStart_marked (by rwa [List.head?_reverse])
  rw [trimEnd, List.reverse_append, List.dropWhile_append_of_pos turned, ← trimStart, marked,
    List.reverse_reverse]

/-- A blank is left just if something that is no blank stands behind it. -/
theorem mem_iff (trimmed : Trimmed text line) {c : Char} (blank : isBlank c = true) :
    c ∈ line ↔ ∃ (i j : Nat) (d : Char),
      i < j ∧ text[i]? = some c ∧ text[j]? = some d ∧ isBlank d = false := by
  obtain ⟨⟨blanks, rfl, behind⟩, ends⟩ := trimmed
  constructor
  · intro member
    obtain ⟨i, inside, found⟩ := List.getElem_of_mem member
    have filled : line ≠ [] := List.ne_nil_of_mem member
    have last : isBlank (line.getLast filled) = false := ends _ (List.getLast?_eq_some_getLast filled)
    have before : i ≠ line.length - 1 := by
      rintro rfl
      rw [List.getLast_eq_getElem, found, blank] at last
      exact absurd last Bool.noConfusion
    refine ⟨i, line.length - 1, line.getLast filled, by omega, ?_, ?_, last⟩
    · rw [List.getElem?_append_left inside, List.getElem?_eq_getElem inside, found]
    · rw [List.getElem?_append_left (by omega), ← List.getLast?_eq_getElem?,
        List.getLast?_eq_some_getLast filled]
  · rintro ⟨i, j, d, before, found, later, mark⟩
    have inside : j < line.length := by
      by_contra outside
      rw [List.getElem?_append_right (not_lt.mp outside)] at later
      rw [behind d (List.mem_of_getElem? later)] at mark
      exact absurd mark Bool.noConfusion
    rw [List.getElem?_append_left (before.trans inside)] at found
    exact List.mem_of_getElem? found

end Trimmed

end Text

namespace Terminal

open MemoryMap (terminalBase terminalColumns terminalRows)

variable {m : Memory}

/-- The address of the character at a place of the grid. -/
def place (row column : Nat) : Word :=
  terminalBase + BitVec.ofNat 32 (2 * (terminalColumns * row + column))

/-- The glyph at a place of the grid, which is a space if nothing has been drawn there. -/
def glyphAt (m : Memory) (row column : Nat) : Char :=
  if m.peek (place row column) = 0 then ' ' else Text.byteChar (m.peek (place row column))

/-- The glyphs of a row, from left to right. -/
def glyphs (m : Memory) (row : Nat) : List Char := (List.range terminalColumns).map (glyphAt m row)

/-- The lines are the rows of the grid without the blanks at their ends. -/
structure ShowsRows (m : Memory) (lines : List (List Char)) : Prop where
  count : lines.length = terminalRows
  rows : ∀ row line, lines[row]? = some line → Text.Trimmed (glyphs m row) line

/-- A text that consists of one line for each row of the grid, ended by a newline. -/
def IsGrid (m : Memory) (text : String) : Prop :=
  ∃ lines, ShowsRows m lines ∧ (∀ line ∈ lines, '\n' ∉ line) ∧ text.toList = Text.ended lines

/-- A newline code with a glyph behind it in its row that can be seen. -/
structure Breaks (m : Memory) (row column : Nat) : Prop where
  newline : m.peek (place row column) = 10
  followed : ∃ later < terminalColumns, column < later ∧
    Text.isBlank (glyphAt m row later) = false

theorem rowGlyphs_eq {row : Nat} (inside : row < terminalRows) : rowGlyphs m row = glyphs m row := by
  have drawn : ∀ column ∈ List.range terminalColumns,
      (cell? m column row).map ScreenCell.glyph = some (glyphAt m row column) := by
    intro column member
    have place : (row * terminalColumns + column) * 2 = 2 * (terminalColumns * row + column) := by
      rw [Nat.mul_comm row, Nat.mul_comm]
    rw [cell?, cellAddress?, if_pos ⟨List.mem_range.mp member, inside⟩, place]
    rfl
  rw [rowGlyphs, List.filterMap_congr drawn, glyphs, ← List.filterMap_eq_map]
  rfl

theorem render_eq (m : Memory) : (render m).toList =
    Text.ended ((List.range terminalRows).map fun row => Text.trimEnd (glyphs m row)) := by
  rw [render, String.toList_ofList, Text.ended, List.flatMap_map]
  refine List.flatMap_congr fun row member => ?_
  rw [rowGlyphs_eq (List.mem_range.mp member)]

theorem showsRows_trimmed (m : Memory) :
    ShowsRows m ((List.range terminalRows).map fun row => Text.trimEnd (glyphs m row)) := by
  refine ⟨by simp, fun row line found => ?_⟩
  rw [List.getElem?_map, Option.map_eq_some_iff] at found
  obtain ⟨i, found, rfl⟩ := found
  obtain rfl : row = i := by
    obtain ⟨inside, same⟩ := List.getElem?_eq_some_iff.mp found
    simpa using same
  exact Text.trimmed_trimEnd _

/-- The rows determine the lines that show them. -/
theorem ShowsRows.eq {lines : List (List Char)} (shows : ShowsRows m lines) :
    lines = (List.range terminalRows).map fun row => Text.trimEnd (glyphs m row) := by
  apply List.ext_getElem
  · simp [shows.count]
  · intro row inside _
    have line := shows.rows row lines[row] (List.getElem?_eq_getElem inside)
    simpa using line.eq_trimEnd

theorem glyphAt_newline {row column : Nat} :
    glyphAt m row column = '\n' ↔ m.peek (place row column) = 10 := by
  have codes : ∀ b : Byte, (if b = 0 then ' ' else Text.byteChar b) = '\n' ↔ b = 10 := by
    decide +kernel
  exact codes _

theorem getElem?_glyphs {row column : Nat} {c : Char} : (glyphs m row)[column]? = some c ↔
    column < terminalColumns ∧ glyphAt m row column = c := by
  rw [glyphs, List.getElem?_map, Option.map_eq_some_iff]
  constructor
  · rintro ⟨i, found, rfl⟩
    obtain ⟨inside, rfl⟩ := List.getElem?_eq_some_iff.mp found
    simpa using inside
  · rintro ⟨inside, rfl⟩
    exact ⟨column, List.getElem?_range inside, rfl⟩

/-- A line that shows a row holds a newline just where the row is broken. -/
theorem newline_mem_iff (m : Memory) (row : Nat) :
    '\n' ∈ Text.trimEnd (glyphs m row) ↔ ∃ column, Breaks m row column := by
  rw [(Text.trimmed_trimEnd _).mem_iff (by decide)]
  simp only [getElem?_glyphs, glyphAt_newline]
  constructor
  · rintro ⟨column, later, d, before, ⟨-, newline⟩, ⟨inside, rfl⟩, mark⟩
    exact ⟨column, newline, later, inside, before, mark⟩
  · rintro ⟨column, newline, later, inside, before, mark⟩
    exact ⟨column, later, _, before, ⟨before.trans inside, newline⟩, ⟨inside, rfl⟩, mark⟩

theorem isGrid_render_iff (m : Memory) :
    IsGrid m (render m) ↔ ∀ row < terminalRows, ∀ column, ¬ Breaks m row column := by
  constructor
  · rintro ⟨lines, shows, whole, -⟩ row inside column breaks
    have line : Text.trimEnd (glyphs m row) ∈ lines := by
      rw [shows.eq]
      exact List.mem_map_of_mem (List.mem_range.mpr inside)
    exact whole _ line ((newline_mem_iff m row).mpr ⟨column, breaks⟩)
  · intro unbroken
    refine ⟨_, showsRows_trimmed m, fun line member => ?_, render_eq m⟩
    obtain ⟨row, inside, rfl⟩ := List.mem_map.mp member
    rw [newline_mem_iff]
    rintro ⟨column, breaks⟩
    exact unbroken row (List.mem_range.mp inside) column breaks

/-- Whatever lies in memory, the text is made of the rows of the grid in their order, each without
the blanks at its end and with a newline behind it; and these are its lines exactly if no cell of a
row holds the newline code in front of a glyph that can be seen. -/
theorem render_grid (m : Memory) :
    (∃ lines, ShowsRows m lines ∧ (render m).toList = Text.ended lines) ∧
      (IsGrid m (render m) ↔ ∀ row < terminalRows, ∀ column, ¬ Breaks m row column) :=
  ⟨⟨_, showsRows_trimmed m, render_eq m⟩, isGrid_render_iff m⟩

/-- A newline and a letter, drawn in the first two cells. -/
def brokenScreen : Memory := ((Memory.empty false).poke 0xFFFF0000 10).poke 0xFFFF0002 65

theorem render_brokenScreen : ¬ IsGrid brokenScreen (render brokenScreen) := by
  have newline : brokenScreen.peek (place 0 0) = 10 := by decide +kernel
  have letter : Text.isBlank (glyphAt brokenScreen 0 1) = false := by decide +kernel
  rw [isGrid_render_iff]
  intro unbroken
  exact unbroken 0 (by decide) 0 ⟨newline, 1, by decide, by decide, letter⟩

end Terminal

end MipsLab
