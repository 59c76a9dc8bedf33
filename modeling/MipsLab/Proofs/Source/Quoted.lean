import MipsLab.Proofs.Source.Separators
import MipsLab.Source.Linked

/-! String literals as they are written. Ends of lines, tabs, backslashes and quotes are written with
a backslash, everything else as it is. The literal is read back, no character of it is taken for a
mark of the line, and nothing is replaced on the line that declares it. -/
namespace MipsLab

namespace Literal

/-- How a character is written between double quotes. -/
def escapeChar (c : Char) : List Char :=
  if c = '\n' then ['\\', 'n']
  else if c = '\t' then ['\\', 't']
  else if c = '\r' then ['\\', 'r']
  else if c = '\\' ∨ c = '"' then ['\\', c]
  else [c]

def escape (s : List Char) : List Char := s.flatMap escapeChar

def quoted (s : List Char) : List Char := '"' :: (escape s ++ ['"'])

theorem escapeChar_cases (c : Char) :
    (escapeChar c = [c] ∧ c ≠ '\\' ∧ c ≠ '"' ∧ c ≠ '\n') ∨
      ∃ mark, escapeChar c = ['\\', mark] ∧ unescape? mark = some c ∧ mark ≠ '\n' := by
  unfold escapeChar
  split
  · next newline => exact .inr ⟨'n', rfl, newline ▸ rfl, by decide⟩
  split
  · next tab => exact .inr ⟨'t', rfl, tab ▸ rfl, by decide⟩
  split
  · next carriage => exact .inr ⟨'r', rfl, carriage ▸ rfl, by decide⟩
  split
  · next marked => rcases marked with rfl | rfl <;> exact .inr ⟨_, rfl, rfl, by decide⟩
  · next newline _ _ plain =>
    obtain ⟨backslash, quote⟩ := not_or.mp plain
    exact .inl ⟨rfl, backslash, quote, newline⟩

theorem unescapeAll?_plain {c : Char} (backslash : c ≠ '\\') (quote : c ≠ '"') (rest : List Char) :
    unescapeAll? (c :: rest) = (unescapeAll? rest).map (c :: ·) := by
  cases rest <;> simp [unescapeAll?, backslash, quote]

/-- What was escaped is read back. -/
theorem unescapeAll?_escape (s : List Char) : unescapeAll? (escape s) = some s := by
  induction s with
  | nil => rfl
  | cons c s ih =>
    have whole : escape (c :: s) = escapeChar c ++ escape s := List.flatMap_cons
    rw [whole]
    rcases escapeChar_cases c with ⟨plain, backslash, quote, -⟩ | ⟨mark, escaped, read, -⟩
    · rw [plain, List.singleton_append, unescapeAll?_plain backslash quote, ih]
      rfl
    · rw [escaped, List.cons_append, List.singleton_append, unescapeAll?, read, ih]
      rfl

theorem string?_quoted (s : List Char) : string? (quoted s) = some (String.ofList s) := by
  have opened : Text.dropStart? ['"'] (quoted s) = some (escape s ++ ['"']) :=
    Text.dropStart?_append ['"'] (escape s ++ ['"'])
  rw [string?, opened, Option.bind_eq_bind, Option.bind_some, Text.dropEnd?_append]
  simp [unescapeAll?_escape]

theorem literalBody_escape (s : List Char) : LiteralBody '"' (escape s) := by
  induction s with
  | nil => exact .nil
  | cons c s ih =>
    have whole : escape (c :: s) = escapeChar c ++ escape s := List.flatMap_cons
    rw [whole]
    rcases escapeChar_cases c with ⟨plain, backslash, quote, -⟩ | ⟨mark, escaped, -⟩
    · rw [plain]
      exact .plain quote backslash ih
    · rw [escaped]
      exact .escape ih

theorem newline_notMem_escape (s : List Char) : '\n' ∉ escape s := by
  intro inside
  obtain ⟨c, -, written⟩ := List.mem_flatMap.mp inside
  rcases escapeChar_cases c with ⟨plain, -, -, other⟩ | ⟨mark, escaped, -, other⟩
  · rw [plain] at written
    exact other (List.mem_singleton.mp written).symm
  · rw [escaped] at written
    simp only [List.mem_cons, List.not_mem_nil, or_false] at written
    rcases written with backslash | same
    · exact absurd backslash (by decide)
    · exact other same.symm

theorem operandText_quoted (s : List Char) : OperandText (quoted s) :=
  .literal (by decide) (literalBody_escape s)

end Literal

/-- A labelled line that declares a string with a zero byte behind it. -/
def stringLine (label s : List Char) : List Char :=
  label ++ ": .asciiz ".toList ++ Literal.quoted s

example : stringLine "t".toList "a\t\"b\"".toList =
    "t: .asciiz \"a\\t\\\"b\\\"\"".toList := by decide

section Lines

variable {label : List Char} (s : List Char)

theorem stringLine_eq (label s : List Char) : stringLine label s =
    label ++ ':' :: ([' '] ++ []) ++ ".asciiz".toList ++ ([' '] ++ (Literal.quoted s ++ [])) := by
  have words : ": .asciiz ".toList = ':' :: ' ' :: (".asciiz".toList ++ [' ']) := by decide
  simp [stringLine, words]

theorem stringLine_ends (label s : List Char) : ∃ front, stringLine label s = front ++ ['"'] :=
  ⟨label ++ ": .asciiz ".toList ++ '"' :: Literal.escape s, by simp [stringLine, Literal.quoted]⟩

theorem labelled_front (identifier : isIdentifier label = true) :
    Labelled [label] (label ++ ':' :: ([' '] ++ [])) := by
  have filled : label ≠ [] := by
    rintro rfl
    cases identifier
  exact .cons filled (isLabelChar_of_identifier identifier) (by simp [Text.isBlank]) .nil

theorem separated_quoted : Separated [Literal.quoted s] ([' '] ++ (Literal.quoted s ++ [])) :=
  .cons (by simp) (by simp [isSeparator, Text.isBlank]) (Literal.operandText_quoted s) .nil

theorem asciiz_plain : ∀ c ∈ ".asciiz".toList, isPlain c = true :=
  (by decide : IsToken ".asciiz").plain

theorem asciiz_marked (rest : List Char) :
    ∀ c ∈ (".asciiz".toList ++ rest).head?, Text.isBlank c = false := by
  intro c first
  obtain rfl : '.' = c := Option.some.inj first
  decide

theorem lex_stringLine (identifier : isIdentifier label = true) :
    lex (stringLine label s) =
      .ok ⟨[String.ofList label], some ".asciiz", [String.ofList (Literal.quoted s)]⟩ := by
  have known : ∀ name ∈ [label], isIdentifier name = true := by simpa using identifier
  have idle : ∀ c ∈ ([] : List Char), Text.isBlank c = true := by simp
  have remark : ∀ c ∈ ([] : List Char).head?, c = '#' := by simp
  have read := lex_separated (labelled_front identifier) known (by decide) asciiz_plain
    (separated_quoted s) idle idle remark
  rw [stringLine_eq]
  simpa using read

theorem marked_stringLine (identifier : isIdentifier label = true) :
    ∀ c ∈ (stringLine label s).head?, Text.isBlank c = false := by
  rw [stringLine_eq, List.append_assoc]
  exact (labelled_front identifier).marked (asciiz_marked _)

theorem trim_stringLine (identifier : isIdentifier label = true) :
    Text.trim (stringLine label s) = stringLine label s := by
  obtain ⟨front, ends⟩ := stringLine_ends label s
  rw [Text.trim, Text.trimStart_marked (marked_stringLine s identifier), ends]
  exact Text.trimEnd_append (by decide)

theorem isStringLine_stringLine (identifier : isIdentifier label = true) :
    isStringLine (stringLine label s) = true := by
  let operand := [' '] ++ (Literal.quoted s ++ [])
  have unlabelled : splitLabel? (".asciiz".toList ++ operand) = none :=
    splitLabel?_head asciiz_plain (separated_quoted s).head_separates
  have line : stringLine label s =
      label ++ ':' :: ([' '] ++ []) ++ (".asciiz".toList ++ operand) := by
    rw [stringLine_eq, List.append_assoc]
  have declares : Text.dropStart? ".ascii".toList (".asciiz".toList ++ operand) =
      some ('z' :: operand) := Text.dropStart?_append ".ascii".toList ('z' :: operand)
  rw [isStringLine, Text.trimStart_marked (marked_stringLine s identifier), line,
    (labelled_front identifier).splitLabels_eq (asciiz_marked operand) unlabelled, declares]
  rfl

/-- Nothing is replaced on such a line. -/
theorem processLine_stringLine (eqv : EqvTable) (identifier : isIdentifier label = true) :
    processLine eqv (stringLine label s) = stringLine label s := by
  obtain ⟨front, ends⟩ := stringLine_ends label s
  rw [processLine, if_pos (isStringLine_stringLine s identifier), ends]
  exact Text.trimEnd_append (by decide)

/-- The line is one line of its file, and reaches the assembler as it was written. -/
theorem processText_stringLine (eqv : EqvTable) (file : String)
    (identifier : isIdentifier label = true) :
    processText eqv file (stringLine label s ++ ['\n']) = [⟨stringLine label s, ⟨file, 1⟩⟩] := by
  have clean : ∀ line ∈ [stringLine label s], '\n' ∉ line := by
    intro line member inside
    obtain rfl := List.mem_singleton.mp member
    simp only [stringLine, Literal.quoted, List.mem_append, List.mem_cons, List.not_mem_nil,
      or_false] at inside
    rcases inside with (named | colon) | quote | written | quote
    · exact absurd (isLabelChar_of_identifier identifier _ named) (by decide)
    · exact absurd colon (by decide)
    · exact absurd quote (by decide)
    · exact Literal.newline_notMem_escape s written
    · exact absurd quote (by decide)
  have kept : Text.dropEnd? ['\r'] (stringLine label s) = none := by
    cases dropped : Text.dropEnd? ['\r'] (stringLine label s) with
    | none => rfl
    | some rest =>
      obtain ⟨front, ends⟩ := stringLine_ends label s
      have last := congrArg List.getLast? (ends.symm.trans (Text.eq_append_of_dropEnd? dropped))
      rw [List.getLast?_concat, List.getLast?_concat] at last
      exact absurd last (by decide)
  have cut := Text.lines_flatMap clean
  rw [List.flatMap_singleton, List.map_singleton, kept, Option.getD_none] at cut
  rw [processText, cut]
  simp [processLine_stringLine s eqv identifier]

end Lines

end MipsLab
