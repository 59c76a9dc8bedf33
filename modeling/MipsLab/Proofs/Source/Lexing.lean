import MipsLab.Isa.Disassembly
import MipsLab.Proofs.Source.Directive

/-! Reading back a line that was written from a head and operands. Nothing of the line is taken for
a label, a quoted literal or a comment, if the characters of the head and the operands are plain. -/
namespace MipsLab

/-- A character that belongs to a token wherever it stands. -/
def isPlain (c : Char) : Bool := !(isSeparator c || isQuote c || c = '#' || c = ':')

structure IsToken (token : String) : Prop where
  filled : token.toList ≠ []
  plain : ∀ c ∈ token.toList, isPlain c = true

instance (token : String) : Decidable (IsToken token) :=
  decidable_of_iff (token.toList ≠ [] ∧ token.toList.all isPlain = true)
    ⟨fun both => ⟨both.1, List.all_eq_true.mp both.2⟩,
      fun token => ⟨token.filled, List.all_eq_true.mpr token.plain⟩⟩

section Characters

variable {c : Char}

theorem isSeparator_of_isPlain (plain : isPlain c = true) : isSeparator c = false := by
  simp_all [isPlain]

theorem isBlank_of_isPlain (plain : isPlain c = true) : Text.isBlank c = false := by
  simp_all [isPlain, isSeparator]

/-- What a line of plain tokens holds: no quote, no colon, and nothing that begins a comment. -/
def isCode (c : Char) : Bool := !(isQuote c || c = '#' || c = ':')

theorem isCode_of_isPlain (plain : isPlain c = true) : isCode c = true := by
  simp_all [isPlain, isCode]

end Characters

theorem stripComment_code {line : List Char} (code : ∀ c ∈ line, isCode c = true) :
    stripComment line = line := by
  have clean : ∀ c ∈ line, isQuote c = false ∧ c ≠ '#' := by
    intro c member
    have inside := code c member
    simp_all [isCode]
  simpa [stripComment, withoutComment] using withoutComment_unmarked clean []

theorem splitLabels_code {line : List Char} (code : ∀ c ∈ line, isCode c = true) :
    splitLabels line = ([], line) := by
  refine splitLabels_none ?_
  cases found : splitLabel? line with
  | none => rfl
  | some both =>
    obtain ⟨rfl, -, -⟩ := splitLabel?_some found
    exact absurd (code ':' (by simp)) (by decide)

section Tokens

variable {token : String} {c : Char}

theorem tokensFrom_unquoted {part : List Char}
    (joined : ∀ c ∈ part, isSeparator c = false ∧ isQuote c = false) (read rest : List Char) :
    tokensFrom .outside read (part ++ rest) =
      tokensFrom .outside (part.reverse ++ read) rest := by
  induction part generalizing read with
  | nil => rfl
  | cons c part ih =>
    obtain ⟨⟨inside, bare⟩, later⟩ := List.forall_mem_cons.mp joined
    have stays : Quoting.outside.next c = .outside := by
      simp [Quoting.next, Quoting.outside, bare]
    rw [List.cons_append, tokensFrom, inside, Bool.and_false, if_neg Bool.false_ne_true, stays,
      ih later]
    simp

/-- Plain characters are put to the token that is being read. -/
theorem tokensFrom_plain {front : List Char} (plain : ∀ c ∈ front, isPlain c = true)
    (read rest : List Char) :
    tokensFrom .outside read (front ++ rest) =
      tokensFrom .outside (front.reverse ++ read) rest := by
  refine tokensFrom_unquoted (fun c member => ?_) read rest
  have inside := plain c member
  exact ⟨isSeparator_of_isPlain inside, by simp_all [isPlain]⟩

theorem tokens?_last (isToken : IsToken token) : tokens? token.toList = some [token.toList] := by
  have read := tokensFrom_plain isToken.plain [] []
  rw [List.append_nil, List.append_nil] at read
  rw [tokens?, read, tokensFrom]
  simp [Quoting.outside, isToken.filled]

theorem tokens?_next (isToken : IsToken token) (separates : isSeparator c = true)
    (rest : List Char) :
    tokens? (token.toList ++ c :: rest) = (tokens? rest).map (token.toList :: ·) := by
  rw [tokens?, tokensFrom_plain isToken.plain, List.append_nil, tokensFrom]
  simp [Quoting.outside, separates, isToken.filled, tokens?]

theorem tokens?_separator (separates : isSeparator c = true) (rest : List Char) :
    tokens? (c :: rest) = tokens? rest := by
  rw [tokens?, tokensFrom]
  simp [Quoting.outside, separates, tokens?]

theorem tokens?_intercalate {tokens : List String} (all : ∀ token ∈ tokens, IsToken token) :
    tokens? (", ".intercalate tokens).toList = some (tokens.map String.toList) := by
  rw [String.toList_intercalate]
  induction tokens with
  | nil => rfl
  | cons token others ih =>
    obtain ⟨here, later⟩ := List.forall_mem_cons.mp all
    cases others with
    | nil => simpa using tokens?_last here
    | cons second rest =>
      have comma := tokens?_next (c := ',') here (by decide)
      have blank := tokens?_separator (c := ' ') (by decide)
      have separator : ", ".toList = [',', ' '] := by decide
      rw [separator] at ih ⊢
      rw [List.map_cons, List.map_cons, List.intercalate_cons_cons, List.append_assoc]
      simp only [List.cons_append, List.nil_append]
      rw [comma, blank, ← List.map_cons, ih later]
      rfl

end Tokens

/-- A text that holds nothing but code and ends in no blank. -/
structure IsWritten (text : List Char) : Prop where
  code : ∀ c ∈ text, isCode c = true
  ends : ∀ c ∈ text.getLast?, Text.isBlank c = false

theorem IsToken.isWritten {token : String} (isToken : IsToken token) :
    IsWritten token.toList where
  code := fun c member => isCode_of_isPlain (isToken.plain c member)
  ends := fun c last => isBlank_of_isPlain (isToken.plain c (List.mem_of_getLast? last))

theorem IsWritten.append {front back : List Char} (code : ∀ c ∈ front, isCode c = true)
    (filled : back ≠ []) (written : IsWritten back) : IsWritten (front ++ back) where
  code := fun c member => (List.mem_append.mp member).elim (code c) (written.code c)
  ends := by
    rw [List.getLast?_append_of_ne_nil _ filled]
    exact written.ends

theorem isWritten_intercalate {tokens : List String} (all : ∀ token ∈ tokens, IsToken token)
    (filled : tokens ≠ []) : (", ".intercalate tokens).toList ≠ [] ∧
      IsWritten (", ".intercalate tokens).toList := by
  rw [String.toList_intercalate]
  induction tokens with
  | nil => exact absurd rfl filled
  | cons token others ih =>
    obtain ⟨here, later⟩ := List.forall_mem_cons.mp all
    cases others with
    | nil =>
      rw [List.map_singleton, List.intercalate_singleton]
      exact ⟨here.filled, here.isWritten⟩
    | cons second rest =>
      obtain ⟨more, written⟩ := ih later (List.cons_ne_nil _ _)
      rw [List.map_cons, List.map_cons, List.intercalate_cons_cons, ← List.map_cons]
      refine ⟨by simp, .append (fun c member => ?_) more written⟩
      have separator : ∀ c ∈ ", ".toList, isCode c = true := by simp [isCode, isQuote]
      exact (List.mem_append.mp member).elim (here.isWritten.code c) (separator c)

theorem trim_written {text : List Char} (first : ∀ c ∈ text.head?, Text.isBlank c = false)
    (written : IsWritten text) : Text.trim text = text := by
  have last : ∀ c ∈ text.reverse.head?, Text.isBlank c = false := by
    rw [List.head?_reverse]
    exact written.ends
  have kept := Text.trimStart_marked last
  rw [Text.trim, Text.trimStart_marked first, Text.trimEnd]
  exact (congrArg List.reverse kept).trans text.reverse_reverse

theorem lex_written {text : List Char} {tokens : List (List Char)}
    (first : ∀ c ∈ text.head?, Text.isBlank c = false) (written : IsWritten text)
    (cut : tokens? text = some tokens) :
    lex text = .ok ⟨[], (tokens.map String.ofList).head?, (tokens.map String.ofList).drop 1⟩ := by
  rw [lex, stripComment_code written.code, trim_written first written,
    splitLabels_code written.code]
  simp [cut]

/-- A line that is written from a head and operands is read as that head and these operands. -/
theorem lex_line {head : String} {operands : List String} (isToken : IsToken head)
    (all : ∀ token ∈ operands, IsToken token) :
    lex (Instruction.line head operands).toList = .ok ⟨[], some head, operands⟩ := by
  have first (rest : List Char) : ∀ c ∈ (head.toList ++ rest).head?, Text.isBlank c = false := by
    intro c found
    rw [List.head?_append_of_ne_nil _ isToken.filled] at found
    exact isBlank_of_isPlain (isToken.plain c (List.mem_of_mem_head? found))
  cases operands with
  | nil =>
    have start := first []
    rw [List.append_nil] at start
    have read := lex_written start isToken.isWritten (tokens?_last isToken)
    simpa [Instruction.line] using read
  | cons token others =>
    have text : (Instruction.line head (token :: others)).toList =
        head.toList ++ ' ' :: (", ".intercalate (token :: others)).toList := by
      simp [Instruction.line]
    have cut := tokens?_next (c := ' ') isToken (by decide)
      (", ".intercalate (token :: others)).toList
    rw [tokens?_intercalate all] at cut
    obtain ⟨filled, written⟩ := isWritten_intercalate all (List.cons_ne_nil _ _)
    have whole : IsWritten (head.toList ++ ' ' :: (", ".intercalate (token :: others)).toList) := by
      rw [← List.singleton_append, ← List.append_assoc]
      refine .append (fun c member => ?_) filled written
      have blank : ∀ c ∈ [' '], isCode c = true := by simp [isCode, isQuote]
      exact (List.mem_append.mp member).elim (isToken.isWritten.code c) (blank c)
    have read := lex_written (first _) whole cut
    rw [text, read]
    simp [Function.comp_def]

end MipsLab
