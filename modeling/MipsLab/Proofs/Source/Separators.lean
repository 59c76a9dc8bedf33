import MipsLab.Proofs.Source.Labels

/-! Lines in whatever way they are written. Blanks around a line, the blanks behind its labels,
the separators in front of its operands and its comment make no difference to what is read from it;
a quoted literal is one operand, with separators, comment marks and colons in it. -/
namespace MipsLab

/-- What may stand between two quotes: a backslash goes together with the character behind it. -/
inductive LiteralBody (quote : Char) : List Char → Prop where
  | nil : LiteralBody quote []
  | plain {c : Char} {body : List Char} (inside : c ≠ quote) (unescaped : c ≠ '\\')
      (rest : LiteralBody quote body) : LiteralBody quote (c :: body)
  | escape {c : Char} {body : List Char} (rest : LiteralBody quote body) :
      LiteralBody quote ('\\' :: c :: body)

/-- The text of one operand: a run without separators, quotes and comment marks, or one literal. -/
inductive OperandText : List Char → Prop where
  | run {token : List Char} (filled : token ≠ [])
      (bare : ∀ c ∈ token, isSeparator c = false ∧ isQuote c = false ∧ c ≠ '#') : OperandText token
  | literal {quote : Char} {body : List Char} (mark : isQuote quote = true)
      (inside : LiteralBody quote body) : OperandText (quote :: (body ++ [quote]))

/-- Operands, and a text in which they are written with separators in front of each. -/
inductive Separated : List (List Char) → List Char → Prop where
  | nil : Separated [] []
  | cons {gap token text : List Char} {tokens : List (List Char)} (apart : gap ≠ [])
      (separators : ∀ c ∈ gap, isSeparator c = true) (operand : OperandText token)
      (others : Separated tokens text) : Separated (token :: tokens) (gap ++ (token ++ text))

section Literals

variable {quote : Char} {body rest : List Char}

theorem next_opened {c : Char} (inside : c ≠ quote) (unescaped : c ≠ '\\') :
    Quoting.next ⟨some quote, false⟩ c = ⟨some quote, false⟩ := by
  simp [Quoting.next, inside, unescaped]

theorem next_quote (mark : isQuote quote = true) :
    Quoting.outside.next quote = ⟨some quote, false⟩ := by
  simp [Quoting.next, Quoting.outside, mark]

theorem next_closed (mark : isQuote quote = true) :
    Quoting.next ⟨some quote, false⟩ quote = .outside := by
  have unescaped : quote ≠ '\\' := fun same => absurd (same ▸ mark) (by decide)
  simp [Quoting.next, Quoting.outside, unescaped]

theorem next_escape : Quoting.next ⟨some quote, false⟩ '\\' = ⟨some quote, true⟩ := by
  simp [Quoting.next]

theorem next_escaped (c : Char) : Quoting.next ⟨some quote, true⟩ c = ⟨some quote, false⟩ := by
  simp [Quoting.next]

theorem withoutComment_opened {escaped : Bool} (c : Char) : withoutComment ⟨some quote, escaped⟩
    (c :: rest) = c :: withoutComment (Quoting.next ⟨some quote, escaped⟩ c) rest := by
  simp [withoutComment]

theorem LiteralBody.withoutComment_eq (inside : LiteralBody quote body) :
    withoutComment ⟨some quote, false⟩ (body ++ rest) =
      body ++ withoutComment ⟨some quote, false⟩ rest := by
  induction inside with
  | nil => rfl
  | plain inside unescaped _ ih =>
    rw [List.cons_append, withoutComment_opened, next_opened inside unescaped, ih, List.cons_append]
  | escape _ ih =>
    rw [List.cons_append, List.cons_append, withoutComment_opened, next_escape,
      withoutComment_opened, next_escaped, ih, List.cons_append, List.cons_append]

theorem tokensFrom_opened {escaped : Bool} (c : Char) (read : List Char) :
    tokensFrom ⟨some quote, escaped⟩ read (c :: rest) =
      tokensFrom (Quoting.next ⟨some quote, escaped⟩ c) (c :: read) rest := by
  simp [tokensFrom]

theorem LiteralBody.tokensFrom_eq (inside : LiteralBody quote body) (read : List Char) :
    tokensFrom ⟨some quote, false⟩ read (body ++ rest) =
      tokensFrom ⟨some quote, false⟩ (body.reverse ++ read) rest := by
  induction inside generalizing read with
  | nil => rfl
  | plain inside unescaped _ ih =>
    rw [List.cons_append, tokensFrom_opened, next_opened inside unescaped, ih]
    simp
  | escape _ ih =>
    rw [List.cons_append, List.cons_append, tokensFrom_opened, next_escape, tokensFrom_opened,
      next_escaped, ih]
    simp

end Literals

namespace OperandText

variable {token : List Char}

theorem filled (operand : OperandText token) : token ≠ [] := by
  cases operand with
  | run filled bare => exact filled
  | literal mark inside => exact List.cons_ne_nil _ _

/-- No comment begins in an operand, nor behind it in a literal that it has left open. -/
theorem withoutComment_eq (operand : OperandText token) (rest : List Char) :
    withoutComment .outside (token ++ rest) = token ++ withoutComment .outside rest := by
  cases operand with
  | run filled bare => exact withoutComment_unmarked (fun c member => (bare c member).2) rest
  | @literal quote body mark inside =>
    have code : quote ≠ '#' := fun same => absurd (same ▸ mark) (by decide)
    rw [List.cons_append, List.append_assoc, withoutComment, if_neg (by simp [code]),
      next_quote mark, inside.withoutComment_eq, List.singleton_append, withoutComment_opened,
      next_closed mark]
    simp

theorem tokensFrom_eq (operand : OperandText token) (read rest : List Char) :
    tokensFrom .outside read (token ++ rest) =
      tokensFrom .outside (token.reverse ++ read) rest := by
  cases operand with
  | run filled bare =>
    exact tokensFrom_unquoted (fun c member => ⟨(bare c member).1, (bare c member).2.1⟩) read rest
  | @literal quote body mark inside =>
    have joined : isSeparator quote = false := by
      simp only [isQuote, Bool.or_eq_true, decide_eq_true_eq] at mark
      rcases mark with rfl | rfl <;> decide
    rw [List.cons_append, List.append_assoc, tokensFrom, joined, Bool.and_false,
      if_neg Bool.false_ne_true, next_quote mark, inside.tokensFrom_eq, List.singleton_append,
      tokensFrom_opened, next_closed mark]
    simp

theorem ends (operand : OperandText token) : ∀ c ∈ token.getLast?, Text.isBlank c = false := by
  intro c last
  cases operand with
  | run filled bare =>
    have joined := (bare c (List.mem_of_getLast? last)).1
    simp_all [isSeparator]
  | @literal quote body mark inside =>
    rw [← List.cons_append, List.getLast?_concat, Option.mem_some_iff] at last
    subst last
    simp only [isQuote, Bool.or_eq_true, decide_eq_true_eq] at mark
    rcases mark with rfl | rfl <;> decide

end OperandText

theorem isQuote_of_isSeparator {c : Char} (separates : isSeparator c = true) :
    isQuote c = false ∧ c ≠ '#' := by
  refine ⟨?_, fun same => absurd (same ▸ separates) (by decide)⟩
  rw [isQuote, Bool.or_eq_false_iff, decide_eq_false_iff_not, decide_eq_false_iff_not]
  exact ⟨fun same => absurd (same ▸ separates) (by decide),
    fun same => absurd (same ▸ separates) (by decide)⟩

theorem tokens?_separators {gap : List Char} (separators : ∀ c ∈ gap, isSeparator c = true)
    (rest : List Char) : tokens? (gap ++ rest) = tokens? rest := by
  induction gap with
  | nil => rfl
  | cons c gap ih =>
    obtain ⟨here, later⟩ := List.forall_mem_cons.mp separators
    rw [List.cons_append, tokens?_separator here, ih later]

theorem tokensFrom_separator {c : Char} (separates : isSeparator c = true) {read : List Char}
    (started : read ≠ []) (rest : List Char) :
    tokensFrom .outside read (c :: rest) = (tokens? rest).map (read.reverse :: ·) := by
  simp [tokensFrom, Quoting.outside, separates, started, tokens?]

namespace Separated

variable {tokens : List (List Char)} {text : List Char}

theorem withoutComment_eq (separated : Separated tokens text) (rest : List Char) :
    withoutComment .outside (text ++ rest) = text ++ withoutComment .outside rest := by
  induction separated with
  | nil => rfl
  | cons apart separators operand _ ih =>
    rw [List.append_assoc, List.append_assoc,
      withoutComment_unmarked fun c member => isQuote_of_isSeparator (separators c member),
      operand.withoutComment_eq, ih, List.append_assoc, List.append_assoc]

/-- The token in front of the first separators is finished by them. -/
theorem tokensFrom_eq (separated : Separated tokens text) {read : List Char}
    (started : read ≠ []) : tokensFrom .outside read text = some (read.reverse :: tokens) := by
  induction separated generalizing read with
  | nil => simp [tokensFrom, Quoting.outside, started]
  | @cons gap token text tokens apart separators operand _ ih =>
    obtain ⟨c, gap, rfl⟩ := List.exists_cons_of_ne_nil apart
    obtain ⟨first, others⟩ := List.forall_mem_cons.mp separators
    have next : tokens? (token ++ text) = some (token :: tokens) := by
      have filled : token.reverse ++ [] ≠ [] := by simpa using operand.filled
      rw [tokens?, operand.tokensFrom_eq, ih filled]
      simp
    rw [List.cons_append, tokensFrom_separator first started, tokens?_separators others, next]
    rfl

theorem ends (separated : Separated tokens text) {front : List Char}
    (last : ∀ c ∈ front.getLast?, Text.isBlank c = false) :
    ∀ c ∈ (front ++ text).getLast?, Text.isBlank c = false := by
  induction separated generalizing front with
  | nil => simpa using last
  | @cons gap token text tokens apart separators operand _ ih =>
    have regrouped : front ++ (gap ++ (token ++ text)) = front ++ (gap ++ token) ++ text := by simp
    rw [regrouped]
    apply ih
    rw [← List.append_assoc, List.getLast?_append_of_ne_nil _ operand.filled]
    exact operand.ends

end Separated

theorem mem_head?_of_starts {part text : List Char} (start : part <+: text) :
    ∀ c ∈ part.head?, c ∈ text.head? := by
  intro c first
  obtain ⟨more, rfl⟩ := start
  rw [List.head?_append, first]
  rfl

namespace Text

/-- Behind the last mark of a text only blanks are trimmed. -/
theorem trim_marked {lead text : List Char} (before : ∀ c ∈ lead, isBlank c = true)
    (filled : text ≠ []) (starts : ∀ c ∈ text.head?, isBlank c = false)
    (ends : ∀ c ∈ text.getLast?, isBlank c = false) (rest : List Char) :
    trim (lead ++ (text ++ rest)) = text ++ trimEnd rest := by
  have first : ∀ c ∈ (text ++ rest).head?, isBlank c = false := by
    rwa [List.head?_append_of_ne_nil _ filled]
  obtain ⟨front, c, rfl⟩ : ∃ front c, text = front ++ [c] :=
    ⟨_, _, (List.dropLast_concat_getLast filled).symm⟩
  have last : isBlank c = false := ends c (by simp)
  rw [trim, trimStart_blanks before, trimStart_marked first, List.append_assoc,
    List.singleton_append, trimEnd_mark last, List.append_assoc, List.singleton_append]

theorem trim_padded {lead text trail : List Char} (before : ∀ c ∈ lead, isBlank c = true)
    (behind : ∀ c ∈ trail, isBlank c = true) (filled : text ≠ [])
    (starts : ∀ c ∈ text.head?, isBlank c = false)
    (ends : ∀ c ∈ text.getLast?, isBlank c = false) : trim (lead ++ (text ++ trail)) = text := by
  have idle : trimEnd trail = [] := by
    rw [trimEnd, List.reverse_eq_nil_iff, List.dropWhile_eq_nil_iff]
    exact fun c member => behind c (List.mem_reverse.mp member)
  rw [trim_marked before filled starts ends, idle, List.append_nil]

end Text

theorem splitLabel?_separator {c : Char} (separates : isSeparator c = true) (rest : List Char) :
    splitLabel? (c :: rest) = none := by
  cases found : splitLabel? (c :: rest) with
  | none => rfl
  | some both =>
    obtain ⟨split, filled, all⟩ := splitLabel?_some found
    obtain ⟨d, label, same⟩ := List.exists_cons_of_ne_nil filled
    rw [same] at split all
    obtain ⟨rfl, -⟩ := List.cons.inj split
    have joined := isSeparator_of_isPlain (isPlain_of_isLabelChar (all c List.mem_cons_self))
    exact absurd separates (by simp [joined])

/-- A head is no label, whatever is written behind it. -/
theorem splitLabel?_head {head tail : List Char} (plain : ∀ c ∈ head, isPlain c = true)
    (apart : ∀ c ∈ tail.head?, isSeparator c = true) : splitLabel? (head ++ tail) = none := by
  cases found : splitLabel? (head ++ tail) with
  | none => rfl
  | some both =>
    obtain ⟨label, rest⟩ := both
    obtain ⟨split, -, all⟩ := splitLabel?_some found
    have colon : isSeparator ':' = false := by decide
    rcases List.append_eq_append_iff.mp split with ⟨more, rfl, rfl⟩ | ⟨more, rfl, behind⟩
    · cases more with
      | nil => exact absurd (apart ':' rfl) (by simp [colon])
      | cons c more =>
        have joined := isSeparator_of_isPlain (isPlain_of_isLabelChar (all c (by simp)))
        exact absurd (apart c rfl) (by simp [joined])
    · cases more with
      | nil =>
        rw [List.nil_append] at behind
        subst behind
        exact absurd (apart ':' rfl) (by simp [colon])
      | cons c more =>
        obtain ⟨rfl, -⟩ := List.cons.inj behind
        exact absurd (plain ':' (by simp)) (by decide)

theorem Separated.head_separates {tokens : List (List Char)} {text : List Char}
    (separated : Separated tokens text) : ∀ c ∈ text.head?, isSeparator c = true := by
  cases separated with
  | nil => exact fun c first => absurd first (by simp)
  | cons apart separators operand others =>
    intro c first
    rw [List.head?_append_of_ne_nil _ apart] at first
    exact separators c (List.mem_of_mem_head? first)

theorem withoutComment_remark {remark : List Char} (comment : ∀ c ∈ remark.head?, c = '#') :
    withoutComment .outside remark = [] := by
  cases remark with
  | nil => rfl
  | cons c words => simp [withoutComment, Quoting.outside, comment c rfl]

section Lines

variable {labels tokens : List (List Char)} {lead front head text trail remark : List Char}

theorem stripComment_separated (labelled : Labelled labels front)
    (plain : ∀ c ∈ head, isPlain c = true) (separated : Separated tokens text)
    (before : ∀ c ∈ lead, Text.isBlank c = true) (behind : ∀ c ∈ trail, Text.isBlank c = true)
    (comment : ∀ c ∈ remark.head?, c = '#') :
    stripComment (lead ++ front ++ head ++ text ++ trail ++ remark) =
      lead ++ (front ++ (head ++ text) ++ trail) := by
  have idle {blanks : List Char} (all : ∀ c ∈ blanks, Text.isBlank c = true) :
      ∀ c ∈ blanks, isFrontChar c = true := fun c member => by simp [isFrontChar, all c member]
  have unmarked : ∀ c ∈ head, isQuote c = false ∧ c ≠ '#' := fun c member => by
    have inside := plain c member
    simp_all [isPlain]
  simp only [List.append_assoc, stripComment]
  rw [withoutComment_front (idle before), withoutComment_front labelled.clean,
    withoutComment_unmarked unmarked, separated.withoutComment_eq,
    withoutComment_front (idle behind), withoutComment_remark comment, List.append_nil]

theorem tokens?_separated (filled : head ≠ []) (plain : ∀ c ∈ head, isPlain c = true)
    (separated : Separated tokens text) : tokens? (head ++ text) = some (head :: tokens) := by
  rw [tokens?, tokensFrom_plain plain, separated.tokensFrom_eq (by simpa using filled)]
  simp

/-- A line is read as its labels, its head and its operands, in whatever way it is written: with
any blanks around it and behind the labels, any separators in front of each operand, and any
comment. Letters, digits, dots and underscores are plain. -/
theorem lex_separated (labelled : Labelled labels front)
    (identifiers : ∀ label ∈ labels, isIdentifier label = true) (filled : head ≠ [])
    (plain : ∀ c ∈ head, isPlain c = true) (separated : Separated tokens text)
    (before : ∀ c ∈ lead, Text.isBlank c = true) (behind : ∀ c ∈ trail, Text.isBlank c = true)
    (comment : ∀ c ∈ remark.head?, c = '#') :
    lex (lead ++ front ++ head ++ text ++ trail ++ remark) =
      .ok ⟨labels.map String.ofList, some (String.ofList head), tokens.map String.ofList⟩ := by
  have starts : ∀ c ∈ (head ++ text).head?, Text.isBlank c = false := by
    intro c first
    rw [List.head?_append_of_ne_nil _ filled] at first
    exact isBlank_of_isPlain (plain c (List.mem_of_mem_head? first))
  have last : ∀ c ∈ (front ++ head).getLast?, Text.isBlank c = false := by
    intro c last
    rw [List.getLast?_append_of_ne_nil _ filled] at last
    exact isBlank_of_isPlain (plain c (List.mem_of_getLast? last))
  have ends := separated.ends last
  rw [List.append_assoc] at ends
  have trimmed := Text.trim_padded before behind (by simp [filled]) (labelled.marked starts) ends
  have unlabelled := splitLabel?_head plain separated.head_separates
  have known : labels.find? (! isIdentifier ·) = none := by simpa using identifiers
  rw [lex, stripComment_separated labelled plain separated before behind comment, trimmed,
    labelled.splitLabels_eq starts unlabelled]
  simp [known, tokens?_separated filled plain separated]

/-- Two labels, a literal with a comment mark, a separator, an escaped quote and a colon in it, and
an operand with a colon. -/
theorem lex_separated_literal :
    lex " a:b.1:\t.ascii,, \"#,\\\":\"\t-4:2 # rest".toList =
      .ok ⟨["a", "b.1"], some ".ascii", ["\"#,\\\":\"", "-4:2"]⟩ := by
  have last : Labelled [['b', '.', '1']] (['b', '.', '1'] ++ ':' :: (['\t'] ++ [])) :=
    .cons (by simp) (by simp [isLabelChar]) (by simp [Text.isBlank]) .nil
  have labelled : Labelled [['a'], ['b', '.', '1']]
      (['a'] ++ ':' :: ([] ++ (['b', '.', '1'] ++ ':' :: (['\t'] ++ [])))) :=
    .cons (by simp) (by simp [isLabelChar]) (by simp) last
  have body : LiteralBody '"' ['#', ',', '\\', '"', ':'] :=
    .plain (by decide) (by decide) (.plain (by decide) (by decide)
      (.escape (.plain (by decide) (by decide) .nil)))
  have number : OperandText ['-', '4', ':', '2'] :=
    .run (by simp) (by simp [isSeparator, Text.isBlank, isQuote])
  have tab : ∀ c ∈ ['\t'], isSeparator c = true := by simp [isSeparator, Text.isBlank]
  have commas : ∀ c ∈ [',', ',', ' '], isSeparator c = true := by simp [isSeparator, Text.isBlank]
  have separated := Separated.cons (by simp) commas (.literal (by decide) body)
    (.cons (by simp) tab number .nil)
  have head : ∀ c ∈ ['.', 'a', 's', 'c', 'i', 'i'], isPlain c = true := by
    simp [isPlain, isSeparator, Text.isBlank, isQuote]
  have blank : ∀ c ∈ [' '], Text.isBlank c = true := by simp [Text.isBlank]
  have remark : ∀ c ∈ "# rest".toList.head?, c = '#' := by simp
  have read := lex_separated labelled (by decide) (by simp) head separated blank blank remark
  simpa using read

end Lines

end MipsLab
