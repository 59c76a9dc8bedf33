import MipsLab.Proofs.Source.Definitions

/-! What definitions do to the opcode of a line. Words are replaced everywhere in a line, also in its
labels, and a dot ends a word. So a name that can be defined never stands in an opcode without a
dot, but it can be the part of a directive or of a mnemonic that a dot sets apart; and it can turn a
label into what is no label. Where neither happens the opcode stays the first token of the line. -/
namespace MipsLab

/-- Whether a word is the name of a directive or, in any case, a mnemonic. -/
def isOpcode (word : List Char) : Bool :=
  (Directive.ofName? (String.ofList word)).isSome || isMnemonic (String.ofList word)

/-- The first token behind the labels of a line, as far as the next separator. -/
def firstToken (line : List Char) : List Char :=
  ((splitLabels (Text.trim (stripComment line))).2.dropWhile isSeparator).takeWhile
    (! isSeparator ·)

section Opcodes

variable {word : List Char}

theorem isLabelChar_of_toLower {c : Char} (lower : isLabelChar c.toLower = true) :
    isLabelChar c = true := by
  unfold Char.toLower at lower
  split at lower
  · next upper =>
    have letter : c.isUpper = true := by simpa [Char.isUpper] using upper
    simp [isLabelChar, Char.isAlphanum, Char.isAlpha, letter]
  · exact lower

theorem isLabelChar_of_isOpcode (opcode : isOpcode word = true) :
    word ≠ [] ∧ ∀ c ∈ word, isLabelChar c = true := by
  have directives : (Directive.table.all fun entry =>
      !entry.1.toList.isEmpty && entry.1.toList.all isLabelChar) = true := by decide +kernel
  have mnemonics : (Mnemonic.all.all fun m =>
      !m.name.toList.isEmpty && m.name.toList.all isLabelChar) = true := by decide +kernel
  rcases (Bool.or_eq_true _ _).mp opcode with directive | mnemonic
  · obtain ⟨d, found⟩ := Option.isSome_iff_exists.mp directive
    obtain ⟨before, after, listed, -⟩ := List.lookup_eq_some_iff.mp found
    have known : (String.ofList word, d) ∈ Directive.table := by simp [listed]
    have named := List.all_eq_true.mp directives _ known
    simpa using named
  · obtain ⟨m, found⟩ := Option.isSome_iff_exists.mp mnemonic
    have same : m.name = (String.ofList word).toLower := by simpa using List.find?_some found
    have named := List.all_eq_true.mp mnemonics m (List.mem_of_find?_eq_some found)
    rw [same, String.toLower, String.toList_map, String.toList_ofList] at named
    simp only [Bool.and_eq_true, List.all_eq_true, List.mem_map] at named
    refine ⟨by simpa using named.1, fun c member => ?_⟩
    exact isLabelChar_of_toLower (named.2 _ ⟨c, member, rfl⟩)

/-- Where no dot sets parts apart, a name that stands in a word is the word. -/
theorem eq_of_standsIn {name : List Char} (all : ∀ c ∈ word, isLabelChar c = true)
    (undotted : '.' ∉ word) (stands : StandsIn name none word) : name = word := by
  obtain ⟨front, after, rfl, whole⟩ := stands
  have words : ∀ c ∈ front ++ (name ++ after), isWordChar c = true := by
    intro c member
    have inside := all c member
    have other : c ≠ '.' := fun same => undotted (same ▸ member)
    simpa [isLabelChar, isWordChar, other] using inside
  have first : front = [] := by
    cases last : front.getLast? with
    | none => simpa using last
    | some c =>
      have inside := words c (List.mem_append_left _ (List.mem_of_getLast? last))
      simp [isBoundary, last, inside] at whole
  have last : after = [] := by
    cases after with
    | nil => rfl
    | cons c after =>
      have inside := words c (by simp)
      simp [isBoundary, inside] at whole
  simp [first, last]

theorem not_standsIn_opcode {entry : String × String} (opcode : isOpcode word = true)
    (undotted : '.' ∉ word) (accepted : IsDefinition entry) :
    ¬ StandsIn entry.1.toList none word := by
  intro stands
  have same := eq_of_standsIn (isLabelChar_of_isOpcode opcode).2 undotted stands
  have unreserved := accepted.unreserved
  rw [isOpcode, ← same, String.ofList_toList, Bool.or_eq_true] at opcode
  unfold reserved? at unreserved
  split at unreserved
  · cases unreserved
  · rcases opcode with directive | mnemonic
    · simp [directive] at unreserved
    · split at unreserved
      · cases unreserved
      · simp at unreserved

end Opcodes

namespace Text

theorem trim_blanks {trail : List Char} (text : List Char)
    (behind : ∀ c ∈ trail, isBlank c = true) : trim (text ++ trail) = trim text := by
  have turned : ∀ c ∈ trail.reverse, isBlank c = true := fun c member =>
    behind c (List.mem_reverse.mp member)
  have same : trimEnd (text ++ trail) = trimEnd text := by
    rw [trimEnd, List.reverse_append, List.dropWhile_append_of_pos turned, trimEnd]
  rw [← trim_trimEnd, same, trim_trimEnd]

/-- A text is what trimming leaves of it, between blanks. -/
theorem trim_cases (text : List Char) : ∃ lead trail, text = lead ++ (trim text ++ trail) ∧
    (∀ c ∈ lead, isBlank c = true) ∧ (∀ c ∈ trail, isBlank c = true) ∧
    ∀ c ∈ (trim text).head?, isBlank c = false := by
  obtain ⟨lead, split, before, marked⟩ := trimStart_cases text
  obtain ⟨trail, kept, behind, -⟩ := trimEnd_cases (trimStart text)
  refine ⟨lead, trail, split.trans (congrArg (lead ++ ·) kept), before, behind,
    fun c first => marked c ?_⟩
  exact mem_head?_of_starts (trimEnd_starts (trimStart text)) c first

end Text

/-- The parts of a line: blanks, labels, separators and a word; behind it nothing or a separator. -/
structure Headed (labels : List (List Char)) (lead front gap word tail : List Char) : Prop where
  idle : ∀ c ∈ lead, Text.isBlank c = true
  labelled : Labelled labels front
  separators : ∀ c ∈ gap, isSeparator c = true
  unspaced : ∀ c ∈ gap.head?, Text.isBlank c = false
  filled : word ≠ []
  inside : ∀ c ∈ word, isLabelChar c = true
  apart : ∀ c ∈ tail.head?, isSeparator c = true

namespace Headed

variable {labels : List (List Char)} {lead front gap word tail : List Char}

theorem plain (headed : Headed labels lead front gap word tail) : ∀ c ∈ word, isPlain c = true :=
  fun c member => isPlain_of_isLabelChar (headed.inside c member)

theorem starts (headed : Headed labels lead front gap word tail) (rest : List Char) :
    ∀ c ∈ (gap ++ (word ++ rest)).head?, Text.isBlank c = false := by
  have unspaced := headed.unspaced
  cases gap with
  | nil =>
    intro c first
    rw [List.nil_append, List.head?_append_of_ne_nil _ headed.filled] at first
    exact isBlank_of_isPlain (headed.plain c (List.mem_of_mem_head? first))
  | cons d gap => exact unspaced

theorem splitLabels_eq (headed : Headed labels lead front gap word tail) :
    splitLabels (front ++ (gap ++ (word ++ tail))) = (labels, gap ++ (word ++ tail)) := by
  refine headed.labelled.splitLabels_eq (headed.starts tail) ?_
  have separators := headed.separators
  have unlabelled := splitLabel?_head headed.plain headed.apart
  cases gap with
  | nil => exact unlabelled
  | cons c gap => exact splitLabel?_separator (separators c List.mem_cons_self) _

/-- The code of such a line has the same parts. -/
theorem code (headed : Headed labels lead front gap word tail) : ∃ tail',
    Headed labels [] front gap word tail' ∧
      Text.trim (stripComment (lead ++ (front ++ (gap ++ (word ++ tail))))) =
        front ++ (gap ++ (word ++ tail')) := by
  have idle : ∀ c ∈ lead, isFrontChar c = true := fun c member => by
    simp [isFrontChar, headed.idle c member]
  have unmarked : ∀ c ∈ word, isFrontChar c = true := fun c member => by
    simp [isFrontChar, headed.inside c member]
  have filled : front ++ (gap ++ word) ≠ [] := by simp [headed.filled]
  have starts := headed.labelled.marked (headed.starts [])
  have ends : ∀ c ∈ (front ++ (gap ++ word)).getLast?, Text.isBlank c = false := by
    intro c last
    rw [← List.append_assoc, List.getLast?_append_of_ne_nil _ headed.filled] at last
    exact isBlank_of_isPlain (headed.plain c (List.mem_of_getLast? last))
  refine ⟨Text.trimEnd (withoutComment .outside tail), ⟨fun c member => ?_, headed.labelled,
    headed.separators, headed.unspaced, headed.filled, headed.inside, fun c first => ?_⟩, ?_⟩
  · exact absurd member List.not_mem_nil
  · have start := (Text.trimEnd_starts _).trans (withoutComment_starts .outside tail)
    exact headed.apart c (mem_head?_of_starts start c first)
  · rw [stripComment, withoutComment_front idle, withoutComment_front headed.labelled.clean,
      withoutComment_unmarked fun c member => isQuote_of_isSeparator (headed.separators c member),
      withoutComment_front unmarked]
    have trimmed := Text.trim_marked headed.idle filled (by simpa using starts) ends
      (withoutComment .outside tail)
    simpa using trimmed

theorem firstToken_eq (headed : Headed labels lead front gap word tail) :
    firstToken (lead ++ (front ++ (gap ++ (word ++ tail)))) = word := by
  obtain ⟨tail', headed', code⟩ := headed.code
  have joined : ∀ c ∈ word, (! isSeparator c) = true := fun c member => by
    simp [isSeparator_of_isPlain (headed.plain c member)]
  have begins : (word ++ tail').dropWhile isSeparator = word ++ tail' := by
    obtain ⟨c, rest, same⟩ := List.exists_cons_of_ne_nil headed.filled
    have first := joined c (by simp [same])
    rw [same, List.cons_append, List.dropWhile_cons_of_neg (by simpa using first)]
  have stops : tail'.takeWhile (! isSeparator ·) = [] := by
    have apart := headed'.apart
    cases tail' with
    | nil => rfl
    | cons c rest => exact List.takeWhile_cons_of_neg (by simp [apart c rfl])
  rw [firstToken, code, headed'.splitLabels_eq, List.dropWhile_append_of_pos headed.separators,
    begins, List.takeWhile_append_of_pos joined, stops, List.append_nil]

end Headed

/-- A text is separators, its first token as far as the next separator, and a rest. -/
theorem token_cases (body : List Char) : ∃ gap tail,
    body = gap ++ ((body.dropWhile isSeparator).takeWhile (! isSeparator ·) ++ tail) ∧
      (∀ c ∈ gap, isSeparator c = true) ∧ ∀ c ∈ tail.head?, isSeparator c = true := by
  refine ⟨body.takeWhile isSeparator, (body.dropWhile isSeparator).dropWhile (! isSeparator ·), ?_,
    fun c member => List.mem_takeWhile_imp member, fun c first => ?_⟩
  · rw [List.takeWhile_append_dropWhile, List.takeWhile_append_dropWhile]
  · have stops := List.head?_dropWhile_not (! isSeparator ·) (body.dropWhile isSeparator)
    rw [first] at stops
    simpa using stops

/-- A line that begins with an opcode has such parts, and so has its code. -/
theorem exists_headed {raw : List Char} (opcode : isOpcode (firstToken raw) = true) :
    ∃ lead front gap tail,
      Headed (splitLabels (Text.trim (stripComment raw))).1 lead front gap (firstToken raw) tail ∧
      Text.trimEnd (stripComment raw) = lead ++ (front ++ (gap ++ (firstToken raw ++ tail))) := by
  obtain ⟨lead, trail, split, idle, behind, marked⟩ :=
    Text.trim_cases (Text.trimEnd (stripComment raw))
  rw [Text.trim_trimEnd] at split marked
  obtain ⟨front, parts, labelled, -, start⟩ := exists_labelled marked
  obtain ⟨gap, tail, body, separators, stops⟩ :=
    token_cases (splitLabels (Text.trim (stripComment raw))).2
  rw [← firstToken] at body
  obtain ⟨filled, inside⟩ := isLabelChar_of_isOpcode opcode
  have unspaced : ∀ c ∈ gap.head?, Text.isBlank c = false := fun c first =>
    start c (mem_head?_of_starts ⟨_, body.symm⟩ c first)
  have apart : ∀ c ∈ (tail ++ trail).head?, isSeparator c = true := by
    cases tail with
    | nil =>
      intro c first
      simp [isSeparator, behind c (List.mem_of_mem_head? first)]
    | cons d rest => exact stops
  refine ⟨lead, front, gap, tail ++ trail,
    { idle, labelled, separators, unspaced, filled, inside, apart }, ?_⟩
  rw [split, parts, body]
  simp

/-- Blanks at the end of a line are in its comment or behind its code. -/
theorem withoutComment_blanks {trail : List Char} (behind : ∀ c ∈ trail, Text.isBlank c = true)
    (q : Quoting) (line : List Char) : ∃ rest, (∀ c ∈ rest, Text.isBlank c = true) ∧
      withoutComment q (line ++ trail) = withoutComment q line ++ rest := by
  induction line generalizing q with
  | nil =>
    exact ⟨withoutComment q trail, fun c member =>
      behind c ((withoutComment_starts q trail).subset member), rfl⟩
  | cons c line ih =>
    rw [List.cons_append, withoutComment, withoutComment]
    split
    · exact ⟨[], by simp, rfl⟩
    · obtain ⟨rest, idle, same⟩ := ih (q.next c)
      exact ⟨rest, idle, by rw [same, List.cons_append]⟩

theorem trim_stripComment_trimEnd (raw : List Char) :
    Text.trim (stripComment (Text.trimEnd raw)) = Text.trim (stripComment raw) := by
  obtain ⟨trail, split, behind, -⟩ := Text.trimEnd_cases raw
  obtain ⟨rest, idle, same⟩ := withoutComment_blanks behind .outside (Text.trimEnd raw)
  rw [← split] at same
  rw [stripComment, stripComment, same, Text.trim_blanks _ idle]

theorem Headed.tokens?_head {labels tokens : List (List Char)} {lead front gap word tail : List Char}
    (headed : Headed labels lead front gap word tail)
    (found : tokens? (gap ++ (word ++ tail)) = some tokens) : tokens.head? = some word := by
  have started : word.reverse ++ [] ≠ [] := by simpa using headed.filled
  rw [tokens?_separators headed.separators, tokens?, tokensFrom_plain headed.plain] at found
  have apart := headed.apart
  cases tail with
  | nil =>
    rw [tokensFrom] at found
    simp only [Quoting.outside, Option.isSome_none, Bool.false_eq_true, if_false, List.append_nil,
      List.isEmpty_reverse, List.isEmpty_iff, headed.filled, List.reverse_reverse,
      Option.some.injEq] at found
    rw [← found, List.head?_cons]
  | cons c rest =>
    rw [tokensFrom_separator (apart c rfl) started, Option.map_eq_some_iff] at found
    obtain ⟨others, -, rfl⟩ := found
    simp

/-- What is read of a line that begins with an opcode has it as its head. -/
theorem lex_head {line : List Char} (opcode : isOpcode (firstToken line) = true) {read : Statement}
    (lexed : lex line = .ok read) : read.head = some (String.ofList (firstToken line)) := by
  obtain ⟨lead, front, gap, tail, headed, code⟩ := exists_headed opcode
  obtain ⟨tail', headed', coded⟩ := headed.code
  rw [← code, trim_stripComment_code] at coded
  rw [lex, coded, headed'.splitLabels_eq] at lexed
  dsimp only at lexed
  split at lexed
  · cases lexed
  · split at lexed
    · cases lexed
    · next tokens found =>
      cases lexed
      simp [headed'.tokens?_head found]

/-- Lines that declare strings and lines that include files are copied, whatever is defined. -/
def isCopied (raw : List Char) : Bool := isStringLine raw || namesInclude raw

/-- The labels of a line stay labels, and no part of its opcode that dots set apart is a name of the
table. -/
structure EqvTable.Spares (table : EqvTable) (raw : List Char) : Prop where
  labels : ∀ label ∈ (splitLabels (Text.trim (stripComment raw))).1,
    ∀ c ∈ table.apply label, isLabelChar c = true
  opcode : '.' ∈ firstToken raw →
    ∀ entry ∈ table.entries, ¬ StandsIn entry.1.toList none (firstToken raw)

section Lines

variable {table : EqvTable} {raw : List Char}

theorem processLine_copied (table : EqvTable) (copied : isCopied raw = true) :
    processLine table raw = Text.trimEnd raw ∨
      processLine table raw = Text.trimEnd (stripComment raw) := by
  unfold processLine
  cases strings : isStringLine raw with
  | true => exact .inl (if_pos rfl)
  | false =>
    have own : namesInclude (Text.trimEnd (stripComment raw)) = true := by
      rw [namesInclude_code]
      simpa [isCopied, strings] using copied
    exact .inr ((if_neg Bool.false_ne_true).trans (if_pos own))

theorem processLine_replaced (table : EqvTable) (replaced : isCopied raw = false) :
    processLine table raw = table.apply (Text.trimEnd (stripComment raw)) := by
  obtain ⟨plain, other⟩ := Bool.or_eq_false_iff.mp replaced
  have own : ¬ namesInclude (Text.trimEnd (stripComment raw)) = true := by
    simp [namesInclude_code, other]
  unfold processLine
  rw [plain]
  exact (if_neg Bool.false_ne_true).trans (if_neg own)

theorem EqvTable.Spares.kept (spares : table.Spares raw) (accepted : table.Accepted)
    (opcode : isOpcode (firstToken raw) = true) : table.apply (firstToken raw) = firstToken raw := by
  refine apply_kept accepted.entries fun entry member => ?_
  by_cases dotted : '.' ∈ firstToken raw
  · exact spares.opcode dotted entry member
  · exact not_standsIn_opcode opcode dotted (accepted.entries entry member)

theorem firstToken_apply (accepted : table.Accepted) (opcode : isOpcode (firstToken raw) = true)
    (spares : table.Spares raw) :
    firstToken (table.apply (Text.trimEnd (stripComment raw))) = firstToken raw := by
  obtain ⟨lead, front, gap, tail, headed, code⟩ := exists_headed opcode
  obtain ⟨front', labelled, labels⟩ := EqvTable.apply_labelled accepted.entries headed.labelled
    spares.labels
  obtain ⟨tail', word, begins⟩ := EqvTable.apply_behind accepted.entries
    (spares.kept accepted opcode) fun c first => isLabelChar_of_isSeparator (headed.apart c first)
  have apart : ∀ c ∈ tail'.head?, isSeparator c = true := begins ▸ headed.apart
  have changed : table.apply (Text.trimEnd (stripComment raw)) =
      lead ++ (front' ++ (gap ++ (firstToken raw ++ tail'))) := by
    rw [code, EqvTable.apply_gap accepted.entries fun c member =>
      isLabelChar_of_isBlank (headed.idle c member), labels,
      EqvTable.apply_gap accepted.entries fun c member =>
        isLabelChar_of_isSeparator (headed.separators c member), word]
  have stays : Headed _ lead front' gap (firstToken raw) tail' :=
    { headed with labelled, apart }
  rw [changed, stays.firstToken_eq]

/-- The opcode of a line stays where it is, for every table that definitions make, if the line is
copied, or if its labels stay labels and its opcode has no name in it; an opcode without a dot never
has. -/
theorem firstToken_processLine (accepted : table.Accepted)
    (opcode : isOpcode (firstToken raw) = true)
    (spared : isCopied raw = false → table.Spares raw) :
    firstToken (processLine table raw) = firstToken raw ∧
      ∀ line ∈ [raw, processLine table raw], ∀ read, lex line = .ok read →
        read.head = some (String.ofList (firstToken raw)) := by
  have same : firstToken (processLine table raw) = firstToken raw := by
    cases copied : isCopied raw with
    | true =>
      rcases processLine_copied table copied with trimmed | code
      · rw [trimmed, firstToken, trim_stripComment_trimEnd, firstToken]
      · rw [code, firstToken, trim_stripComment_code, firstToken]
    | false => rw [processLine_replaced table copied, firstToken_apply accepted opcode (spared copied)]
  refine ⟨same, fun line member read lexed => ?_⟩
  simp only [List.mem_cons, List.not_mem_nil, or_false] at member
  rcases member with rfl | rfl
  · exact lex_head opcode lexed
  · rw [← same]
    exact lex_head (same ▸ opcode) lexed

/-- A label, and a directive with a dot in which the name does not stand. -/
theorem firstToken_processLine_word : (EqvTable.mk [("N", "10")]).Accepted ∧
    isOpcode ".word".toList = true ∧ (EqvTable.mk [("N", "10")]).Spares "x: .word N".toList ∧
      firstToken (processLine ⟨[("N", "10")]⟩ "x: .word N".toList) = ".word".toList := by
  have accepted : (EqvTable.mk [("N", "10")]).Accepted :=
    EqvTable.Accepted.start.add "N 10".toList (by decide +kernel)
      ⟨by decide +kernel, by decide +kernel, by decide +kernel⟩
  have opcode : isOpcode ".word".toList = true := by decide +kernel
  have first : firstToken "x: .word N".toList = ".word".toList := by decide +kernel
  have labels : ((splitLabels (Text.trim (stripComment "x: .word N".toList))).1.all fun label =>
      ((EqvTable.mk [("N", "10")]).apply label).all isLabelChar) = true := by decide +kernel
  have missing : ¬ StandsIn "N".toList none ".word".toList := by
    rintro ⟨front, after, split, -⟩
    have inside : 'N' ∈ ".word".toList := by simp [split]
    exact absurd inside (by decide)
  have spares : (EqvTable.mk [("N", "10")]).Spares "x: .word N".toList := by
    refine ⟨by simpa using labels, fun _ entry member => ?_⟩
    obtain rfl := List.mem_singleton.mp member
    rwa [first]
  have kept := (firstToken_processLine accepted (first ▸ opcode) fun _ => spares).1
  exact ⟨accepted, opcode, spares, kept.trans first⟩

/-- A name that is a label gets a value that is none, and a name is a part of a mnemonic. -/
theorem firstToken_changed : (EqvTable.mk [("x", "$t0"), ("s", "5")]).Accepted ∧
    isOpcode (firstToken "x: add $t1, $t2, $t3".toList) = true ∧
      firstToken "x: add $t1, $t2, $t3".toList = "add".toList ∧
      firstToken (processLine ⟨[("x", "$t0"), ("s", "5")]⟩ "x: add $t1, $t2, $t3".toList) =
        "$t0:".toList ∧
    isOpcode (firstToken "add.s $f0, $f1, $f2".toList) = true ∧
      firstToken "add.s $f0, $f1, $f2".toList = "add.s".toList ∧
      firstToken (processLine ⟨[("x", "$t0"), ("s", "5")]⟩ "add.s $f0, $f1, $f2".toList) =
        "add.5".toList := by
  have label : (EqvTable.mk [("x", "$t0")]).Accepted :=
    EqvTable.Accepted.start.add "x $t0".toList (by decide +kernel)
      ⟨by decide +kernel, by decide +kernel, by decide +kernel⟩
  have both : (EqvTable.mk [("x", "$t0"), ("s", "5")]).Accepted := by
    have found : Walk.definition? "s 5".toList = some ("s", "5") := by decide +kernel
    exact label.add "s 5".toList found ⟨by decide +kernel, by decide +kernel, by decide +kernel⟩
  refine ⟨both, ?_⟩
  decide +kernel

end Lines

end MipsLab
