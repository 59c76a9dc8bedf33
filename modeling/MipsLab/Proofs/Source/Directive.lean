import MipsLab.Proofs.Text.Cuts
import MipsLab.Source.Linked

/-! Directives and labels of a line that is cut short. Leaving out a comment, and blanks at the end,
changes neither the labels in front of a directive nor its name; so a line that declares strings
does so afterwards, and an `.include` line names the same file. -/
namespace MipsLab

namespace Text

theorem trimEnd_starts (text : List Char) : trimEnd text <+: text := by
  have turned := List.reverse_prefix.mpr (List.dropWhile_suffix (l := text.reverse) isBlank)
  rwa [List.reverse_reverse] at turned

/-- Blanks are trimmed only from behind the last mark. -/
theorem trimEnd_mark {c : Char} (mark : isBlank c = false) (front rest : List Char) :
    trimEnd (front ++ c :: rest) = front ++ c :: trimEnd rest := by
  have turned : (front ++ c :: rest).reverse = rest.reverse ++ c :: front.reverse := by simp
  rw [trimEnd, turned, List.dropWhile_append]
  split
  · next blank =>
    have empty : rest.reverse.dropWhile isBlank = [] := by simpa using blank
    simp [trimEnd, empty, mark]
  · simp [trimEnd]

theorem trimEnd_trimEnd (text : List Char) : trimEnd (trimEnd text) = trimEnd text := by
  simp [trimEnd, List.dropWhile_idempotent]

/-- A text is blanks, and either nothing or a mark and what follows. -/
theorem trimStart_cases (text : List Char) : ∃ blanks, text = blanks ++ trimStart text ∧
    (∀ c ∈ blanks, isBlank c = true) ∧ ∀ c ∈ (trimStart text).head?, isBlank c = false := by
  refine ⟨text.takeWhile isBlank, List.takeWhile_append_dropWhile.symm, fun c member => ?_,
    fun c first => ?_⟩
  · exact List.mem_takeWhile_imp member
  · have stops := List.head?_dropWhile_not isBlank text
    rw [trimStart] at first
    rw [first] at stops
    exact stops

/-- A text is either nothing or something that ends in a mark, and blanks behind it. -/
theorem trimEnd_cases (text : List Char) : ∃ trail, text = trimEnd text ++ trail ∧
    (∀ c ∈ trail, isBlank c = true) ∧ ∀ c ∈ (trimEnd text).getLast?, isBlank c = false := by
  obtain ⟨trail, turned, behind, marked⟩ := trimStart_cases text.reverse
  have again := congrArg List.reverse turned
  rw [List.reverse_reverse, List.reverse_append] at again
  refine ⟨trail.reverse, again, fun c member => behind c (List.mem_reverse.mp member), ?_⟩
  rwa [trimEnd, List.getLast?_reverse]

theorem trimStart_blanks {blanks : List Char} (all : ∀ c ∈ blanks, isBlank c = true)
    (text : List Char) : trimStart (blanks ++ text) = trimStart text := by
  exact List.dropWhile_append_of_pos all

theorem trimStart_marked {text : List Char} (marked : ∀ c ∈ text.head?, isBlank c = false) :
    trimStart text = text := by
  cases text with
  | nil => rfl
  | cons c rest => exact List.dropWhile_cons_of_neg (by simp [marked c rfl])

theorem trim_trimEnd (text : List Char) : trim (trimEnd text) = trim text := by
  obtain ⟨blanks, split, all, marked⟩ := trimStart_cases text
  unfold trim
  cases kept : trimStart text with
  | nil =>
    rw [kept, List.append_nil] at split
    have none : trimEnd text = [] := by
      rw [split, trimEnd, List.reverse_eq_nil_iff, List.dropWhile_eq_nil_iff]
      exact fun c member => all c (List.mem_reverse.mp member)
    rw [none]
    rfl
  | cons c rest =>
    rw [kept] at split marked
    have mark := marked c rfl
    have stays (more : List Char) : trimStart (c :: more) = c :: more :=
      trimStart_marked fun d first => Option.some.inj first ▸ mark
    rw [split, trimEnd_mark mark, trimStart_blanks all, stays]
    have again := trimEnd_mark mark [] (trimEnd rest)
    have once := trimEnd_mark mark [] rest
    rw [List.nil_append, List.nil_append] at again once
    rw [again, once, trimEnd_trimEnd]

end Text

theorem withoutComment_starts (q : Quoting) (line : List Char) :
    withoutComment q line <+: line := by
  induction line generalizing q with
  | nil => exact List.prefix_refl _
  | cons c rest ih =>
    rw [withoutComment]
    split
    · exact List.nil_prefix
    · exact List.cons_prefix_cons.mpr ⟨rfl, ih (q.next c)⟩

/-- Where a comment has been left out there is none. -/
theorem withoutComment_of_starts {q : Quoting} {line part : List Char}
    (start : part <+: withoutComment q line) : withoutComment q part = part := by
  induction part generalizing q line with
  | nil => rfl
  | cons c part ih =>
    cases line with
    | nil => exact absurd (List.prefix_nil.mp start) (List.cons_ne_nil c part)
    | cons d rest =>
      rw [withoutComment] at start
      split at start
      · exact absurd (List.prefix_nil.mp start) (List.cons_ne_nil c part)
      · next code =>
        obtain ⟨rfl, later⟩ := List.cons_prefix_cons.mp start
        rw [withoutComment, if_neg code, ih later]

theorem trim_stripComment_code (raw : List Char) :
    Text.trim (stripComment (Text.trimEnd (stripComment raw))) = Text.trim (stripComment raw) := by
  have bare : stripComment (Text.trimEnd (stripComment raw)) = Text.trimEnd (stripComment raw) :=
    withoutComment_of_starts (Text.trimEnd_starts (stripComment raw))
  rw [bare, Text.trim_trimEnd]

/-- The code of a line has the directive of the line. -/
theorem directiveOf?_code (raw : List Char) :
    directiveOf? (Text.trimEnd (stripComment raw)) = directiveOf? raw := by
  unfold directiveOf?
  rw [trim_stripComment_code]

section Labels

variable {text label rest : List Char}

theorem splitLabel?_some (found : splitLabel? text = some (label, rest)) :
    text = label ++ ':' :: rest ∧ label ≠ [] ∧ ∀ c ∈ label, isLabelChar c = true := by
  unfold splitLabel? at found
  split at found
  · next first front tail taken dropped =>
    obtain ⟨rfl, rfl⟩ := Prod.mk.inj (Option.some.inj found)
    have whole := List.takeWhile_append_dropWhile (p := isLabelChar) (l := text)
    rw [taken, dropped] at whole
    refine ⟨whole.symm, List.cons_ne_nil _ _, fun c member => ?_⟩
    rw [← taken] at member
    exact List.mem_takeWhile_imp member
  · exact absurd found nofun

theorem splitLabel?_append (filled : label ≠ []) (all : ∀ c ∈ label, isLabelChar c = true)
    (rest : List Char) : splitLabel? (label ++ ':' :: rest) = some (label, rest) := by
  have colon : isLabelChar ':' = false := by decide
  unfold splitLabel?
  rw [List.takeWhile_append_of_pos all, List.dropWhile_append_of_pos all,
    List.takeWhile_cons_of_neg (by simp [colon]), List.dropWhile_cons_of_neg (by simp [colon]),
    List.append_nil]
  cases label with
  | nil => exact absurd rfl filled
  | cons c label => rfl

/-- A text that does not begin with a label does not do so when it is cut short. -/
theorem splitLabel?_starts {part : List Char} (unlabelled : splitLabel? text = none)
    (start : part <+: text) : splitLabel? part = none := by
  cases found : splitLabel? part with
  | none => rfl
  | some both =>
    obtain ⟨label, rest⟩ := both
    obtain ⟨rfl, filled, all⟩ := splitLabel?_some found
    obtain ⟨more, rfl⟩ := start
    rw [List.append_assoc, List.cons_append, splitLabel?_append filled all] at unlabelled
    exact absurd unlabelled nofun

theorem splitLabels_none (unlabelled : splitLabel? text = none) :
    splitLabels text = ([], text) := by
  rw [splitLabels]
  split
  · rfl
  · next found => cases unlabelled.symm.trans found

theorem splitLabels_some (found : splitLabel? text = some (label, rest)) :
    splitLabels text =
      (label :: (splitLabels (Text.trimStart rest)).1, (splitLabels (Text.trimStart rest)).2) := by
  rw [splitLabels]
  split
  · next unlabelled => cases unlabelled.symm.trans found
  · next other =>
    cases found.symm.trans other
    rfl

/-- What may stand in front of the head of a line. -/
def isFrontChar (c : Char) : Bool := isLabelChar c || c = ':' || Text.isBlank c

/-- The labels in front of a text are the same, however much is left of what follows them. -/
theorem splitLabels_front (text : List Char) : ∃ front,
    text = front ++ (splitLabels text).2 ∧ (∀ c ∈ front, isFrontChar c = true) ∧
      ∀ part, part <+: (splitLabels text).2 →
        splitLabels (front ++ part) = ((splitLabels text).1, part) := by
  induction text using splitLabels.induct with
  | case1 text unlabelled =>
    rw [splitLabels_none unlabelled]
    exact ⟨[], rfl, fun _ member => absurd member List.not_mem_nil, fun part start =>
      splitLabels_none (splitLabel?_starts unlabelled start)⟩
  | case2 text label rest found _ _ _ _ ih =>
    obtain ⟨inner, split, clean, cut⟩ := ih
    obtain ⟨rfl, filled, all⟩ := splitLabel?_some found
    obtain ⟨blanks, spaced, idle, marked⟩ := Text.trimStart_cases rest
    rw [splitLabels_some found]
    generalize splitLabels (Text.trimStart rest) = parts at split cut
    refine ⟨label ++ ':' :: (blanks ++ inner), ?_, fun c member => ?_, fun part start => ?_⟩
    · rw [List.append_assoc, List.cons_append, List.append_assoc, ← split, ← spaced]
    · unfold isFrontChar
      rcases List.mem_append.mp member with labelled | later
      · rw [all c labelled]
        rfl
      · rcases List.mem_cons.mp later with rfl | later
        · simp
        · rcases List.mem_append.mp later with blank | later
          · rw [idle c blank, Bool.or_true]
          · exact clean c later
    · -- a part of the rest begins as the rest does, and so not with a blank
      have same : Text.trimStart (blanks ++ (inner ++ part)) = inner ++ part := by
        rw [Text.trimStart_blanks idle]
        refine Text.trimStart_marked fun c first => marked c ?_
        obtain ⟨more, whole⟩ := start
        rw [split, ← whole, ← List.append_assoc, List.head?_append, first]
        rfl
      have next := splitLabel?_append filled all (blanks ++ (inner ++ part))
      rw [List.append_assoc, List.cons_append, List.append_assoc, splitLabels_some next, same,
        cut part start]

end Labels

theorem withoutComment_unmarked {part : List Char}
    (clean : ∀ c ∈ part, isQuote c = false ∧ c ≠ '#') (rest : List Char) :
    withoutComment .outside (part ++ rest) = part ++ withoutComment .outside rest := by
  induction part with
  | nil => rfl
  | cons c part ih =>
    obtain ⟨⟨bare, code⟩, later⟩ := List.forall_mem_cons.mp clean
    have stays : Quoting.outside.next c = .outside := by
      simp [Quoting.next, Quoting.outside, bare]
    rw [List.cons_append, withoutComment, if_neg (by simp [code]), stays, ih later,
      List.cons_append]

/-- Neither a comment nor a literal begins within such a text. -/
theorem withoutComment_front {front : List Char} (clean : ∀ c ∈ front, isFrontChar c = true)
    (rest : List Char) :
    withoutComment .outside (front ++ rest) = front ++ withoutComment .outside rest := by
  refine withoutComment_unmarked (fun c member => ?_) rest
  have inside := clean c member
  refine ⟨?_, fun same => absurd (same ▸ inside) (by decide)⟩
  unfold isQuote
  rw [Bool.or_eq_false_iff, decide_eq_false_iff_not, decide_eq_false_iff_not]
  exact ⟨fun same => absurd (same ▸ inside) (by decide),
    fun same => absurd (same ▸ inside) (by decide)⟩

/-- A line that declares strings still has such a directive when it has been trimmed. -/
theorem directiveOf?_string {raw : List Char} (strings : isStringLine raw = true) :
    ∃ name operand, directiveOf? (Text.trimEnd raw) = some ('.' :: 'a' :: name, operand) := by
  obtain ⟨rest, dropped⟩ := Option.isSome_iff_exists.mp strings
  have body : (splitLabels (Text.trimStart raw)).2 = ['.', 'a'] ++ ("scii".toList ++ rest) := by
    rw [Text.eq_append_of_dropStart? dropped]
    rfl
  obtain ⟨front, split, clean, cut⟩ := splitLabels_front (Text.trimStart raw)
  obtain ⟨blanks, spaced, idle, marked⟩ := Text.trimStart_cases raw
  rw [body] at split cut
  generalize "scii".toList ++ rest = tail at split cut
  have begins : ∀ c ∈ blanks ++ front ++ ['.', 'a'], isFrontChar c = true := by
    intro c member
    simp only [List.mem_append, List.mem_cons, List.not_mem_nil, or_false] at member
    rcases member with (blank | inner) | rfl | rfl
    · simp [isFrontChar, idle c blank]
    · exact clean c inner
    · decide
    · decide
  let kept := Text.trimEnd (withoutComment .outside (Text.trimEnd tail))
  have code : Text.trim (stripComment (Text.trimEnd raw)) = front ++ (['.', 'a'] ++ kept) := by
    have trimmed : Text.trimEnd raw = blanks ++ front ++ ['.', 'a'] ++ Text.trimEnd tail := by
      have last := Text.trimEnd_mark (c := 'a') (by decide) (blanks ++ front ++ ['.']) tail
      rw [spaced, split]
      simpa using last
    have unspaced (more : List Char) :
        Text.trimStart (blanks ++ front ++ ['.', 'a'] ++ more) = front ++ ['.', 'a'] ++ more := by
      rw [List.append_assoc, List.append_assoc, Text.trimStart_blanks idle]
      refine (Text.trimStart_marked fun c first => marked c ?_).trans (by simp)
      rw [split]
      cases front <;> simpa using first
    have last := Text.trimEnd_mark (c := 'a') (by decide) (front ++ ['.'])
      (withoutComment .outside (Text.trimEnd tail))
    rw [trimmed, stripComment, withoutComment_front begins, Text.trim, unspaced]
    simpa using last
  have short : kept <+: tail :=
    ((Text.trimEnd_starts _).trans (withoutComment_starts _ _)).trans (Text.trimEnd_starts tail)
  unfold directiveOf?
  rw [code, cut (['.', 'a'] ++ kept) ((List.prefix_append_right_inj ['.', 'a']).mpr short)]
  exact ⟨_, _, rfl⟩

end MipsLab
