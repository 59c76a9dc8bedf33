import MipsLab.Proofs.Source.Spelling

/-! Labels in front of a line. What the reader splits off is what labels look like when they are
written: each with its colon, and perhaps blanks behind it. -/
namespace MipsLab

theorem isPlain_of_isLabelChar {c : Char} (inside : isLabelChar c = true) : isPlain c = true := by
  apply isPlain_of_isBare
  simp only [isLabelChar, Bool.or_eq_true, decide_eq_true_eq] at inside
  rcases inside with (alphanumeric | rfl) | rfl
  · simp [isBare, alphanumeric]
  · decide
  · decide

theorem isLabelChar_of_identifier {name : List Char} (identifier : isIdentifier name = true) :
    ∀ c ∈ name, isLabelChar c = true := by
  cases name with
  | nil => cases identifier
  | cons c rest =>
    simp only [isIdentifier, Bool.and_eq_true, Bool.or_eq_true, decide_eq_true_eq,
      List.all_eq_true] at identifier
    obtain ⟨letter, others⟩ := identifier
    refine List.forall_mem_cons.mpr ⟨?_, fun d member => ?_⟩
    · rcases letter with alphabetic | rfl
      · simp [isLabelChar, Char.isAlphanum, alphabetic]
      · decide
    · simpa [isLabelChar] using others d member

/-- Labels, and a text in which they are written one behind another. -/
inductive Labelled : List (List Char) → List Char → Prop where
  | nil : Labelled [] []
  | cons {label blanks front : List Char} {labels : List (List Char)} (filled : label ≠ [])
      (all : ∀ c ∈ label, isLabelChar c = true) (idle : ∀ c ∈ blanks, Text.isBlank c = true)
      (others : Labelled labels front) :
      Labelled (label :: labels) (label ++ ':' :: (blanks ++ front))

namespace Labelled

variable {labels : List (List Char)} {front body : List Char}

theorem clean (labelled : Labelled labels front) : ∀ c ∈ front, isFrontChar c = true := by
  induction labelled with
  | nil => exact fun c member => absurd member List.not_mem_nil
  | cons filled all idle others ih =>
    intro c member
    simp only [List.mem_append, List.mem_cons] at member
    rcases member with named | rfl | blank | later
    · simp [isFrontChar, all c named]
    · decide
    · simp [isFrontChar, idle c blank]
    · exact ih c later

/-- No blank stands in front of the labels. -/
theorem marked (labelled : Labelled labels front)
    (start : ∀ c ∈ body.head?, Text.isBlank c = false) :
    ∀ c ∈ (front ++ body).head?, Text.isBlank c = false := by
  cases labelled with
  | nil => exact start
  | cons filled all idle others =>
    intro c first
    rw [List.append_assoc, List.head?_append_of_ne_nil _ filled] at first
    exact isBlank_of_isPlain (isPlain_of_isLabelChar (all c (List.mem_of_mem_head? first)))

/-- Written labels are split off, if what follows them does not begin with another one. -/
theorem splitLabels_eq (labelled : Labelled labels front)
    (start : ∀ c ∈ body.head?, Text.isBlank c = false) (unlabelled : splitLabel? body = none) :
    splitLabels (front ++ body) = (labels, body) := by
  induction labelled with
  | nil => exact splitLabels_none unlabelled
  | @cons label blanks front labels filled all idle others ih =>
    have found := splitLabel?_append filled all (blanks ++ front ++ body)
    have trimmed : Text.trimStart (blanks ++ front ++ body) = front ++ body := by
      rw [List.append_assoc, Text.trimStart_blanks idle]
      exact Text.trimStart_marked (others.marked start)
    rw [List.append_assoc, List.cons_append, splitLabels_some found, trimmed, ih]

end Labelled

/-- A line is its labels and a rest that begins neither with a label nor, unless the line does, with
a blank. -/
theorem exists_labelled {text : List Char} (start : ∀ c ∈ text.head?, Text.isBlank c = false) :
    ∃ front, text = front ++ (splitLabels text).2 ∧ Labelled (splitLabels text).1 front ∧
      splitLabel? (splitLabels text).2 = none ∧
      ∀ c ∈ (splitLabels text).2.head?, Text.isBlank c = false := by
  induction text using splitLabels.induct with
  | case1 text unlabelled =>
    rw [splitLabels_none unlabelled]
    exact ⟨[], rfl, .nil, unlabelled, start⟩
  | case2 text label rest found _ _ _ _ ih =>
    obtain ⟨blanks, spaced, idle, first⟩ := Text.trimStart_cases rest
    obtain ⟨front, split, labelled, unlabelled, begins⟩ := ih first
    obtain ⟨rfl, filled, all⟩ := splitLabel?_some found
    rw [splitLabels_some found]
    refine ⟨_, ?_, .cons filled all idle labelled, unlabelled, begins⟩
    rw [List.append_assoc, List.cons_append, List.append_assoc, ← split, ← spaced]

end MipsLab
