import MipsLab.Proofs.Text.Cuts

/-! The words of a text. They are read apart again whatever blanks were written between and around
them, and every text is written in this way. -/
namespace MipsLab.Text

/-- A text consists of these words with blanks between and around them. -/
inductive Separates : List String → List Char → Prop where
  | blanks {gap : List Char} (blank : ∀ c ∈ gap, isBlank c = true) : Separates [] gap
  | word {word : String} {words : List String} {gap rest : List Char}
      (blank : ∀ c ∈ gap, isBlank c = true) (filled : word.toList ≠ [])
      (mark : ∀ c ∈ word.toList, isBlank c = false) (ended : ∀ c ∈ rest.head?, isBlank c = true)
      (later : Separates words rest) : Separates (word :: words) (gap ++ word.toList ++ rest)

variable {c : Char} {text gap word rest : List Char}

theorem words_cons_blank (blank : isBlank c = true) (text : List Char) :
    words (c :: text) = words text := by
  have cut : pieces isBlank ([] ++ c :: text) = [] :: pieces isBlank text :=
    pieces_append (List.forall_mem_nil _) blank text
  rw [List.nil_append] at cut
  simp [words, cut]

theorem words_append_blank (blank : ∀ c ∈ gap, isBlank c = true) (text : List Char) :
    words (gap ++ text) = words text := by
  induction gap with
  | nil => rfl
  | cons c gap ih =>
    obtain ⟨here, later⟩ := List.forall_mem_cons.mp blank
    rw [List.cons_append, words_cons_blank here, ih later]

theorem words_word (filled : word ≠ []) (mark : ∀ c ∈ word, isBlank c = false)
    (ended : ∀ c ∈ rest.head?, isBlank c = true) : words (word ++ rest) = word :: words rest := by
  cases rest with
  | nil =>
    have whole : pieces isBlank word = [word] := by
      rw [pieces_eq_splitOnP]
      exact List.splitOnP_eq_singleton (by simpa using mark)
    simp [words, whole, filled, pieces]
  | cons c rest =>
    have blank := ended c rfl
    rw [words_cons_blank blank, words, pieces_append mark blank]
    simp [words, filled]

theorem Separates.words_eq {ws : List String} (separates : Separates ws text) :
    (words text).map String.ofList = ws := by
  induction separates with
  | blanks blank =>
    have none := words_append_blank blank []
    rw [List.append_nil] at none
    rw [none]
    rfl
  | word blank filled mark ended later ih =>
    rw [List.append_assoc, words_append_blank blank, words_word filled mark ended, List.map_cons,
      ih, String.ofList_toList]

/-- Every text is separated, from its front: a gap, a word up to the next blank, and what is left. -/
theorem exists_separates (text : List Char) : ∃ ws, Separates ws text := by
  induction size : text.length using Nat.strongRecOn generalizing text with
  | ind n ih =>
    have gap : ∀ c ∈ text.takeWhile isBlank, isBlank c = true :=
      fun c member => List.mem_takeWhile_imp member
    have joined : text.takeWhile isBlank ++ text.dropWhile isBlank = text :=
      List.takeWhile_append_dropWhile
    cases behind : text.dropWhile isBlank with
    | nil =>
      rw [behind, List.append_nil] at joined
      exact ⟨[], .blanks (joined ▸ gap)⟩
    | cons c others =>
      have mark : isBlank c = false := by
        have first := List.head?_dropWhile_not isBlank text
        rw [behind] at first
        simpa using first
      let word := others.takeWhile fun d => !isBlank d
      let rest := others.dropWhile fun d => !isBlank d
      have split : word ++ rest = others := List.takeWhile_append_dropWhile
      have shorter : rest.length < n := by
        have total := congrArg List.length joined
        have parts := congrArg List.length split
        simp only [behind, List.length_append, List.length_cons] at total parts
        omega
      obtain ⟨ws, later⟩ := ih _ shorter rest rfl
      have whole : text = text.takeWhile isBlank ++ (String.ofList (c :: word)).toList ++ rest := by
        rw [String.toList_ofList, List.append_assoc, List.cons_append, split, ← behind, joined]
      refine ⟨String.ofList (c :: word) :: ws, whole ▸ .word gap (by simp) ?_ ?_ later⟩
      · rw [String.toList_ofList]
        refine List.forall_mem_cons.mpr ⟨mark, fun d member => ?_⟩
        simpa using List.mem_takeWhile_imp member
      · intro d found
        have first := List.head?_dropWhile_not (fun d => !isBlank d) others
        rw [show others.dropWhile (fun d => !isBlank d) = rest from rfl, Option.mem_def.mp found]
          at first
        simpa using first

theorem separates_iff {ws : List String} :
    Separates ws text ↔ (words text).map String.ofList = ws := by
  refine ⟨Separates.words_eq, fun same => ?_⟩
  obtain ⟨others, separates⟩ := exists_separates text
  rwa [← same, separates.words_eq]

end MipsLab.Text
