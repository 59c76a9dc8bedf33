import MipsLab.Proofs.Source.Dropping
import MipsLab.Proofs.Source.Replacement
import MipsLab.Proofs.Source.Separators

/-! Tables of definitions that the walk has accepted. Their names are written with the characters of
labels; so whatever is no such character stays in a text, and what stands on both sides of it is
replaced each by itself. -/
namespace MipsLab

/-- A definition that the walk accepts. -/
structure IsDefinition (entry : String × String) : Prop where
  identifier : isIdentifier entry.1.toList = true
  unreserved : reserved? entry.1 = none
  filled : entry.2.toList ≠ []

/-- A table that accepted definitions have made, one after the other. -/
inductive EqvTable.Accepted : EqvTable → Prop where
  | start : Accepted {}
  | define {walk next : Walk} {operand : List Char} {tag : SourceTag}
      (earlier : Accepted walk.eqv) (defined : walk.define operand tag = .ok next) :
      Accepted next.eqv

namespace Walk

variable {disk : Disk} {directory name : String} {walk next walked : Walk}
  {lines : List (List Char × Nat)} {numbered : List Char × Nat} {path : Path}
  {contents operand : List Char} {tag : SourceTag}

theorem filled_of_definition? {value : String}
    (found : definition? operand = some (name, value)) : value.toList ≠ [] := by
  unfold definition? at found
  split at found
  · dsimp only at found
    split at found
    · cases found
    · next filled =>
      obtain ⟨-, rfl⟩ := Prod.mk.inj (Option.some.inj found)
      simpa using filled
  · cases found

theorem define_entry (defined : walk.define operand tag = .ok next) :
    ∃ name value, IsDefinition (name, value) ∧ next.eqv = (walk.eqv.define name value).2 := by
  unfold define at defined
  split at defined
  · cases defined
  · next name value found =>
    split at defined
    · cases defined
    · next unreserved =>
      split at defined
      · next identifier =>
        cases defined
        exact ⟨name, value, ⟨identifier, unreserved, filled_of_definition? found⟩, rfl⟩
      · cases defined

theorem define_accepts {value : String} (walk : Walk) (tag : SourceTag)
    (found : definition? operand = some (name, value)) (accepted : IsDefinition (name, value)) :
    ∃ next, walk.define operand tag = .ok next ∧
      next.eqv = (walk.eqv.define name value).2 := by
  simp [define, found, accepted.unreserved, accepted.identifier]

/-- A line that enters no file leaves the table as it is or makes one definition. -/
theorem Settles.accepted (settled : Settles disk directory name walk numbered (.ok next))
    (earlier : walk.eqv.Accepted) : next.eqv.Accepted := by
  obtain ⟨text, index⟩ := numbered
  have refused := settled fun path _ _ => .error (.missingFile path.text)
  unfold line at refused
  dsimp only at refused
  split at refused
  · cases refused
    exact earlier
  · split at refused
    · split at refused
      · unfold follow at refused
        grind
      · split at refused
        · exact .define earlier refused
        · cases refused
          exact earlier
    · cases refused
      exact earlier

theorem Reads.accepted {outcome : Except PreprocessError Walk}
    (reads : Reads disk directory name walk lines outcome) (ok : outcome = .ok walked)
    (earlier : walk.eqv.Accepted) : walked.eqv.Accepted := by
  induction reads generalizing walked with
  | done =>
    cases ok
    exact earlier
  | settled settled _ ih => exact ih ok (settled.accepted earlier)
  | failed => cases ok
  | @entered _ _ walk inner _ _ _ _ _ _ _ _ ihInner ihRest =>
    have within : inner.eqv.Accepted := ihInner rfl earlier
    exact ihRest ok within
  | spoiled => cases ok

end Walk

/-- The tables that lines are preprocessed with are such tables. -/
theorem Preprocessed.accepted_ofRoot {disk : Disk} {root contents : String} {pre : Preprocessed}
    (made : ofRoot disk root contents = .ok pre) : pre.eqv.Accepted := by
  obtain ⟨walk, ⟨read, reads, same⟩, rfl⟩ := ofRoot_walk made
  cases read with
  | error e => cases same
  | ok walked =>
    cases same
    have table : walked.eqv.Accepted := reads.accepted rfl .start
    exact table

namespace EqvTable

theorem define_entries {table : EqvTable} {name value : String}
    (accepted : IsDefinition (name, value))
    (earlier : ∀ entry ∈ table.entries, IsDefinition entry) :
    ∀ entry ∈ (table.define name value).2.entries, IsDefinition entry := by
  unfold define
  split
  · intro other member
    obtain ⟨old, inside, rfl⟩ := List.mem_map.mp member
    dsimp only
    split
    · next same =>
      have kept := earlier old inside
      exact ⟨kept.identifier, kept.unreserved, accepted.filled⟩
    · exact earlier old inside
  · intro other member
    rcases List.mem_append.mp member with old | new
    · exact earlier other old
    · obtain rfl := List.mem_singleton.mp new
      exact accepted

theorem Accepted.add {table : EqvTable} {name value : String} (earlier : table.Accepted)
    (operand : List Char) (found : Walk.definition? operand = some (name, value))
    (accepted : IsDefinition (name, value)) : (table.define name value).2.Accepted := by
  let walk : Walk := { Walk.start (.new [] fun _ => none) with eqv := table }
  have known : walk.eqv.Accepted := earlier
  obtain ⟨next, defined, same⟩ := walk.define_accepts ⟨"", 0⟩ found accepted
  exact same ▸ known.define defined

theorem Accepted.entries {table : EqvTable} (accepted : table.Accepted) :
    ∀ entry ∈ table.entries, IsDefinition entry := by
  induction accepted with
  | start => exact fun entry member => absurd member List.not_mem_nil
  | define earlier defined ih =>
    obtain ⟨name, value, accepted, same⟩ := Walk.define_entry defined
    rw [same]
    exact define_entries accepted ih

end EqvTable

section Marks

variable {name value front rest text : List Char} {before : Option Char} {mark : Char}

/-- A character of no word in front of a text is like none. -/
theorem replaceWordFrom_behind (apart : isWordChar mark = false) :
    replaceWordFrom name value (some mark) text = replaceWordFrom name value none text := by
  cases text with
  | nil => rw [replaceWordFrom, replaceWordFrom]
  | cons c rest => simp [replaceWordFrom, isBoundary, apart]

/-- Replacement on both sides of a character that is in no name. -/
theorem replaceWordFrom_mark (filled : name ≠ []) (foreign : mark ∉ name)
    (apart : isWordChar mark = false) :
    replaceWordFrom name value before (front ++ mark :: rest) =
      replaceWordFrom name value before front ++ mark :: replaceWordFrom name value none rest := by
  induction before, front using occurrence_induction filled with
  | nil before =>
    have absent : ¬ name <+: mark :: rest := by
      rintro ⟨after, found⟩
      obtain ⟨c, name, rfl⟩ := List.exists_cons_of_ne_nil filled
      obtain ⟨rfl, -⟩ := List.cons.inj found
      exact foreign List.mem_cons_self
    rw [List.nil_append, replaceWordFrom_pass absent, replaceWordFrom_behind apart, replaceWordFrom,
      List.nil_append]
  | occurrence before after ih =>
    have whole : isBoundary before (after ++ mark :: rest) = isBoundary before after := by
      cases after with
      | nil => simp [isBoundary, apart]
      | cons c after => rfl
    rw [List.append_assoc, replaceWordFrom_occurrence filled, replaceWordFrom_occurrence filled, ih,
      whole, List.append_assoc]
  | pass before c text absent ih =>
    -- an occurrence that reaches beyond the text would hold the mark
    have still : ¬ name <+: c :: (text ++ mark :: rest) := by
      intro found
      have start : (c :: text) ++ [mark] <+: c :: (text ++ mark :: rest) := ⟨rest, by simp⟩
      rcases List.prefix_or_prefix_of_prefix found start with within | beyond
      · rcases List.prefix_concat_iff.mp within with rfl | inside
        · exact foreign (by simp)
        · exact absent inside
      · exact foreign (beyond.subset (by simp))
    rw [List.cons_append, replaceWordFrom_pass still, replaceWordFrom_pass absent, ih,
      List.cons_append]

end Marks

section Definitions

variable {entry : String × String} {text front rest : List Char} {mark : Char}

theorem isLabelChar_of_isSeparator (separates : isSeparator mark = true) :
    isLabelChar mark = false := by
  refine eq_false_of_ne_true fun inside => ?_
  simp [isSeparator_of_isPlain (isPlain_of_isLabelChar inside)] at separates

theorem isLabelChar_of_isBlank (blank : Text.isBlank mark = true) : isLabelChar mark = false :=
  isLabelChar_of_isSeparator (by simp [isSeparator, blank])

theorem isWordChar_of_not_isLabelChar (marks : isLabelChar mark = false) :
    isWordChar mark = false := by
  simp_all [isLabelChar, isWordChar]

theorem IsDefinition.named (accepted : IsDefinition entry) : entry.1.toList ≠ [] := by
  intro empty
  have identifier := accepted.identifier
  simp [empty, isIdentifier] at identifier

theorem IsDefinition.replaceWord_eq (accepted : IsDefinition entry) (text : List Char) :
    replaceWord entry.1.toList entry.2.toList text =
      replaceWordFrom entry.1.toList entry.2.toList none text := by
  rw [replaceWord, if_neg (by simpa using accepted.named)]

theorem IsDefinition.replaceWord_mark (accepted : IsDefinition entry)
    (marks : isLabelChar mark = false) (front rest : List Char) :
    replaceWord entry.1.toList entry.2.toList (front ++ mark :: rest) =
      replaceWord entry.1.toList entry.2.toList front ++
        mark :: replaceWord entry.1.toList entry.2.toList rest := by
  have foreign : mark ∉ entry.1.toList := fun member => by
    simp [isLabelChar_of_identifier accepted.identifier mark member] at marks
  simp only [accepted.replaceWord_eq]
  exact replaceWordFrom_mark accepted.named foreign (isWordChar_of_not_isLabelChar marks)

theorem IsDefinition.replaceWord_filled (accepted : IsDefinition entry) (filled : text ≠ []) :
    replaceWord entry.1.toList entry.2.toList text ≠ [] := by
  rw [accepted.replaceWord_eq]
  obtain ⟨c, rest, rfl⟩ := List.exists_cons_of_ne_nil filled
  by_cases found : entry.1.toList <+: c :: rest
  · obtain ⟨after, same⟩ := found
    rw [← same, replaceWordFrom_occurrence accepted.named]
    split
    · simp [accepted.filled]
    · simp [accepted.named]
  · simp [replaceWordFrom_pass found]

end Definitions

namespace EqvTable

variable {table : EqvTable} {labels : List (List Char)} {text front rest : List Char} {mark : Char}

theorem apply_cons (entry : String × String) (entries : List (String × String))
    (text : List Char) : (EqvTable.mk (entry :: entries)).apply text =
      (EqvTable.mk entries).apply (replaceWord entry.1.toList entry.2.toList text) := rfl

/-- Labels, separators and opcodes are treated each by itself. -/
theorem apply_mark (accepted : ∀ entry ∈ table.entries, IsDefinition entry)
    (marks : isLabelChar mark = false) (front rest : List Char) :
    table.apply (front ++ mark :: rest) = table.apply front ++ mark :: table.apply rest := by
  obtain ⟨entries⟩ := table
  induction entries generalizing front rest with
  | nil => rfl
  | cons entry entries ih =>
    obtain ⟨first, others⟩ := List.forall_mem_cons.mp accepted
    rw [apply_cons, first.replaceWord_mark marks, ih _ _ others, apply_cons, apply_cons]

theorem apply_nil (accepted : ∀ entry ∈ table.entries, IsDefinition entry) :
    table.apply [] = [] := by
  obtain ⟨entries⟩ := table
  induction entries with
  | nil => rfl
  | cons entry entries ih =>
    obtain ⟨first, others⟩ := List.forall_mem_cons.mp accepted
    rw [apply_cons, first.replaceWord_eq, replaceWordFrom, ih others]

theorem apply_filled (accepted : ∀ entry ∈ table.entries, IsDefinition entry) (filled : text ≠ []) :
    table.apply text ≠ [] := by
  obtain ⟨entries⟩ := table
  induction entries generalizing text with
  | nil => exact filled
  | cons entry entries ih =>
    obtain ⟨first, others⟩ := List.forall_mem_cons.mp accepted
    rw [apply_cons]
    exact ih (first.replaceWord_filled filled) others

theorem apply_kept (accepted : ∀ entry ∈ table.entries, IsDefinition entry)
    (missing : ∀ entry ∈ table.entries, ¬ StandsIn entry.1.toList none text) :
    table.apply text = text := by
  obtain ⟨entries⟩ := table
  induction entries with
  | nil => rfl
  | cons entry entries ih =>
    obtain ⟨first, others⟩ := List.forall_mem_cons.mp accepted
    obtain ⟨absent, later⟩ := List.forall_mem_cons.mp missing
    rw [apply_cons, first.replaceWord_eq, replaceWordFrom_of_not_standsIn first.named absent,
      ih others later]

theorem apply_gap (accepted : ∀ entry ∈ table.entries, IsDefinition entry) {gap : List Char}
    (marks : ∀ c ∈ gap, isLabelChar c = false) (rest : List Char) :
    table.apply (gap ++ rest) = gap ++ table.apply rest := by
  induction gap with
  | nil => rfl
  | cons c gap ih =>
    obtain ⟨first, others⟩ := List.forall_mem_cons.mp marks
    have cut := apply_mark accepted first [] (gap ++ rest)
    rw [List.nil_append, apply_nil accepted, List.nil_append] at cut
    rw [List.cons_append, cut, ih others, List.cons_append]

/-- What follows a kept word is nothing or begins as before. -/
theorem apply_behind (accepted : ∀ entry ∈ table.entries, IsDefinition entry)
    (kept : table.apply front = front) (marks : ∀ c ∈ rest.head?, isLabelChar c = false) :
    ∃ tail, table.apply (front ++ rest) = front ++ tail ∧ tail.head? = rest.head? := by
  cases rest with
  | nil => exact ⟨[], by simpa using kept, rfl⟩
  | cons c rest => exact ⟨c :: table.apply rest, by rw [apply_mark accepted (marks c rfl), kept], rfl⟩

theorem apply_labelled (accepted : ∀ entry ∈ table.entries, IsDefinition entry)
    (labelled : Labelled labels front)
    (spared : ∀ label ∈ labels, ∀ c ∈ table.apply label, isLabelChar c = true) :
    ∃ front', Labelled (labels.map table.apply) front' ∧
      ∀ body, table.apply (front ++ body) = front' ++ table.apply body := by
  induction labelled with
  | nil => exact ⟨[], .nil, fun body => rfl⟩
  | @cons label blanks front labels filled all idle others ih =>
    obtain ⟨first, later⟩ := List.forall_mem_cons.mp spared
    obtain ⟨front', labelled', same⟩ := ih later
    refine ⟨_, .cons (apply_filled accepted filled) first idle labelled', fun body => ?_⟩
    rw [List.append_assoc, List.cons_append, List.append_assoc, apply_mark accepted (by decide),
      apply_gap accepted fun c member => isLabelChar_of_isBlank (idle c member), same]
    simp

end EqvTable

end MipsLab
