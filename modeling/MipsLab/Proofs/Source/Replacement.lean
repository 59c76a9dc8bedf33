import MipsLab.Source.Include

/-! Replacement of whole words, against a scan that replaces every whole word that it comes to. An
occurrence inside a longer word is passed over as a whole by the replacement, and so is a whole word
that begins within it. This happens to names that begin again inside themselves, behind a dot; for
all other names the replacement is the scan. -/
namespace MipsLab

/-- Scans a text from left to right, replaces `name` by `value` wherever it comes to it as a whole
word, and copies everything else. `before` is the character in front of the text. -/
def scanWords (name value : List Char) (before : Option Char) : List Char → List Char
  | [] => []
  | c :: rest =>
    let after := rest.drop (name.length - 1)
    if name.isPrefixOf (c :: rest) && isBoundary before after then
      value ++ scanWords name value name.getLast? after
    else c :: scanWords name value (some c) rest
termination_by text => text.length
decreasing_by
  · simp only [List.length_drop, List.length_cons]
    omega
  · simp

/-- The name stands as a whole word somewhere in the text. -/
def StandsIn (name : List Char) (before : Option Char) (text : List Char) : Prop :=
  ∃ front after, text = front ++ (name ++ after) ∧
    isBoundary (front.getLast?.or before) after = true

section Boundaries

variable {c : Char} {before : Option Char} {front after : List Char}

theorem getLast?_cons_or : ((c :: front).getLast?).or before = front.getLast?.or (some c) := by
  cases front with
  | nil => rfl
  | cons d front => simp [List.getLast?_cons]

theorem getLast?_append_or {name : List Char} (filled : name ≠ []) :
    ((name ++ front).getLast?).or before = front.getLast?.or name.getLast? := by
  rw [List.getLast?_append]
  cases front.getLast? with
  | some d => rfl
  | none => simp [List.getLast?_eq_some_getLast filled]

theorem isBoundary_word (word : isWordChar c = true) : isBoundary (some c) after = false := by
  simp [isBoundary, word]

end Boundaries

section Occurrences

variable {name value text after : List Char} {before : Option Char} {c : Char}

theorem drop_occurrence (filled : name ≠ []) (found : c :: text = name ++ after) :
    text.drop (name.length - 1) = after := by
  cases name with
  | nil => exact absurd rfl filled
  | cons d name =>
    obtain ⟨rfl, rfl⟩ := List.cons.inj found
    simp

theorem replaceWordFrom_occurrence (filled : name ≠ []) : replaceWordFrom name value before
    (name ++ after) = (if isBoundary before after then value else name) ++
      replaceWordFrom name value name.getLast? after := by
  cases same : name ++ after with
  | nil => exact absurd (List.append_eq_nil_iff.mp same).1 filled
  | cons c text =>
    have occurs : name.isPrefixOf (c :: text) = true :=
      List.isPrefixOf_iff_prefix.mpr ⟨after, same⟩
    rw [replaceWordFrom, if_pos occurs, drop_occurrence filled same.symm]

theorem replaceWordFrom_pass (absent : ¬ name <+: c :: text) :
    replaceWordFrom name value before (c :: text) =
      c :: replaceWordFrom name value (some c) text := by
  rw [replaceWordFrom, if_neg (by simpa using absent)]

theorem scanWords_whole (filled : name ≠ []) (whole : isBoundary before after = true) :
    scanWords name value before (name ++ after) =
      value ++ scanWords name value name.getLast? after := by
  cases same : name ++ after with
  | nil => exact absurd (List.append_eq_nil_iff.mp same).1 filled
  | cons c text =>
    have occurs : name.isPrefixOf (c :: text) = true :=
      List.isPrefixOf_iff_prefix.mpr ⟨after, same⟩
    rw [scanWords, drop_occurrence filled same.symm, occurs, whole]
    simp

theorem scanWords_pass (filled : name ≠ [])
    (partly : ∀ after, c :: text = name ++ after → isBoundary before after = false) :
    scanWords name value before (c :: text) = c :: scanWords name value (some c) text := by
  rw [scanWords, if_neg]
  rw [Bool.and_eq_true, List.isPrefixOf_iff_prefix]
  rintro ⟨⟨after, found⟩, whole⟩
  rw [drop_occurrence filled found.symm, partly after found.symm] at whole
  exact absurd whole Bool.false_ne_true

/-- Going through a text, from one occurrence of the name to the next. -/
theorem occurrence_induction (filled : name ≠ []) {motive : Option Char → List Char → Prop}
    (nil : ∀ before, motive before [])
    (occurrence : ∀ before after, motive name.getLast? after → motive before (name ++ after))
    (pass : ∀ before c text, ¬ name <+: c :: text → motive (some c) text →
      motive before (c :: text)) (before : Option Char) (text : List Char) :
    motive before text := by
  induction before, text using replaceWordFrom.induct name with
  | case1 before => exact nil before
  | case2 before c text occurs after ih =>
    obtain ⟨behind, found⟩ := List.isPrefixOf_iff_prefix.mp occurs
    have same : after = behind := drop_occurrence filled found.symm
    rw [← found]
    exact occurrence before behind (same ▸ ih)
  | case3 before c text absent ih =>
    exact pass before c text (by simpa using absent) ih

theorem StandsIn.later (stands : StandsIn name (some c) text) : StandsIn name before (c :: text) := by
  obtain ⟨front, after, rfl, whole⟩ := stands
  exact ⟨c :: front, after, rfl, by rwa [getLast?_cons_or]⟩

theorem StandsIn.behind (filled : name ≠ []) (stands : StandsIn name name.getLast? text) :
    StandsIn name before (name ++ text) := by
  obtain ⟨front, after, rfl, whole⟩ := stands
  exact ⟨name ++ front, after, by simp, by rwa [getLast?_append_or filled]⟩

theorem replaceWordFrom_of_not_standsIn (filled : name ≠ []) (missing : ¬ StandsIn name before text) :
    replaceWordFrom name value before text = text := by
  induction before, text using occurrence_induction filled with
  | nil before => rw [replaceWordFrom]
  | occurrence before after ih =>
    have partly : isBoundary before after = false :=
      eq_false_of_ne_true fun whole => missing ⟨[], after, rfl, whole⟩
    rw [replaceWordFrom_occurrence filled, ih fun stands => missing (stands.behind filled), partly]
    simp
  | pass before c text absent ih =>
    rw [replaceWordFrom_pass absent, ih fun stands => missing stands.later]

/-- If the value is shorter than the name, scanning shortens a text in which the name stands. -/
theorem length_scanWords (filled : name ≠ []) (shorter : value.length < name.length) :
    (scanWords name value before text).length ≤ text.length ∧
      (StandsIn name before text → (scanWords name value before text).length < text.length) := by
  induction before, text using scanWords.induct name with
  | case1 before =>
    rw [scanWords]
    refine ⟨Nat.le_refl _, ?_⟩
    rintro ⟨front, after, empty, -⟩
    simp [filled] at empty
  | case2 before c text after found ih =>
    rw [Bool.and_eq_true, List.isPrefixOf_iff_prefix] at found
    obtain ⟨⟨behind, occurs⟩, whole⟩ := found
    have same : after = behind := drop_occurrence filled occurs.symm
    subst same
    have total := congrArg List.length occurs
    rw [List.length_append] at total
    have least := ih.1
    rw [← occurs, scanWords_whole filled whole, List.length_append, List.length_append]
    omega
  | case3 before c text after unfound ih =>
    have partly : ∀ behind, c :: text = name ++ behind → isBoundary before behind = false := by
      intro behind occurs
      have same : after = behind := drop_occurrence filled occurs
      apply eq_false_of_ne_true
      intro whole
      rw [Bool.and_eq_true, List.isPrefixOf_iff_prefix, same] at unfound
      exact unfound ⟨⟨behind, occurs.symm⟩, whole⟩
    rw [scanWords_pass filled partly, List.length_cons, List.length_cons]
    refine ⟨Nat.succ_le_succ ih.1, ?_⟩
    rintro ⟨front, behind, split, whole⟩
    cases front with
    | nil => exact absurd whole (by simp [partly behind split])
    | cons d front =>
      obtain ⟨rfl, rfl⟩ := List.cons.inj split
      rw [getLast?_cons_or] at whole
      exact Nat.succ_lt_succ (ih.2 ⟨front, behind, rfl, whole⟩)

end Occurrences

/-- The name begins again inside itself, behind a character that belongs to no word. -/
def RestartsInside (name : List Char) : Prop :=
  ∃ front d back, name = front ++ d :: back ∧ isWordChar d = false ∧ back ≠ [] ∧ back <+: name

instance (name : List Char) : Decidable (RestartsInside name) :=
  decidable_of_iff (∃ n < name.length, name.drop (n + 1) ≠ [] ∧ name.drop (n + 1) <+: name ∧
      (name[n]?.any fun d => ! isWordChar d) = true) <| by
    constructor
    · rintro ⟨n, inside, started, again, mark⟩
      rw [List.getElem?_eq_getElem inside] at mark
      refine ⟨name.take n, name[n], name.drop (n + 1), ?_, by simpa using mark, started, again⟩
      rw [List.getElem_cons_drop, List.take_append_drop]
    · rintro ⟨front, d, back, rfl, mark, started, again⟩
      refine ⟨front.length, by simp, ?_⟩
      simp [mark, started, again]

section Restarts

variable {name value text : List Char} {before : Option Char}

/-- The rest of an occurrence is copied, since the name does not begin again in it. -/
theorem scanWords_copies (unique : ¬ RestartsInside name) {front back : List Char}
    (split : name = front ++ back) (started : front ≠ []) (after : List Char) :
    scanWords name value front.getLast? (back ++ after) =
      back ++ scanWords name value name.getLast? after := by
  induction back generalizing front with
  | nil => simp [split]
  | cons c back ih =>
    have filled : name ≠ [] := by simp [split]
    have partly : ∀ behind, c :: (back ++ after) = name ++ behind →
        isBoundary front.getLast? behind = false := by
      intro behind occurs
      obtain ⟨rest, d, rfl⟩ : ∃ rest d, front = rest ++ [d] :=
        ⟨_, _, (List.dropLast_concat_getLast started).symm⟩
      rw [List.getLast?_concat]
      cases word : isWordChar d with
      | true => exact isBoundary_word word
      | false =>
        have parts : name = rest ++ d :: (c :: back) := by simp [split]
        have shorter : (c :: back).length ≤ name.length := by
          simp only [split, List.length_append]
          omega
        have again : c :: back <+: name :=
          List.prefix_of_prefix_length_le ⟨after, rfl⟩ ⟨behind, occurs.symm⟩ shorter
        exact absurd ⟨rest, d, _, parts, word, List.cons_ne_nil _ _, again⟩ unique
    rw [List.cons_append, scanWords_pass filled partly]
    have next := @ih (front ++ [c]) (by simp [split]) (by simp)
    rw [List.getLast?_concat] at next
    rw [next, List.cons_append]

theorem replaceWordFrom_eq_scanWords (filled : name ≠ []) (unique : ¬ RestartsInside name) :
    replaceWordFrom name value before text = scanWords name value before text := by
  induction before, text using occurrence_induction filled with
  | nil before => rw [replaceWordFrom, scanWords]
  | occurrence before after ih =>
    rw [replaceWordFrom_occurrence filled]
    cases whole : isBoundary before after with
    | true => rw [scanWords_whole filled whole, ih, if_pos rfl]
    | false =>
      obtain ⟨c, back, rfl⟩ := List.exists_cons_of_ne_nil filled
      have partly : ∀ behind, c :: (back ++ after) = c :: back ++ behind →
          isBoundary before behind = false := by
        intro behind occurs
        obtain ⟨-, rest⟩ := List.cons.inj occurs
        obtain rfl : after = behind := List.append_cancel_left rest
        exact whole
      have copies : scanWords (c :: back) value [c].getLast? (back ++ after) = _ :=
        scanWords_copies unique rfl (List.cons_ne_nil _ _) after
      rw [List.getLast?_singleton] at copies
      rw [if_neg Bool.false_ne_true, List.cons_append, List.cons_append,
        scanWords_pass filled partly, copies, ih]
  | pass before c text absent ih =>
    rw [replaceWordFrom_pass absent, ih, scanWords_pass filled]
    rintro after occurs
    exact absurd ⟨after, occurs.symm⟩ absent

theorem replaceWordFrom_shorter (shorter : text.length < name.length) :
    replaceWordFrom name value before text = text := by
  induction text generalizing before with
  | nil => rw [replaceWordFrom]
  | cons c text ih =>
    have absent : ¬ name <+: c :: text := fun found => absurd found.length_le (by omega)
    rw [List.length_cons] at shorter
    rw [replaceWordFrom_pass absent, ih (by omega)]

/-- Behind a digit stands an occurrence of the name that is no word, and the word that begins
within it is not found. -/
theorem exists_overlooked (identifier : isIdentifier name = true) (again : RestartsInside name)
    (shorter : value.length < name.length) :
    ∃ text, replaceWord name value text = text ∧ scanWords name value none text ≠ text := by
  obtain ⟨front, d, back, split, mark, started, rest, whole⟩ := again
  have filled : name ≠ [] := by simp [split]
  have text : front ++ d :: name = name ++ rest :=
    calc front ++ d :: name = front ++ d :: (back ++ rest) := by rw [whole]
      _ = front ++ d :: back ++ rest := by simp
      _ = name ++ rest := by rw [← split]
  have few : rest.length < name.length := by
    have most := List.length_pos_iff.mpr started
    have total := congrArg List.length whole
    rw [List.length_append] at total
    omega
  refine ⟨'0' :: (front ++ d :: name), ?_, fun same => ?_⟩
  · have absent : ¬ name <+: '0' :: (name ++ rest) := by
      rintro ⟨after, found⟩
      cases name with
      | nil => exact absurd rfl filled
      | cons c name =>
        obtain ⟨rfl, -⟩ := List.cons.inj found
        simp [isIdentifier] at identifier
    have word : isBoundary (some '0') rest = false := isBoundary_word (by decide)
    rw [text, replaceWord, if_neg (by simpa using filled), replaceWordFrom_pass absent,
      replaceWordFrom_occurrence filled, word, if_neg Bool.false_ne_true,
      replaceWordFrom_shorter few]
  · have stands : StandsIn name none ('0' :: (front ++ d :: name)) := by
      refine ⟨'0' :: (front ++ [d]), [], by simp, ?_⟩
      have last : ('0' :: (front ++ [d])).getLast? = some d := by
        rw [← List.cons_append, List.getLast?_concat]
      simp [last, isBoundary, mark]
    have shrinks := (length_scanWords filled shorter).2 stands
    rw [same] at shrinks
    exact absurd shrinks (Nat.lt_irrefl _)

end Restarts

namespace EqvTable

/-- A table with one name scans every text for whole words, whatever the value, just if the name
does not begin again inside itself; and a table replaces its names one after the other, a name
that is defined last being replaced last. -/
theorem apply_scans {name : String} (identifier : isIdentifier name.toList = true) :
    ((∀ (value : String) (text : List Char), (EqvTable.mk [(name, value)]).apply text =
        scanWords name.toList value.toList none text) ↔ ¬ RestartsInside name.toList) ∧
      (∀ entries (text : List Char), (EqvTable.mk entries).apply text =
        entries.foldl (fun text entry => (EqvTable.mk [entry]).apply text) text) ∧
      ∀ (table : EqvTable) (value : String) (text : List Char), table.get? name = none →
        (table.define name value).2.apply text =
          (EqvTable.mk [(name, value)]).apply (table.apply text) := by
  have filled : name.toList ≠ [] := fun empty => by simp [empty, isIdentifier] at identifier
  have replaced (value : String) (text : List Char) : (EqvTable.mk [(name, value)]).apply text =
      replaceWord name.toList value.toList text := rfl
  refine ⟨⟨fun same again => ?_, fun unique value text => ?_⟩, fun _ _ => rfl, ?_⟩
  · have several : "0".toList.length < name.toList.length := by
      obtain ⟨front, d, back, split, -, started, -⟩ := again
      have most := List.length_pos_iff.mpr started
      simp only [split, List.length_append, List.length_cons]
      simp
      omega
    obtain ⟨text, kept, changed⟩ := exists_overlooked identifier again several
    rw [← same "0" text, replaced] at changed
    exact changed kept
  · rw [replaced, replaceWord, if_neg (by simpa using filled)]
    exact replaceWordFrom_eq_scanWords filled unique
  · intro table value text unknown
    simp [define, unknown, apply, List.foldl_append]

theorem apply_scans_dotted : isIdentifier "N.size".toList = true ∧
    ∀ (value : String) (text : List Char), (EqvTable.mk [("N.size", value)]).apply text =
      scanWords "N.size".toList value.toList none text := by
  have identifier : isIdentifier "N.size".toList = true := by decide
  exact ⟨identifier, (apply_scans identifier).1.mpr (by decide)⟩

/-- The name can be defined. Its second occurrence is a whole word and overlaps the first, which is
none; the scan replaces it, the table does not. -/
theorem apply_overlooks :
    reserved? "a.a" = none ∧ isIdentifier "a.a".toList = true ∧ RestartsInside "a.a".toList ∧
      (EqvTable.mk [("a.a", "7")]).apply "0a.a.a".toList = "0a.a.a".toList ∧
      scanWords "a.a".toList "7".toList none "0a.a.a".toList = "0a.7".toList := by
  decide +kernel

end EqvTable

end MipsLab
