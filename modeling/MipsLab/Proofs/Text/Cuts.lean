import Mathlib
import MipsLab.Text.Numeral

/-! Texts that were put together are cut where they were joined. A cut at a character finds the
joint if the character does not occur on one side of it, the lines of a text are those that were
written with newlines behind them, and the digits of a number are read as that number. -/
namespace MipsLab.Text

theorem pieces_eq_splitOnP (p : Char → Bool) (text : List Char) :
    pieces p text = text.splitOnP p := by
  induction text with
  | nil => simp [pieces]
  | cons c rest ih =>
    rw [List.splitOnP_cons_eq_if_modifyHead, pieces, ih]
    cases h : rest.splitOnP p with
    | nil => exact absurd h (List.splitOnP_ne_nil p rest)
    | cons piece others => simp

/-- A piece does not contain what it was cut at. -/
theorem notMem_of_mem_pieces {p : Char → Bool} {piece text : List Char}
    (h : piece ∈ pieces p text) : ∀ c ∈ piece, p c = false := by
  induction text generalizing piece with
  | nil =>
    rw [pieces, List.mem_singleton] at h
    simp [h]
  | cons c rest ih =>
    rw [pieces_eq_splitOnP, List.splitOnP_cons_eq_if_modifyHead, ← pieces_eq_splitOnP] at h
    split at h
    · rcases List.mem_cons.mp h with rfl | h
      · simp
      · exact ih h
    · rename_i other
      cases cut : pieces p rest with
      | nil => simp [cut] at h
      | cons first others =>
        rw [cut, List.modifyHead_cons] at h
        rcases List.mem_cons.mp h with rfl | h
        · have kept := ih (cut ▸ List.mem_cons_self)
          simp_all
        · exact ih (cut ▸ List.mem_cons_of_mem _ h)

theorem pieces_append {p : Char → Bool} {piece : List Char} (clean : ∀ c ∈ piece, p c = false)
    {c : Char} (cuts : p c = true) (rest : List Char) :
    pieces p (piece ++ c :: rest) = piece :: pieces p rest := by
  induction piece with
  | nil =>
    rw [List.nil_append, pieces_eq_splitOnP, List.splitOnP_cons_eq_if_modifyHead, if_pos cuts,
      ← pieces_eq_splitOnP]
  | cons d piece ih =>
    obtain ⟨here, later⟩ := List.forall_mem_cons.mp clean
    rw [List.cons_append, pieces, ih later]
    simp [here]

section Joint

variable {p : Char → Bool} {before after : List Char} {c : Char}

theorem cutFirst_append (clean : ∀ d ∈ before, p d = false) (cuts : p c = true) :
    cutFirst p (before ++ c :: after) = some (before, c, after) := by
  induction before with
  | nil => simp [cutFirst, cuts]
  | cons d before ih =>
    obtain ⟨here, later⟩ := List.forall_mem_cons.mp clean
    simp [cutFirst, here, ih later]

theorem cutLast_append (clean : ∀ d ∈ after, p d = false) (cuts : p c = true) :
    cutLast p (before ++ c :: after) = some (before, c, after) := by
  have turned : (before ++ c :: after).reverse = after.reverse ++ c :: before.reverse := by simp
  rw [cutLast, turned, cutFirst_append (fun d member => clean d (List.mem_reverse.mp member)) cuts]
  simp

theorem eq_append_of_cutFirst {text : List Char} (cut : cutFirst p text = some (before, c, after)) :
    text = before ++ c :: after ∧ p c = true := by
  induction text generalizing before with
  | nil => exact absurd cut nofun
  | cons d rest ih =>
    rw [cutFirst] at cut
    split at cut
    · next here =>
      cases cut
      exact ⟨rfl, here⟩
    · obtain ⟨⟨front, _, _⟩, found, same⟩ := Option.map_eq_some_iff.mp cut
      cases same
      obtain ⟨whole, cuts⟩ := ih found
      exact ⟨by rw [whole, List.cons_append], cuts⟩

theorem eq_append_of_cutLast {text : List Char} (cut : cutLast p text = some (before, c, after)) :
    text = before ++ c :: after ∧ p c = true := by
  obtain ⟨⟨tail, _, front⟩, found, same⟩ := Option.map_eq_some_iff.mp cut
  cases same
  obtain ⟨turned, cuts⟩ := eq_append_of_cutFirst found
  have whole := congrArg List.reverse turned
  exact ⟨by simpa using whole, cuts⟩

end Joint

theorem dropStart?_append (start text : List Char) :
    dropStart? start (start ++ text) = some text := by
  induction start with
  | nil => rfl
  | cons s start ih => rw [List.cons_append, dropStart?, if_pos rfl, ih]

theorem eq_append_of_dropStart? {start text rest : List Char}
    (dropped : dropStart? start text = some rest) : text = start ++ rest := by
  induction start generalizing text with
  | nil => exact Option.some.inj dropped
  | cons s start ih =>
    cases text with
    | nil => exact absurd dropped nofun
    | cons c text =>
      rw [dropStart?] at dropped
      split at dropped
      · next same => rw [same, ih dropped, List.cons_append]
      · exact absurd dropped nofun

theorem dropEnd?_append (text ending : List Char) :
    dropEnd? ending (text ++ ending) = some text := by
  rw [dropEnd?, List.reverse_append, dropStart?_append, Option.map_some, List.reverse_reverse]

theorem eq_append_of_dropEnd? {ending text rest : List Char}
    (dropped : dropEnd? ending text = some rest) : text = rest ++ ending := by
  obtain ⟨turned, found, rfl⟩ := Option.map_eq_some_iff.mp dropped
  have same := congrArg List.reverse (eq_append_of_dropStart? found)
  simpa using same

theorem trimEnd_append {front : List Char} {c : Char} (mark : isBlank c = false) :
    trimEnd (front ++ [c]) = front ++ [c] := by
  simp [trimEnd, mark]

theorem trimStart_subset (text : List Char) : trimStart text ⊆ text :=
  (List.dropWhile_sublist _).subset

theorem trimEnd_subset (text : List Char) : trimEnd text ⊆ text := by
  intro c member
  have turned := (List.dropWhile_sublist isBlank).subset (List.mem_reverse.mp member)
  exact List.mem_reverse.mp turned

theorem trim_subset (text : List Char) : trim text ⊆ text :=
  fun _ member => trimStart_subset text (trimEnd_subset _ member)

/-- The lines that were written, each with a newline behind it, are read back, except that a
carriage return in front of the newline is lost. -/
theorem lines_flatMap {written : List (List Char)} (clean : ∀ line ∈ written, '\n' ∉ line) :
    lines (written.flatMap (· ++ ['\n'])) =
      written.map fun line => (dropEnd? ['\r'] line).getD line := by
  have cut : pieces (· = '\n') (written.flatMap (· ++ ['\n'])) = written ++ [[]] := by
    induction written with
    | nil => rfl
    | cons line written ih =>
      obtain ⟨here, later⟩ := List.forall_mem_cons.mp clean
      rw [List.flatMap_cons, List.append_assoc, List.singleton_append, pieces_append _ (by simp),
        ih later, List.cons_append]
      intro c member
      have other : c ≠ '\n' := fun same => here (same ▸ member)
      simpa using other
  simp [lines, cut]

theorem newline_notMem_of_mem_lines {line text : List Char} (member : line ∈ lines text) :
    '\n' ∉ line := by
  have whole {piece : List Char} (cut : piece ∈ pieces (· = '\n') text) : '\n' ∉ piece := by
    intro inside
    simpa using notMem_of_mem_pieces cut '\n' inside
  have shortened {piece : List Char} (cut : piece ∈ pieces (· = '\n') text) :
      '\n' ∉ (dropEnd? ['\r'] piece).getD piece := by
    cases dropped : dropEnd? ['\r'] piece with
    | none => exact whole cut
    | some rest =>
      have outside := whole cut
      rw [eq_append_of_dropEnd? dropped, List.mem_append, not_or] at outside
      exact outside.1
  have finished (cut : line ∈ (pieces (· = '\n') text).dropLast.map
      fun line => (dropEnd? ['\r'] line).getD line) : '\n' ∉ line := by
    obtain ⟨piece, inside, rfl⟩ := List.mem_map.mp cut
    exact shortened (List.mem_of_mem_dropLast inside)
  unfold lines at member
  dsimp only at member
  split at member
  · exact finished member
  · exact finished member
  · next last _ found =>
    rcases List.mem_append.mp member with early | late
    · exact finished early
    · obtain rfl := List.mem_singleton.mp late
      exact whole (List.mem_of_getLast? found)

theorem natural?_eq {digits : List Char} (filled : digits ≠ [])
    (all : ∀ c ∈ digits, c.isDigit = true) :
    natural? 10 digits = some (Nat.ofDigitChars 10 digits 0) := by
  have value {c : Char} (digit : c.isDigit = true) :
      digitValue? 10 c = some (c.toNat - '0'.toNat) := by
    have small : c.toNat - '0'.toNat < 10 := by
      have bound := Char.isDigit_iff_toNat.mp digit
      simp only [Char.reduceToNat] at bound ⊢
      omega
    simp only [digitValue?, digit, if_true]
    exact Option.filter_some_pos (by simpa using small)
  have read (start : Nat) : digits.foldlM
      (fun value c => (digitValue? 10 c).map (10 * value + ·)) start =
        some (Nat.ofDigitChars 10 digits start) := by
    clear filled
    induction digits generalizing start with
    | nil => rfl
    | cons c digits ih =>
      obtain ⟨here, later⟩ := List.forall_mem_cons.mp all
      rw [List.foldlM_cons, value here]
      exact ih later _
  rw [natural?, if_neg (by simpa using filled), read]

/-- The digits of a number are read as that number, if there is room for it. -/
theorem unsigned?_toDigits {bits n : Nat} (room : n < Nat.pow 2 bits) :
    unsigned? bits (Nat.toDigits 10 n) = some n := by
  have all : ∀ c ∈ Nat.toDigits 10 n, c.isDigit = true := fun c member =>
    Nat.isDigit_of_mem_toDigits (by decide) (by decide) member
  have unmarked : dropStart? ['+'] (Nat.toDigits 10 n) = none := by
    cases dropped : dropStart? ['+'] (Nat.toDigits 10 n) with
    | none => rfl
    | some rest =>
      have plus := all '+' (by rw [eq_append_of_dropStart? dropped]; simp)
      exact absurd plus (by decide)
  rw [unsigned?, unmarked, Option.getD_none, naturalIn?, natural?_eq Nat.toDigits_ne_nil all,
    Nat.ofDigitChars_toDigits (by decide) (by decide)]
  exact Option.filter_some_pos (by simpa using room)

end MipsLab.Text
