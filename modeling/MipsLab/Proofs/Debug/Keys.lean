import MipsLab.Proofs.Control.Registry
import MipsLab.Proofs.Text.Cuts

/-! Keys of breakpoints. A reference to a file is cleaned once and then looked up. What it is found
to mean is a key for later calls only if it means itself; the name of a known file may, and a text
that was not found does so exactly if cleaning has nothing left to take away. -/
namespace MipsLab

namespace Text

/-- A text without the characters at its ends that satisfy `p`. -/
def stripped (p : Char → Bool) (text : List Char) : List Char :=
  ((text.dropWhile p).reverse.dropWhile p).reverse

variable {p : Char → Bool} {text : List Char}

theorem stripped_infix (p : Char → Bool) (text : List Char) : stripped p text <:+: text :=
  (List.rdropWhile_prefix p _).isInfix.trans (List.dropWhile_suffix p).isInfix

theorem dropWhile_eq_self (p : Char → Bool) (text : List Char) :
    text.dropWhile p = text ↔ ∀ c ∈ text.head?, p c = false := by
  cases text with
  | nil => simp
  | cons c rest => simp [List.dropWhile_eq_self_iff]

theorem stripped_eq_self_iff : stripped p text = text ↔
    (∀ c ∈ text.head?, p c = false) ∧ ∀ c ∈ text.getLast?, p c = false := by
  rw [← dropWhile_eq_self, ← List.head?_reverse, ← dropWhile_eq_self]
  constructor
  · intro same
    have front : text.dropWhile p = text := by
      have short := (List.rdropWhile_prefix p (text.dropWhile p)).length_le
      refine (List.dropWhile_suffix p).eq_of_length_le ?_
      exact (congrArg List.length same).ge.trans short
    rw [stripped, front, List.reverse_eq_iff] at same
    exact ⟨front, same⟩
  · rintro ⟨front, back⟩
    rw [stripped, front, back, List.reverse_reverse]

end Text

namespace PathNames

def isQuotation (c : Char) : Bool := c = '"' || c = '\x27'

def forward (c : Char) : Char := if c = '\\' then '/' else c

theorem clean_eq (reference : String) : clean reference =
    let slashed := (Text.stripped isQuotation (Text.stripped Text.isBlank reference.toList)).map
      forward
    (Text.dropStart? ['.', '/'] slashed).getD slashed := rfl

/-- A text in which cleaning finds nothing to do. -/
structure Tidy (text : List Char) : Prop where
  blankless : (∀ c ∈ text.head?, Text.isBlank c = false) ∧
    ∀ c ∈ text.getLast?, Text.isBlank c = false
  unquoted : (∀ c ∈ text.head?, isQuotation c = false) ∧
    ∀ c ∈ text.getLast?, isQuotation c = false
  slashed : '\\' ∉ text
  direct : ¬ ['.', '/'] <+: text

variable {names : PathNames} {reference name : String} {text : List Char}

theorem map_forward_eq_self_iff : text.map forward = text ↔ '\\' ∉ text := by
  constructor
  · intro same member
    rw [← same] at member
    obtain ⟨c, -, turned⟩ := List.mem_map.mp member
    unfold forward at turned
    split at turned
    · exact absurd turned (by decide)
    · next other => exact other turned
  · intro none
    refine (List.map_congr_left fun c member => ?_).trans text.map_id
    have other : c ≠ '\\' := by
      rintro rfl
      exact none member
    exact if_neg other

theorem dropStart?_eq_none_iff {start : List Char} :
    Text.dropStart? start text = none ↔ ¬ start <+: text := by
  constructor
  · rintro refused ⟨rest, rfl⟩
    exact absurd ((Text.dropStart?_append start rest).symm.trans refused) nofun
  · intro other
    cases dropped : Text.dropStart? start text with
    | none => rfl
    | some rest => exact absurd ⟨rest, (Text.eq_append_of_dropStart? dropped).symm⟩ other

/-- Each step of the cleaning makes a text shorter, or is idle; only the turning of slashes keeps
its length. -/
theorem clean_eq_self_iff : clean name = name.toList ↔ Tidy name.toList := by
  rw [clean_eq]
  generalize name.toList = text
  dsimp only
  constructor
  · intro same
    generalize slashes : (Text.stripped isQuotation (Text.stripped Text.isBlank text)).map
      forward = slashed at same
    have quotes := (Text.stripped_infix isQuotation (Text.stripped Text.isBlank text)).length_le
    have blanks := (Text.stripped_infix Text.isBlank text).length_le
    have kept : slashed.length =
        (Text.stripped isQuotation (Text.stripped Text.isBlank text)).length := by
      rw [← slashes, List.length_map]
    have direct : Text.dropStart? ['.', '/'] slashed = none := by
      cases dropped : Text.dropStart? ['.', '/'] slashed with
      | none => rfl
      | some rest =>
        have whole := congrArg List.length (Text.eq_append_of_dropStart? dropped)
        rw [dropped, Option.getD_some] at same
        simp only [same, List.length_append, List.length_cons, List.length_nil] at whole
        omega
    rw [direct, Option.getD_none] at same
    subst same
    have bare : Text.stripped Text.isBlank slashed = slashed :=
      (Text.stripped_infix _ _).eq_of_length (by omega)
    rw [bare] at slashes kept
    have plain : Text.stripped isQuotation slashed = slashed :=
      (Text.stripped_infix _ _).eq_of_length kept.symm
    rw [plain] at slashes
    exact ⟨Text.stripped_eq_self_iff.mp bare, Text.stripped_eq_self_iff.mp plain,
      map_forward_eq_self_iff.mp slashes, dropStart?_eq_none_iff.mp direct⟩
  · intro tidy
    rw [Text.stripped_eq_self_iff.mpr tidy.blankless, Text.stripped_eq_self_iff.mpr tidy.unquoted,
      map_forward_eq_self_iff.mpr tidy.slashed, dropStart?_eq_none_iff.mpr tidy.direct]
    rfl

/-- What a reference means depends on the cleaned text alone. -/
theorem normalize_congr {a b : String} (same : clean a = clean b) :
    names.normalize a = names.normalize b := by
  unfold normalize
  rw [same]

theorem mem_names_of_displayName? {path : Path} (known : names.displayName? path = some name) :
    name ∈ names.names := by
  obtain ⟨before, after, entries, -⟩ := List.lookup_eq_some_iff.mp known
  exact List.mem_map.mpr ⟨(path, name), by simp [entries], rfl⟩

/-- A reference means a known file, or else it is only cleaned. -/
theorem normalize_cases (names : PathNames) (reference : String) :
    names.normalize reference ∈ names.names ∨
      names.normalize reference = String.ofList (clean reference) := by
  unfold normalize
  dsimp only
  split
  · exact .inr rfl
  · split
    · next name only =>
      have member : name ∈ names.names.filter (baseName · = clean reference) := by simp [only]
      exact .inl (List.mem_of_mem_filter member)
    · cases found : (names.resolve (Path.joinText names.rootDir.text
          (String.ofList (clean reference)))).bind names.displayName? with
      | none => exact .inr rfl
      | some name =>
        obtain ⟨path, -, known⟩ := Option.bind_eq_some_iff.mp found
        exact .inl (mem_names_of_displayName? known)

theorem normalize_of_known (tidy : Tidy name.toList) (known : name ∈ names.names) :
    names.normalize name = name := by
  have cleaned : String.ofList (clean name) = name := by
    rw [clean_eq_self_iff.mpr tidy, String.ofList_toList]
  unfold normalize
  dsimp only
  rw [cleaned, if_pos (List.contains_iff_mem.mpr known)]

/-- What a reference means also means itself, if it is tidy. -/
theorem normalize_of_tidy (tidy : Tidy (names.normalize reference).toList) :
    names.normalize (names.normalize reference) = names.normalize reference := by
  rcases names.normalize_cases reference with known | cleaned
  · exact normalize_of_known tidy known
  · apply normalize_congr
    rw [clean_eq_self_iff.mpr tidy, cleaned, String.toList_ofList]

/-- A text that means itself, but is not a name, is what cleaning made of it. -/
theorem tidy_of_normalize (fixed : names.normalize name = name) (unknown : name ∉ names.names) :
    Tidy name.toList := by
  rcases names.normalize_cases name with known | cleaned
  · exact absurd (fixed ▸ known) unknown
  · rw [fixed] at cleaned
    apply clean_eq_self_iff.mp
    conv_rhs => rw [cleaned, String.toList_ofList]

end PathNames

namespace Debugger

variable {d : Debugger} {spelled : SourceTag}

theorem addBreakpoint_fst (d : Debugger) (file : String) (line : Nat) :
    (d.addBreakpoint file line).1 = d.names.meant ⟨file, line⟩ := by
  unfold addBreakpoint
  dsimp only
  split <;> rfl

/-- A breakpoint that is held is removed under a spelling exactly if that is what the spelling
means. -/
theorem notMem_removeBreakpoint {tag : SourceTag} (held : tag ∈ d.breakpoints) :
    tag ∉ (d.removeBreakpoint spelled.file spelled.line).2.breakpoints ↔
      d.names.meant spelled = tag := by
  rw [mem_removeBreakpoint]
  simp [held]

theorem meant_eq_self_iff {names : PathNames} {tag : SourceTag} :
    names.meant tag = tag ↔ names.normalize tag.file = tag.file := by
  obtain ⟨file, line⟩ := tag
  simp [PathNames.meant]

/-- A breakpoint is held under the key that is reported when it is set. The key, given back,
removes this breakpoint and no other if it means itself, and misses it if not. A tidy key means
itself; one that is not tidy does so at most if it is the name of a known file. -/
theorem removeBreakpoint_reported (d : Debugger) (file : String) (line : Nat) :
    let key := (d.addBreakpoint file line).1
    let held := (d.addBreakpoint file line).2.2
    let given := held.removeBreakpoint key.file key.line
    let fixed := d.names.normalize key.file = key.file
    key = ⟨d.names.normalize file, line⟩ ∧ key ∈ held.breakpoints ∧
    (key ∉ given.2.breakpoints ↔ fixed) ∧
    (fixed → given.1 = true ∧
      ∀ tag, tag ∈ given.2.breakpoints ↔ tag ∈ d.breakpoints ∧ tag ≠ key) ∧
    (PathNames.Tidy key.file.toList → fixed) ∧
    (fixed → PathNames.Tidy key.file.toList ∨ key.file ∈ d.names.names) := by
  intro key held given fixed
  have reported : key = d.names.meant ⟨file, line⟩ := d.addBreakpoint_fst file line
  have shown : key.file = d.names.normalize file := congrArg SourceTag.file reported
  have names : held.names = d.names := names_addBreakpoint file line
  have settled (same : fixed) : held.names.meant key = key := by
    rw [names]
    exact meant_eq_self_iff.mpr same
  have holds (tag : SourceTag) : tag ∈ held.breakpoints ↔ key = tag ∨ tag ∈ d.breakpoints := by
    rw [reported]
    exact @mem_addBreakpoint d ⟨file, line⟩ tag
  have member : key ∈ held.breakpoints := (holds key).mpr (.inl rfl)
  refine ⟨reported, member, ?_, fun same => ⟨?_, fun tag => ?_⟩, fun tidy => ?_, fun same => ?_⟩
  · rw [notMem_removeBreakpoint member, names]
    exact meant_eq_self_iff
  · change held.breakpoints.contains (held.names.meant key) = true
    rw [settled same]
    exact List.contains_iff_mem.mpr member
  · rw [mem_removeBreakpoint, settled same, holds]
    constructor
    · rintro ⟨rfl | old, other⟩
      · exact absurd rfl other
      · exact ⟨old, other.symm⟩
    · rintro ⟨old, other⟩
      exact ⟨.inr old, other.symm⟩
  · change d.names.normalize key.file = key.file
    rw [shown] at tidy ⊢
    exact PathNames.normalize_of_tidy tidy
  · by_cases known : key.file ∈ d.names.names
    · exact .inr known
    · exact .inl (PathNames.tidy_of_normalize same known)

/-- Two references of which cleaning leaves something to clean: the key does not mean itself, and
the breakpoint stays. -/
theorem removeBreakpoint_misses :
    let d : Debugger := .new true ((PathNames.new ["p"] fun _ => none).insert ["p", "main.asm"]).2
    ∀ spelled ∈ ["././main.asm", "\" main.asm \""],
      let key := (d.addBreakpoint spelled 2).1
      let held := (d.addBreakpoint spelled 2).2.2
      d.names.normalize key.file = "main.asm" ∧ key.file ≠ "main.asm" ∧
        (held.removeBreakpoint key.file key.line).1 = false ∧
        (held.removeBreakpoint key.file key.line).2.breakpoints = [key] := by
  decide +kernel

end Debugger

end MipsLab
