import MipsLab.Assembly.Assembler
import MipsLab.Proofs.Source.Inclusion

/-! The tagged form of linked lines loses nothing. A line is taken apart from its right end, where
the tag stands, so that its text may hold anything but a newline; and preprocessing makes no
newlines, since neither the lines of a file nor the values of definitions have any. The lines that
are read back assemble to what the linked ones assemble to. -/
namespace MipsLab

namespace SourceLine

/-- A line whose tag can be read back: the name of its file has no quote in it, and its number fits
into a machine word. -/
structure Readable (line : SourceLine) : Prop where
  unquoted : '"' ∉ line.tag.file.toList
  counted : line.tag.line < Nat.pow 2 64

theorem suffix_eq (tag : SourceTag) (text : List Char) :
    tag.suffix text =
      text ++ [' ', ' '] ++ '"' :: tag.file.toList ++ ['"'] ++ ' ' :: Nat.toDigits 10 tag.line := by
  simp [SourceTag.suffix, SourceTag.text, Nat.toString_eq_repr, Nat.toList_repr]

theorem suffix_ends (tag : SourceTag) (text : List Char) :
    ∃ front d, tag.suffix text = front ++ [d] ∧ d.isDigit = true := by
  obtain ⟨digits, d, split⟩ : ∃ digits d, Nat.toDigits 10 tag.line = digits ++ [d] :=
    ⟨_, _, (List.dropLast_append_getLast Nat.toDigits_ne_nil).symm⟩
  have member : d ∈ Nat.toDigits 10 tag.line := by simp [split]
  have digit := Nat.isDigit_of_mem_toDigits (by decide) (by decide) member
  refine ⟨text ++ [' ', ' '] ++ '"' :: tag.file.toList ++ ['"'] ++ ' ' :: digits, d, ?_, digit⟩
  rw [suffix_eq, split]
  simp

theorem isBlank_of_isDigit {c : Char} (digit : c.isDigit = true) : Text.isBlank c = false := by
  have bound := Char.isDigit_iff_toNat.mp digit
  simp only [Char.reduceToNat] at bound
  simp only [Text.isBlank, Bool.or_eq_false_iff, Bool.and_eq_false_iff, decide_eq_false_iff_not,
    beq_eq_false_iff_ne]
  omega

theorem ofTagged?_suffix {line : SourceLine} (readable : line.Readable) :
    ofTagged? (line.tag.suffix line.text) = some line := by
  have digits : ∀ d ∈ Nat.toDigits 10 line.tag.line, decide (d = ' ') = false := by
    intro d member
    have digit := Nat.isDigit_of_mem_toDigits (by decide) (by decide) member
    refine decide_eq_false fun same => ?_
    exact absurd (same ▸ digit) (by decide)
  have name : ∀ d ∈ line.tag.file.toList, decide (d = '"') = false := fun d member =>
    decide_eq_false fun same => readable.unquoted (same ▸ member)
  obtain ⟨front, last, ends, digit⟩ := suffix_ends line.tag line.text
  rw [ofTagged?, ends, Text.trimEnd_append (isBlank_of_isDigit digit), ← ends, suffix_eq,
    Text.cutLast_append digits (decide_eq_true rfl)]
  simp only [Option.bind_eq_bind, Option.bind_some, Text.unsigned?_toDigits readable.counted,
    Text.dropEnd?_append, Text.cutLast_append name (decide_eq_true rfl), String.ofList_toList]
  rfl

theorem tagged_nil {line : SourceLine} (blank : line.text = []) : line.tagged = [] := by
  rw [tagged, blank]
  rfl

theorem tagged_eq {line : SourceLine} (filled : line.text ≠ []) :
    line.tagged = line.tag.suffix line.text := by
  rw [tagged, if_neg (by simpa using filled)]

/-- A tagged line is read as it stands: it does not end in a carriage return. -/
theorem dropEnd?_tagged (line : SourceLine) :
    (Text.dropEnd? ['\r'] line.tagged).getD line.tagged = line.tagged := by
  by_cases blank : line.text = []
  · rw [tagged_nil blank]
    rfl
  · obtain ⟨front, d, ends, digit⟩ := suffix_ends line.tag line.text
    rw [tagged_eq blank, ends]
    cases dropped : Text.dropEnd? ['\r'] (front ++ [d]) with
    | none => rfl
    | some rest =>
      obtain ⟨-, same⟩ := List.append_inj' (Text.eq_append_of_dropEnd? dropped) rfl
      obtain rfl := List.singleton_inj.mp same
      exact absurd digit (by decide)

/-- No newline in the text of a line, and none in the name of its file. -/
structure Oneline (line : SourceLine) : Prop where
  text : '\n' ∉ line.text
  file : '\n' ∉ line.tag.file.toList

theorem newline_notMem_tagged {line : SourceLine} (oneline : line.Oneline) :
    '\n' ∉ line.tagged := by
  by_cases blank : line.text = []
  · rw [tagged_nil blank]
    exact List.not_mem_nil
  · have digits : '\n' ∉ Nat.toDigits 10 line.tag.line := fun member =>
      absurd (Nat.isDigit_of_mem_toDigits (by decide) (by decide) member) (by decide)
    rw [tagged_eq blank, suffix_eq]
    simp [oneline.text, oneline.file, digits]

theorem lines_taggedText {lines : List SourceLine} (oneline : ∀ line ∈ lines, line.Oneline) :
    Text.lines (taggedText lines).toList = lines.map tagged := by
  have clean : ∀ written ∈ lines.map tagged, '\n' ∉ written := by
    intro written member
    obtain ⟨line, inside, rfl⟩ := List.mem_map.mp member
    exact newline_notMem_tagged (oneline line inside)
  have text : (taggedText lines).toList = (lines.map tagged).flatMap (· ++ ['\n']) := by
    rw [taggedText, String.toList_ofList, List.flatMap_map]
  rw [text, Text.lines_flatMap clean, List.map_map]
  exact List.map_congr_left fun line _ => dropEnd?_tagged line

theorem length_lines_untaggedText {lines : List SourceLine}
    (oneline : ∀ line ∈ lines, line.Oneline) :
    (Text.lines (untaggedText lines).toList).length = lines.length := by
  have clean : ∀ written ∈ lines.map SourceLine.text, '\n' ∉ written := by
    intro written member
    obtain ⟨line, inside, rfl⟩ := List.mem_map.mp member
    exact (oneline line inside).text
  have text : (untaggedText lines).toList =
      (lines.map SourceLine.text).flatMap (· ++ ['\n']) := by
    rw [untaggedText, String.toList_ofList, List.flatMap_map]
  rw [text, Text.lines_flatMap clean, List.length_map, List.length_map]

end SourceLine

/-! What preprocessing puts on a line. -/

theorem withoutComment_subset (q : Quoting) (line : List Char) : withoutComment q line ⊆ line := by
  induction line generalizing q with
  | nil => exact List.Subset.refl _
  | cons c rest ih =>
    rw [withoutComment]
    split
    · exact List.nil_subset _
    · exact List.cons_subset_cons c (ih (q.next c))

theorem splitLabel?_subset {text label rest : List Char}
    (found : splitLabel? text = some (label, rest)) : rest ⊆ text := by
  unfold splitLabel? at found
  split at found
  · next first front tail _ dropped =>
    obtain ⟨-, rfl⟩ := Prod.mk.inj (Option.some.inj found)
    have behind : ':' :: tail ⊆ text := dropped ▸ (List.dropWhile_sublist isLabelChar).subset
    exact fun c member => behind (List.mem_cons_of_mem ':' member)
  · exact absurd found nofun

theorem splitLabels_subset (text : List Char) : (splitLabels text).2 ⊆ text := by
  induction text using splitLabels.induct with
  | case1 text unlabelled =>
    rw [splitLabels]
    split
    · exact List.Subset.refl _
    · next found => exact absurd (unlabelled.symm.trans found) nofun
  | case2 text label rest found _ labels body _ ih =>
    have inner : (splitLabels (Text.trimStart rest)).2 ⊆ text := fun c member =>
      splitLabel?_subset found (Text.trimStart_subset rest (ih member))
    rw [splitLabels]
    split
    · exact List.Subset.refl _
    · next label' rest' found' =>
      obtain ⟨-, rfl⟩ := Prod.mk.inj (Option.some.inj (found.symm.trans found'))
      exact inner

/-- Every character of a text in which words were replaced comes from the text or a replacement. -/
theorem mem_replaceWordFrom {name value text : List Char} {before : Option Char} {c : Char}
    (member : c ∈ replaceWordFrom name value before text) : c ∈ text ∨ c ∈ value := by
  induction before, text using replaceWordFrom.induct name with
  | case1 before => exact absurd member (by simp [replaceWordFrom])
  | case2 before d rest here after ih =>
    rw [replaceWordFrom, if_pos here] at member
    dsimp only at member
    rcases List.mem_append.mp member with replaced | later
    · split at replaced
      · exact .inr replaced
      · exact .inl ((List.isPrefixOf_iff_prefix.mp here).subset replaced)
    · exact (ih later).imp_left fun inside => List.mem_cons_of_mem d (List.mem_of_mem_drop inside)
  | case3 before d rest here ih =>
    rw [replaceWordFrom, if_neg here] at member
    rcases List.mem_cons.mp member with rfl | later
    · exact .inl List.mem_cons_self
    · exact (ih later).imp_left (List.mem_cons_of_mem d)

theorem mem_fillGaps {value text : List Char} {before : Option Char} {c : Char}
    (member : c ∈ fillGaps value before text) : c ∈ text ∨ c ∈ value := by
  induction text generalizing before with
  | nil =>
    rw [fillGaps] at member
    split at member
    · exact .inr member
    · exact .inl member
  | cons d rest ih =>
    rw [fillGaps] at member
    rcases List.mem_append.mp member with filled | kept
    · split at filled
      · exact .inr filled
      · exact absurd filled List.not_mem_nil
    · rcases List.mem_cons.mp kept with rfl | later
      · exact .inl List.mem_cons_self
      · exact (ih later).imp_left (List.mem_cons_of_mem d)

theorem mem_replaceWord {name value text : List Char} {c : Char}
    (member : c ∈ replaceWord name value text) : c ∈ text ∨ c ∈ value := by
  unfold replaceWord at member
  split at member
  · exact mem_fillGaps member
  · exact mem_replaceWordFrom member

namespace EqvTable

def Oneline (table : EqvTable) : Prop := ∀ entry ∈ table.entries, '\n' ∉ entry.2.toList

theorem Oneline.define {table : EqvTable} (oneline : table.Oneline) (name : String) {value : String}
    (clean : '\n' ∉ value.toList) : (table.define name value).2.Oneline := by
  unfold EqvTable.define
  split
  · intro entry member
    obtain ⟨old, inside, rfl⟩ := List.mem_map.mp member
    dsimp only
    split
    · exact clean
    · exact oneline old inside
  · intro entry member
    rcases List.mem_append.mp member with old | new
    · exact oneline entry old
    · obtain rfl := List.mem_singleton.mp new
      exact clean

theorem Oneline.apply {table : EqvTable} (oneline : table.Oneline) {text : List Char}
    (clean : '\n' ∉ text) : '\n' ∉ table.apply text := by
  obtain ⟨entries⟩ := table
  unfold EqvTable.apply
  induction entries generalizing text with
  | nil => exact clean
  | cons entry entries ih =>
    obtain ⟨first, others⟩ := List.forall_mem_cons.mp oneline
    refine ih (fun member => ?_) others
    rcases mem_replaceWord member with old | new
    · exact clean old
    · exact first new

end EqvTable

theorem newline_notMem_processLine {eqv : EqvTable} (oneline : eqv.Oneline) {raw : List Char}
    (clean : '\n' ∉ raw) : '\n' ∉ processLine eqv raw := by
  have code : '\n' ∉ Text.trimEnd (stripComment raw) := fun member =>
    clean (withoutComment_subset .outside raw (Text.trimEnd_subset _ member))
  unfold processLine
  split
  · exact fun member => clean (Text.trimEnd_subset raw member)
  · dsimp only
    split
    · exact code
    · exact oneline.apply code

theorem directiveOf?_subset {line name operand : List Char}
    (found : directiveOf? line = some (name, operand)) : operand ⊆ line := by
  have body : (splitLabels (Text.trim (stripComment line))).2 ⊆ line := fun c member =>
    withoutComment_subset .outside line (Text.trim_subset _ (splitLabels_subset _ member))
  unfold directiveOf? at found
  split at found
  · next rest directive =>
    obtain ⟨-, rfl⟩ := Prod.mk.inj (Option.some.inj found)
    rw [directive] at body
    exact fun c member => body ((List.dropWhile_sublist _).subset (Text.trim_subset _ member))
  · exact absurd found nofun

namespace Walk

variable {disk : Disk} {directory name : String} {walk next : Walk} {path : Path}
  {contents operand : List Char} {enter : Path → List Char → Walk → Except PreprocessError Walk}

theorem definition?_subset {name value : String}
    (found : definition? operand = some (name, value)) : value.toList ⊆ operand := by
  unfold definition? at found
  split at found
  · next first c after cut =>
    dsimp only at found
    split at found
    · exact absurd found nofun
    · obtain ⟨-, rfl⟩ := Prod.mk.inj (Option.some.inj found)
      rw [String.toList_ofList, (Text.eq_append_of_cutFirst cut).1]
      exact fun d member => List.mem_append_right _
        (List.mem_cons_of_mem c (Text.trim_subset after member))
  · exact absurd found nofun

theorem oneline_define {tag : SourceTag} (clean : '\n' ∉ operand) (oneline : walk.eqv.Oneline)
    (defined : walk.define operand tag = .ok next) : next.eqv.Oneline := by
  unfold define at defined
  split at defined
  · cases defined
  · next name value found =>
    split at defined
    · cases defined
    · split at defined
      · cases defined
        exact oneline.define name fun member => clean (definition?_subset found member)
      · cases defined

/-- Reading a file leaves the values of the definitions without newlines. -/
def KeepsOneline (enter : Path → List Char → Walk → Except PreprocessError Walk) : Prop :=
  ∀ path contents walk next, enter path contents walk = .ok next → walk.eqv.Oneline →
    next.eqv.Oneline

theorem oneline_follow (kept : KeepsOneline enter) {tag : SourceTag} (oneline : walk.eqv.Oneline)
    (followed : follow disk enter directory walk operand tag = .ok next) : next.eqv.Oneline := by
  unfold follow at followed
  split at followed
  · cases followed
  · dsimp only at followed
    split at followed
    · cases followed
    · split at followed
      · cases followed
      · split at followed
        · cases followed
          exact oneline
        · split at followed
          · cases followed
          · exact kept _ _ walk next followed oneline

theorem oneline_line (kept : KeepsOneline enter) {numbered : List Char × Nat}
    (clean : '\n' ∉ numbered.1) (oneline : walk.eqv.Oneline)
    (went : line disk enter directory name walk numbered = .ok next) : next.eqv.Oneline := by
  unfold line at went
  dsimp only at went
  split at went
  · cases went
    exact oneline
  · split at went
    · next directive operand found =>
      split at went
      · exact oneline_follow kept oneline went
      · split at went
        · exact oneline_define (fun member => clean (directiveOf?_subset found member)) oneline went
        · cases went
          exact oneline
    · cases went
      exact oneline

theorem oneline_lines (kept : KeepsOneline enter) {lines : List (List Char × Nat)}
    (clean : ∀ numbered ∈ lines, '\n' ∉ numbered.1) (oneline : walk.eqv.Oneline)
    (went : lines.foldlM (line disk enter directory name) walk = .ok next) : next.eqv.Oneline := by
  induction lines generalizing walk with
  | nil =>
    cases went
    exact oneline
  | cons numbered lines ih =>
    obtain ⟨first, others⟩ := List.forall_mem_cons.mp clean
    rw [List.foldlM_cons] at went
    cases moved : line disk enter directory name walk numbered with
    | error e =>
      rw [moved] at went
      cases went
    | ok later =>
      rw [moved] at went
      exact ih others (oneline_line kept first oneline moved) went

theorem newline_notMem_of_mem_zipIdx {numbered : List Char × Nat}
    (member : numbered ∈ (Text.lines contents).zipIdx) : '\n' ∉ numbered.1 := by
  have inside : numbered.1 ∈ Text.lines contents := by
    rw [← List.zipIdx_map_fst 0 (Text.lines contents)]
    exact List.mem_map_of_mem member
  exact Text.newline_notMem_of_mem_lines inside

theorem keepsOneline_file (kept : KeepsOneline enter) (directory : String) :
    KeepsOneline (file disk enter directory) := by
  intro path contents walk next went oneline
  rw [file_eq] at went
  cases moved : (Text.lines contents).zipIdx.foldlM
      (line disk enter directory (walk.shownName path)) (walk.opened path) with
  | error e =>
    rw [moved] at went
    cases went
  | ok walked =>
    rw [moved] at went
    cases went
    have clean : ∀ numbered ∈ (Text.lines contents).zipIdx, '\n' ∉ numbered.1 :=
      fun _ member => newline_notMem_of_mem_zipIdx member
    have start : (walk.opened path).eqv.Oneline := oneline
    have walkedOneline : walked.eqv.Oneline := oneline_lines kept clean start moved
    exact walkedOneline

theorem keepsOneline_visit (budget : Nat) (directory : String) :
    KeepsOneline (visit disk budget directory) := by
  induction budget generalizing directory with
  | zero => exact keepsOneline_file (fun _ _ _ _ refused => absurd refused (by simp)) directory
  | succ budget ih =>
    have inner : KeepsOneline fun path => visit disk budget path.parent.text path :=
      fun path => ih path.parent.text path
    exact keepsOneline_file inner directory

end Walk

namespace Preprocessed

variable {disk : Disk} {root contents : String} {pre : Preprocessed}

theorem ofRoot_oneline (made : ofRoot disk root contents = .ok pre) :
    pre.eqv.Oneline ∧ ∀ file ∈ pre.files,
      ∃ text, file.lines = processText pre.eqv file.name text := by
  unfold ofRoot at made
  dsimp only at made
  cases walked : Walk.visit disk disk.files.length (Path.parentText root) (Path.join [] root)
    contents.toList (.start (.new (Path.join [] root).parent disk.resolve)) with
  | error e =>
    rw [walked] at made
    cases made
  | ok walk =>
    rw [walked] at made
    cases made
    refine ⟨Walk.keepsOneline_visit _ _ _ _ _ _ walked fun _ member => ?_, fun file member => ?_⟩
    · exact absurd member List.not_mem_nil
    · obtain ⟨raw, _, rfl⟩ := List.mem_map.mp member
      exact ⟨raw.contents, rfl⟩

theorem link_lines (made : ofRoot disk root contents = .ok pre) {line : SourceLine}
    (linked : line ∈ pre.link) : '\n' ∉ line.text ∧
      ∃ file ∈ pre.files, line.tag.file = file.name ∧ line.tag.line ≤ file.lines.length := by
  obtain ⟨oneline, processed⟩ := ofRoot_oneline made
  obtain ⟨file, member, inside⟩ := List.mem_flatMap.mp (List.mem_filter.mp linked).1
  obtain ⟨text, lines⟩ := processed file member
  rw [lines] at inside
  obtain ⟨⟨raw, index⟩, numbered, rfl⟩ := List.mem_map.mp inside
  have clean := Walk.newline_notMem_of_mem_zipIdx numbered
  refine ⟨newline_notMem_processLine oneline clean, file, member, rfl, ?_⟩
  have bound := List.snd_lt_of_mem_zipIdx numbered
  simpa [lines, processText] using bound

end Preprocessed

/-- A linked line as it is read back from the tagged text. Where nothing can be read there is a
blank line, under whatever tag. -/
def SourceLine.ReadAs (written : List Char) (line : SourceLine) : Prop :=
  match ofTagged? written with
  | some read => line = read
  | none => line.text = []

/-- The same program, apart from the lines and the names that it was made from. -/
structure Program.SameImage (p q : Program) : Prop where
  text : p.text = q.text
  data : p.data = q.data
  symbols : p.symbols = q.symbols
  declarations : p.declarations = q.declarations
  instructions : p.instructions = q.instructions
  entry : p.entry = q.entry

/-- The same program with the same warnings, or the same error, if perhaps at another line. -/
def SameAssembly : Except LocatedError Assembled → Except LocatedError Assembled → Prop
  | .ok a, .ok b => a.program.SameImage b.program ∧ a.warnings = b.warnings
  | .error e, .error f => e.error = f.error
  | _, _ => False

theorem Layout.line_blank (l : Layout) {line : SourceLine} (blank : line.text = []) :
    l.line line = .ok l := by
  rw [Layout.line, blank]
  rfl

/-- The same line, or a blank one in the place of a blank one. -/
def SourceLine.SameCode (line read : SourceLine) : Prop :=
  read = line ∨ (line.text = [] ∧ read.text = [])

theorem SourceLine.sameCode_of_readAs {line read : SourceLine}
    (written : if line.text = [] then line.tagged = [] else ofTagged? line.tagged = some line)
    (reads : ReadAs line.tagged read) : SameCode line read := by
  unfold ReadAs at reads
  split at written
  · next blank =>
    rw [written] at reads
    exact .inr ⟨blank, reads⟩
  · rw [written] at reads
    exact .inl reads

theorem Layout.foldlM_line {lines reread : List SourceLine}
    (same : List.Forall₂ SourceLine.SameCode lines reread) (l : Layout) :
    lines.foldlM Layout.line l = reread.foldlM Layout.line l := by
  induction same generalizing l with
  | nil => rfl
  | cons first _ ih =>
    rw [List.foldlM_cons, List.foldlM_cons]
    obtain rfl | ⟨blank, blankToo⟩ := first
    · exact congrArg _ (funext ih)
    · rw [Layout.line_blank l blank, Layout.line_blank l blankToo]
      exact ih l

theorem Assembler.bind_relined (startAtMain : Bool) (lines reread : List SourceLine)
    (names others : PathNames) (l : Layout) :
    bind startAtMain reread others l = (bind startAtMain lines names l).map fun p =>
      { p with linked := reread, names := others } := by
  unfold bind
  dsimp only
  cases l.placed.reverse.mapM (bindLine l.symbols.labels) with
  | error e => rfl
  | ok instructions =>
    cases l.fixups.reverse.foldlM (patch l.symbols.labels) l.data <;> rfl

/-- Blank lines leave no trace, whatever their tags; only a label that cannot be bound behind the
last line is reported at the tag of that line. -/
theorem sameAssembly_of_sameCode {lines reread : List SourceLine}
    (same : List.Forall₂ SourceLine.SameCode lines reread) (settings : Settings)
    (names others : PathNames) :
    SameAssembly (assembleLines settings lines names) (assembleLines settings reread others) := by
  unfold assembleLines Layout.ofLines
  rw [Layout.foldlM_line same]
  cases reread.foldlM Layout.line Layout.start with
  | error e => exact rfl
  | ok l =>
    cases bound : l.bindLabels with
    | error e =>
      simp only [bound, bind, Except.bind, Except.mapError]
      rfl
    | ok l =>
      simp only [bound, bind, Except.bind, Except.mapError]
      rw [Assembler.bind_relined settings.startAtMain lines reread names others l]
      cases Assembler.bind settings.startAtMain lines names l with
      | error e => rfl
      | ok p => exact ⟨⟨rfl, rfl, rfl, rfl, rfl, rfl⟩, rfl⟩

namespace Preprocessed

variable {disk : Disk} {root contents : String} {pre : Preprocessed}

/-- The tagged form of linked files can be taken for the files themselves. It has as many lines as
the untagged one; a line that is not blank is read back as it was, whatever its text; and the lines
that are read assemble to the same program or fail with the same error. That lines are counted in
machine words limits what a disk can hold, not what is on a line. -/
theorem taggedText_lossless (made : ofRoot disk root contents = .ok pre)
    (named : ∀ file ∈ pre.files, '"' ∉ file.name.toList ∧ '\n' ∉ file.name.toList)
    (counted : ∀ file ∈ pre.files, file.lines.length < Nat.pow 2 64) :
    let tagged := Text.lines (SourceLine.taggedText pre.link).toList
    tagged.length = (Text.lines (untaggedText pre.link).toList).length ∧
      List.Forall₂ (fun line written => if line.text = [] then written = []
        else SourceLine.ofTagged? written = some line) pre.link tagged ∧
      ∀ reread, List.Forall₂ SourceLine.ReadAs tagged reread → ∀ settings names others,
        SameAssembly (assembleLines settings pre.link names)
          (assembleLines settings reread others) := by
  have oneline : ∀ line ∈ pre.link, line.Oneline := by
    intro line linked
    obtain ⟨clean, file, member, shown, -⟩ := link_lines made linked
    exact ⟨clean, shown ▸ (named file member).2⟩
  have readable : ∀ line ∈ pre.link, line.Readable := by
    intro line linked
    obtain ⟨-, file, member, shown, bound⟩ := link_lines made linked
    exact ⟨shown ▸ (named file member).1, Nat.lt_of_le_of_lt bound (counted file member)⟩
  have written (line : SourceLine) (linked : line ∈ pre.link) : if line.text = [] then
      line.tagged = [] else SourceLine.ofTagged? line.tagged = some line := by
    split
    · next blank => exact SourceLine.tagged_nil blank
    · next filled =>
      rw [SourceLine.tagged_eq filled]
      exact SourceLine.ofTagged?_suffix (readable line linked)
  dsimp only
  rw [SourceLine.lines_taggedText oneline, SourceLine.length_lines_untaggedText oneline]
  refine ⟨List.length_map _, ?_, fun reread reads settings names others => ?_⟩
  · rw [List.forall₂_map_right_iff]
    exact List.forall₂_same.mpr written
  · refine sameAssembly_of_sameCode ?_ settings names others
    rw [List.forall₂_map_left_iff] at reads
    refine List.Forall₂.imp (fun line read both => ?_)
      ((List.forall₂_and_left _ _).mpr ⟨written, reads⟩)
    exact SourceLine.sameCode_of_readAs both.1 both.2

/-- A file with a comment that looks like a tag, and with a blank behind its last instruction. -/
def quotingText : String :=
  ".include \"lib/a.asm\"\n.eqv PUT sw $a0  # \"x\" 3\n\nPUT, 4($sp) \n"

/-- It includes a file with a string that ends in something like a tag. -/
def quoting : Disk where
  files := [(["main.asm"], quotingText),
    (["lib", "a.asm"], ".data\nt: .asciiz \"say \\\"b\\\"  \\\"c\\\" 3\"\n.text\n")]
  resolve := FileTree.resolve? ⟨[["lib"]], [(["main.asm"], []), (["lib", "a.asm"], [])]⟩

theorem taggedText_lossless_quoting : ∃ pre, ofRoot quoting "/main.asm" quotingText = .ok pre ∧
    (∀ file ∈ pre.files, '"' ∉ file.name.toList ∧ '\n' ∉ file.name.toList) ∧
    (∀ file ∈ pre.files, file.lines.length < Nat.pow 2 64) ∧ pre.link.length = 6 ∧
    (Text.lines (SourceLine.taggedText pre.link).toList).length =
      (Text.lines (untaggedText pre.link).toList).length ∧
    List.Forall₂ (fun line written => if line.text = [] then written = []
      else SourceLine.ofTagged? written = some line) pre.link
      (Text.lines (SourceLine.taggedText pre.link).toList) := by
  have shape : (ofRoot quoting "/main.asm" quotingText).map (fun pre =>
      (pre.files.map fun file => (file.name, file.lines.length), pre.link.length)) =
        .ok ([("lib/a.asm", 3), ("main.asm", 4)], 6) := by decide +kernel
  cases made : ofRoot quoting "/main.asm" quotingText with
  | error e =>
    rw [made] at shape
    cases shape
  | ok pre =>
    rw [made] at shape
    obtain ⟨files, linked⟩ := Prod.mk.inj (Except.ok.inj shape)
    have all : ∀ shown ∈ pre.files.map fun file => (file.name, file.lines.length),
        '"' ∉ shown.1.toList ∧ '\n' ∉ shown.1.toList ∧ shown.2 < Nat.pow 2 64 := by
      rw [files]
      decide +kernel
    rw [List.forall_mem_map] at all
    have named : ∀ file ∈ pre.files, '"' ∉ file.name.toList ∧ '\n' ∉ file.name.toList :=
      fun file member => ⟨(all file member).1, (all file member).2.1⟩
    have counted : ∀ file ∈ pre.files, file.lines.length < Nat.pow 2 64 :=
      fun file member => (all file member).2.2
    obtain ⟨same, back, -⟩ := taggedText_lossless made named counted
    exact ⟨pre, rfl, named, counted, linked, same, back⟩

end Preprocessed

end MipsLab
