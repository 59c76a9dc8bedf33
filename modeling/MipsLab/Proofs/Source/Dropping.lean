import MipsLab.Assembly.Assembler
import MipsLab.Proofs.Assembly.Placement
import MipsLab.Proofs.Source.Directive
import MipsLab.Proofs.Source.Inclusion

/-! What the linker leaves out. The walk looks for `.include` lines in the text of a file, and the
linker looks for them once definitions have been replaced. A line that the walk follows is always
left out, with the labels in front of it; but definitions can also turn a line into an `.include`
line that nobody has followed, and it is left out as well. No other line is. -/
namespace MipsLab

/-- Whether a text has the directive `.include`. -/
def namesInclude (text : List Char) : Bool :=
  (directiveOf? text).any fun (name, _) => name = ".include".toList

theorem namesInclude_iff {text : List Char} : namesInclude text = true ↔
    ∃ operand, directiveOf? text = some (".include".toList, operand) := by
  unfold namesInclude
  generalize ".include".toList = sought
  cases directiveOf? text with
  | none => simp
  | some parts => simp [Prod.ext_iff]

theorem namesInclude_code (raw : List Char) :
    namesInclude (Text.trimEnd (stripComment raw)) = namesInclude raw := by
  rw [namesInclude, directiveOf?_code, namesInclude]

/-- Definitions turn the line into an `.include` line, which it is not by itself. -/
def EqvTable.MakesInclude (eqv : EqvTable) (raw : List Char) : Prop :=
  isStringLine raw = false ∧ namesInclude raw = false ∧
    namesInclude (eqv.apply (Text.trimEnd (stripComment raw))) = true

instance (eqv : EqvTable) (raw : List Char) : Decidable (eqv.MakesInclude raw) :=
  inferInstanceAs (Decidable (_ ∧ _))

/-- A processed line is left out if it was an `.include` line or has become one. -/
theorem isInclude_processLine (eqv : EqvTable) (raw : List Char) (tag : SourceTag) :
    SourceLine.isInclude ⟨processLine eqv raw, tag⟩ = true ↔
      (isStringLine raw = false ∧ namesInclude raw = true) ∨ eqv.MakesInclude raw := by
  have code := namesInclude_code raw
  change namesInclude (processLine eqv raw) = true ↔ _
  unfold processLine EqvTable.MakesInclude
  cases strings : isStringLine raw with
  | true =>
    obtain ⟨name, operand, kept⟩ := directiveOf?_string strings
    rw [if_pos rfl, namesInclude, kept]
    simp
  | false =>
    rw [if_neg Bool.false_ne_true]
    change namesInclude (if namesInclude (Text.trimEnd (stripComment raw)) then _ else _) = true ↔ _
    rw [code]
    cases own : namesInclude raw with
    | true => simp [code, own]
    | false => simp

namespace Disk

/-- Every `.include` line of a text in `directory` leads to one of these files. -/
def LeadsInto (disk : Disk) (directory : String) (contents : List Char) (files : List Path) :
    Prop :=
  ∀ raw ∈ Text.lines contents, isStringLine raw = false → namesInclude raw = true →
    ∃ q ∈ files, disk.included? directory raw = some q

theorem LeadsInto.mono {disk : Disk} {directory : String} {contents : List Char}
    {files more : List Path} (leads : disk.LeadsInto directory contents files)
    (subset : files ⊆ more) : disk.LeadsInto directory contents more := by
  intro raw member plain own
  obtain ⟨q, known, led⟩ := leads raw member plain own
  exact ⟨q, subset known, led⟩

/-- A file that was read from the disk, with the directory that its includes are looked up in. -/
def Holds (disk : Disk) (path : Path) (directory : String) (contents : List Char) : Prop :=
  directory = path.parent.text ∧ ∃ text, disk.text? path = some text ∧ contents = text.toList

end Disk

namespace Walk

variable {disk : Disk} {directory name : String} {walk next walked : Walk}
  {numbered : List Char × Nat} {lines : List (List Char × Nat)} {path : Path}
  {contents : List Char} {outcome : Except PreprocessError Walk}

/-- The files that have been read are all that their `.include` lines ask for. -/
structure Complete (disk : Disk) (walk : Walk) : Prop where
  visited : ∀ p ∈ walk.visited, p ∈ walk.stackPaths ∨ p ∈ walk.filePaths
  files : ∀ f ∈ walk.files, ∃ directory, disk.Holds f.path directory f.contents ∧
    disk.LeadsInto directory f.contents walk.filePaths

theorem Complete.of_sameFiles (complete : Complete disk walk) (same : SameFiles walk next) :
    Complete disk next := by
  obtain ⟨stack, visited, files, eqv, names, warnings⟩ := next
  obtain ⟨rfl, rfl, rfl, rfl⟩ := same
  exact ⟨complete.visited, complete.files⟩

theorem Complete.opened (complete : Complete disk walk) (path : Path) :
    Complete disk (walk.opened path) := by
  refine ⟨fun p seen => ?_, complete.files⟩
  rcases List.mem_cons.mp seen with rfl | seen
  · exact .inl List.mem_cons_self
  · exact (complete.visited p seen).imp_left (List.mem_cons_of_mem path)

/-- A walk that goes on from a line has found the file that the line includes. -/
theorem Settles.led (settled : Settles disk directory name walk numbered (.ok next))
    (plain : isStringLine numbered.1 = false) (own : namesInclude numbered.1 = true) :
    ∃ q, disk.included? directory numbered.1 = some q := by
  obtain ⟨text, index⟩ := numbered
  obtain ⟨operand, found⟩ := namesInclude_iff.mp own
  obtain ⟨leads, followed⟩ := line_include disk directory name walk index (by simp [plain]) found
  rw [leads]
  cases led : disk.led? directory operand with
  | some q => exact ⟨q, rfl⟩
  | none =>
    obtain ⟨e, failed, -⟩ := follow_nowhere walk ⟨name, index + 1⟩ led
    cases (settled fun _ _ w => .ok w).symm.trans ((followed _).trans (failed _))

/-- What the reading of some lines leaves. -/
structure Completes (disk : Disk) (directory : String) (lines : List (List Char × Nat))
    (walk walked : Walk) : Prop where
  complete : Complete disk walked
  stack : walked.stack = walk.stack
  files : walk.filePaths ⊆ walked.filePaths
  led : ∀ numbered ∈ lines, isStringLine numbered.1 = false → namesInclude numbered.1 = true →
    ∃ q ∈ walked.filePaths, disk.included? directory numbered.1 = some q

theorem Completes.cons (same : next.stack = walk.stack) (grown : walk.filePaths ⊆ next.filePaths)
    (first : isStringLine numbered.1 = false → namesInclude numbered.1 = true →
      ∃ q ∈ next.filePaths, disk.included? directory numbered.1 = some q)
    (rest : Completes disk directory lines next walked) :
    Completes disk directory (numbered :: lines) walk walked where
  complete := rest.complete
  stack := rest.stack.trans same
  files := List.Subset.trans grown rest.files
  led line member plain own := by
    rcases List.mem_cons.mp member with rfl | later
    · obtain ⟨q, known, leads⟩ := first plain own
      exact ⟨q, rest.files known, leads⟩
    · exact rest.led line later plain own

theorem Completes.leadsInto {text : List Char}
    (completes : Completes disk directory (Text.lines text).zipIdx walk walked) :
    disk.LeadsInto directory text walked.filePaths := by
  intro raw member plain own
  obtain ⟨index, bound, rfl⟩ := List.getElem_of_mem member
  exact completes.led _ (List.mk_mem_zipIdx_iff_getElem?.mpr (List.getElem?_eq_getElem bound))
    plain own

/-- A file is finished: its lines have been read, and it is no longer open. -/
theorem Completes.closed {text : String} {shown : String} (read : disk.text? path = some text)
    (completes : Completes disk path.parent.text (Text.lines text.toList).zipIdx
      (walk.opened path) walked) :
    Complete disk (walked.closed path shown text.toList) := by
  have more : walked.filePaths ⊆ (walked.closed path shown text.toList).filePaths :=
    List.subset_cons_self _ _
  refine ⟨fun p seen => ?_, fun f member => ?_⟩
  · have stack : walked.stackPaths = path :: walk.stackPaths := by
      rw [stackPaths, completes.stack]
      rfl
    rcases completes.complete.visited p seen with opened | finished
    · rw [stack] at opened
      rcases List.mem_cons.mp opened with rfl | outer
      · exact .inr List.mem_cons_self
      · refine .inl ?_
        change p ∈ walked.stack.tail.map (·.1)
        rw [completes.stack]
        exact outer
    · exact .inr (more finished)
  · rcases List.mem_cons.mp member with rfl | old
    · exact ⟨_, ⟨rfl, text, read, rfl⟩, completes.leadsInto.mono more⟩
    · obtain ⟨directory, held, leads⟩ := completes.complete.files f old
      exact ⟨directory, held, leads.mono more⟩

theorem Reads.completes (reads : Reads disk directory name walk lines outcome)
    (complete : Complete disk walk) (ok : outcome = .ok walked) :
    Completes disk directory lines walk walked := by
  induction reads generalizing walked with
  | done =>
    cases ok
    exact ⟨complete, rfl, List.Subset.refl _, fun _ member => absurd member List.not_mem_nil⟩
  | @settled directory name walk next numbered lines outcome settled reads ih =>
    obtain ⟨same, visited⟩ := settled.ok
    have files : next.filePaths = walk.filePaths := by rw [filePaths, same.files, filePaths]
    refine .cons same.stack (files ▸ List.Subset.refl _) (fun plain own => ?_)
      (ih (complete.of_sameFiles same) ok)
    obtain ⟨q, leads⟩ := settled.led plain own
    obtain ⟨seen, closed⟩ := visited q leads
    exact ⟨q, files ▸ (complete.visited q seen).resolve_left closed, leads⟩
  | failed => cases ok
  | @entered directory name walk inner numbered lines path contents outcome enters _ _ ihInner
      ihRest =>
    obtain ⟨leads, fresh, text, read, rfl⟩ := enters.new
    have inside := ihInner (complete.opened path) rfl
    refine .cons (congrArg List.tail inside.stack) ?_ (fun _ _ => ?_)
      (ihRest (inside.closed read) ok)
    · exact fun p member => List.mem_cons_of_mem _ (inside.files member)
    · exact ⟨path, List.mem_cons_self, leads⟩
  | spoiled => cases ok

end Walk

namespace Preprocessed

variable {disk : Disk} {root contents : String} {pre : Preprocessed}

/-- The text that a file was read from, with the directory of its includes: from the disk, or the
text that was given for the root. -/
def ReadFrom (disk : Disk) (root contents : String) (file : SourceFile) (directory : String)
    (text : List Char) : Prop :=
  (file.path = Path.join [] root ∧ directory = Path.parentText root ∧ text = contents.toList) ∨
    disk.Holds file.path directory text

/-- What becomes of a processed line that was `raw` in a file of `directory`. -/
structure Linked (disk : Disk) (pre : Preprocessed) (directory : String) (raw : List Char)
    (line : SourceLine) : Prop where
  kept : line.isInclude = false → line ∈ pre.link
  dropped : line.isInclude = true ↔
    (∃ q ∈ pre.paths, disk.included? directory raw = some q) ∨ pre.eqv.MakesInclude raw
  apart : (disk.included? directory raw).isSome → ¬ pre.eqv.MakesInclude raw

theorem ofRoot_walk (made : ofRoot disk root contents = .ok pre) : ∃ walk,
    Walk.Visits disk (Path.parentText root) (Path.join [] root) contents.toList
      (startAt disk (Path.join [] root)) (.ok walk) ∧ pre = ofWalk walk := by
  have few : Walk.unread disk ((startAt disk (Path.join [] root)).opened (Path.join [] root)) ≤
      disk.files.length := List.countP_le_length
  have visits : Walk.Visits disk (Path.parentText root) (Path.join [] root) contents.toList
    (startAt disk (Path.join [] root)) _ := Walk.visit_visits disk.files.length few
  unfold ofRoot at made
  dsimp only at made
  cases walked : Walk.visit disk disk.files.length (Path.parentText root) (Path.join [] root)
    contents.toList (startAt disk (Path.join [] root)) with
  | error e =>
    unfold startAt at walked
    rw [walked] at made
    cases made
  | ok walk =>
    rw [walked] at visits
    unfold startAt at walked
    rw [walked] at made
    cases made
    exact ⟨walk, visits, rfl⟩

theorem leadsInto_paths (made : ofRoot disk root contents = .ok pre) : ∀ file ∈ pre.files,
    ∃ directory text, ReadFrom disk root contents file directory text ∧
      file.lines = processText pre.eqv file.name text ∧
      disk.LeadsInto directory text pre.paths := by
  obtain ⟨walk, ⟨outcome, reads, ended⟩, rfl⟩ := ofRoot_walk made
  cases outcome with
  | error e => cases ended
  | ok inner =>
    cases ended
    have start : Walk.Complete disk ((startAt disk (Path.join [] root)).opened
        (Path.join [] root)) := by
      refine Walk.Complete.opened ⟨fun _ seen => ?_, fun _ member => ?_⟩ _
      · exact absurd seen List.not_mem_nil
      · exact absurd member List.not_mem_nil
    have completes := reads.completes start rfl
    rw [paths_ofWalk]
    intro file member
    obtain ⟨f, collected, rfl⟩ := List.mem_map.mp member
    have all : inner.filePaths ⊆ (inner.closed (Path.join [] root)
        ((startAt disk (Path.join [] root)).shownName (Path.join [] root))
        contents.toList).filePaths.reverse := fun p known =>
      List.mem_reverse.mpr (List.mem_cons_of_mem _ known)
    rcases List.mem_cons.mp (List.mem_reverse.mp collected) with rfl | old
    · exact ⟨_, _, .inl ⟨rfl, rfl, rfl⟩, rfl, completes.leadsInto.mono all⟩
    · obtain ⟨directory, held, leads⟩ := completes.complete.files f old
      exact ⟨directory, f.contents, .inr held, rfl, leads.mono all⟩

theorem included?_names {directory : String} {raw : List Char} {q : Path}
    (leads : disk.included? directory raw = some q) :
    isStringLine raw = false ∧ namesInclude raw = true := by
  unfold Disk.included? at leads
  split at leads
  · exact absurd leads nofun
  · next plain =>
    split at leads
    · next directive operand found =>
      split at leads
      · next same => exact ⟨by simpa using plain, namesInclude_iff.mpr ⟨operand, same ▸ found⟩⟩
      · exact absurd leads nofun
    · exact absurd leads nofun

/-- Linking leaves out the `.include` lines that the walk has followed, and besides them only lines
that definitions have turned into `.include` lines. Every other line of a file is linked, with the
labels in front of it. -/
theorem link_drops (made : ofRoot disk root contents = .ok pre) : ∀ file ∈ pre.files,
    ∃ directory text, ReadFrom disk root contents file directory text ∧
      file.lines = processText pre.eqv file.name text ∧
      ∀ numbered ∈ (Text.lines text).zipIdx, Linked disk pre directory numbered.1
        ⟨processLine pre.eqv numbered.1, ⟨file.name, numbered.2 + 1⟩⟩ := by
  intro file member
  obtain ⟨directory, text, origin, processed, leads⟩ := leadsInto_paths made file member
  refine ⟨directory, text, origin, processed, fun numbered inside => ⟨fun stays => ?_, ?_, ?_⟩⟩
  · have line : ⟨processLine pre.eqv numbered.1, ⟨file.name, numbered.2 + 1⟩⟩ ∈ file.lines := by
      rw [processed]
      exact List.mem_map.mpr ⟨numbered, inside, rfl⟩
    refine List.mem_filter.mpr ⟨List.mem_flatMap.mpr ⟨file, member, line⟩, ?_⟩
    rw [stays]
    rfl
  · rw [isInclude_processLine]
    refine or_congr_left ⟨fun own => ?_, fun followed => ?_⟩
    · obtain ⟨index, bound⟩ := List.mem_zipIdx' inside
      exact leads numbered.1 (bound ▸ List.getElem_mem index) own.1 own.2
    · obtain ⟨q, -, led⟩ := followed
      exact included?_names led
  · intro led made
    obtain ⟨q, leads⟩ := Option.isSome_iff_exists.mp led
    exact absurd ((included?_names leads).2.symm.trans made.2.1) nofun

def twiceText : String := "start: nop\n.include \"lib/a.asm\"\n.include \"lib/../lib/a.asm\"\n"

/-- A file below the directory of the root is included twice. -/
def twice : Disk where
  files := [(["main.asm"], twiceText), (["lib", "a.asm"], "t: .asciiz \".include\"\n")]
  resolve := FileTree.resolve? ⟨[["lib"]], [(["main.asm"], []), (["lib", "a.asm"], [])]⟩

theorem link_drops_twice : ∃ pre, ofRoot twice "/main.asm" twiceText = .ok pre ∧
    pre.files.map (·.lines.length) = [1, 3] ∧
    pre.link.map (·.text) = ["t: .asciiz \".include\"".toList, "start: nop".toList] ∧
    ∀ file ∈ pre.files, ∃ directory text, file.lines = processText pre.eqv file.name text ∧
      ∀ numbered ∈ (Text.lines text).zipIdx, Linked twice pre directory numbered.1
        ⟨processLine pre.eqv numbered.1, ⟨file.name, numbered.2 + 1⟩⟩ := by
  have shape : (ofRoot twice "/main.asm" twiceText).map (fun pre =>
      (pre.files.map (·.lines.length), pre.link.map (·.text))) =
        .ok ([1, 3], ["t: .asciiz \".include\"".toList, "start: nop".toList]) := by decide +kernel
  obtain ⟨pre, made, seen⟩ := except_map_ok shape
  obtain ⟨lengths, linked⟩ := Prod.mk.inj seen
  refine ⟨pre, made, lengths, linked, fun file member => ?_⟩
  obtain ⟨directory, text, -, processed, lines⟩ := link_drops made file member
  exact ⟨directory, text, processed, lines⟩

def labelledText : String := "lost: .include \"lib.asm\"\nj lost\n"

/-- Its first line is an `.include` line with a label. -/
def labelled : Disk where
  files := [(["main.asm"], labelledText), (["lib.asm"], "nop\n")]
  resolve := FileTree.resolve? ⟨[], [(["main.asm"], []), (["lib.asm"], [])]⟩

def disguisedText : String := ".eqv inc .include\ninc \"lib.asm\"\n"

/-- Its second line becomes an `.include` line. -/
def disguised : Disk where
  files := [(["main.asm"], disguisedText), (["lib.asm"], "nop\n")]
  resolve := FileTree.resolve? ⟨[], [(["main.asm"], []), (["lib.asm"], [])]⟩

/-- The labels in front of a line. -/
def labelsOf (line : SourceLine) : List (List Char) :=
  (splitLabels (Text.trim (stripComment line.text))).1

/-- A label is lost with the `.include` line that it stands before, so that the program cannot be
assembled. And a line is left out that the walk has not followed: the file that it names was not
read. -/
theorem link_drops_unfollowed :
    (∃ pre, ofRoot labelled "/main.asm" labelledText = .ok pre ∧
      (∃ file ∈ pre.files, ∃ line ∈ file.lines, line ∉ pre.link ∧
        labelsOf line = ["lost".toList]) ∧
      (assembleLines {} pre.link pre.names).toBool = false) ∧
    ∃ pre, ofRoot disguised "/main.asm" disguisedText = .ok pre ∧
      (∃ file ∈ pre.files, ∃ line ∈ file.lines, line ∉ pre.link ∧ line.tag = ⟨"main.asm", 2⟩) ∧
      (Text.lines disguisedText.toList)[1]?.bind (disguised.included? "/") = none ∧
      pre.paths = [["main.asm"]] := by
  have first : (ofRoot labelled "/main.asm" labelledText).map (fun pre =>
      decide ((∃ file ∈ pre.files, ∃ line ∈ file.lines, line ∉ pre.link ∧
        labelsOf line = ["lost".toList]) ∧
        (assembleLines {} pre.link pre.names).toBool = false)) = .ok true := by decide +kernel
  have second : (ofRoot disguised "/main.asm" disguisedText).map (fun pre =>
      decide ((∃ file ∈ pre.files, ∃ line ∈ file.lines, line ∉ pre.link ∧
        line.tag = ⟨"main.asm", 2⟩) ∧
        (Text.lines disguisedText.toList)[1]?.bind (disguised.included? "/") = none ∧
        pre.paths = [["main.asm"]])) = .ok true := by decide +kernel
  obtain ⟨pre, made, seen⟩ := except_map_ok first
  obtain ⟨other, madeToo, seenToo⟩ := except_map_ok second
  exact ⟨⟨pre, made, of_decide_eq_true seen⟩, other, madeToo, of_decide_eq_true seenToo⟩

end Preprocessed

end MipsLab
