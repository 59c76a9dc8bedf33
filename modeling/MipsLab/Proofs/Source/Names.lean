import MipsLab.Proofs.Assembly.Overlay
import MipsLab.Proofs.Run.Breakpoints
import MipsLab.Proofs.Source.Dropping

/-! Which files share a display name. The slashes between names can be read back, so that two files
of the root directory never share a name, and neither do two files outside it. But a file outside is
shown by its whole path without the first slash, and that is also how a file is shown that has the
same path below the root directory. Tags and breakpoints tell all other files apart. -/
namespace MipsLab

namespace Path

theorem below?_iff {directory p rest : Path} :
    below? directory p = some rest ↔ p = directory ++ rest := by
  induction directory generalizing p with
  | nil => simp [below?]
  | cons d directory ih =>
    cases p with
    | nil => simp [below?]
    | cons c p =>
      by_cases same : d = c
      · simp [below?, same, ih]
      · simp [below?, same, Ne.symm same]

theorem intercalate_inj {p q : Path} (named : ∀ c ∈ p, IsName c) (named' : ∀ c ∈ q, IsName c) :
    "/".intercalate p = "/".intercalate q ↔ p = q := by
  refine ⟨fun same => ?_, congrArg _⟩
  have texts : p.text = q.text := by rw [text, same, text]
  rw [← join_text named, texts, join_text named']

theorem join_named (written : String) : ∀ c ∈ join [] written, IsName c := by
  intro c member
  have listed : c ∈ ((Text.pieces (· = '/') written.toList).filter (! isIdle ·)).map
      String.ofList := by
    unfold join at member
    split at member <;> exact member
  obtain ⟨piece, kept, rfl⟩ := List.mem_map.mp listed
  obtain ⟨cut, busy⟩ := List.mem_filter.mp kept
  have idle : ¬ (piece = [] ∨ piece = ['.']) := by simpa [isIdle] using busy
  refine ⟨fun e => idle (.inl ?_), fun e => idle (.inr ?_), fun inside => ?_⟩
  · simpa using congrArg String.toList e
  · simpa using congrArg String.toList e
  · rw [String.toList_ofList] at inside
    simpa using Text.notMem_of_mem_pieces cut '/' inside

end Path

namespace PathNames

/-- A path outside the root directory that is shown like one in it. -/
def Shadows (rootDir outer inner : Path) : Prop :=
  Path.below? rootDir outer = none ∧ inner = rootDir ++ outer

instance (rootDir outer inner : Path) : Decidable (Shadows rootDir outer inner) :=
  inferInstanceAs (Decidable (_ ∧ _))

variable {rootDir p q rest : Path}

theorem shownName_append (rootDir rest : Path) :
    shownName rootDir (rootDir ++ rest) = "/".intercalate rest := by
  rw [shownName, Path.below?_iff.mpr rfl]
  rfl

theorem shownName_outside (outside : Path.below? rootDir p = none) :
    shownName rootDir p = "/".intercalate p := by
  rw [shownName, outside]
  rfl

theorem not_shadows_append (rootDir rest q : Path) : ¬ Shadows rootDir (rootDir ++ rest) q := by
  rintro ⟨outside, -⟩
  rw [Path.below?_iff.mpr rfl] at outside
  cases outside

theorem not_shadows_outside (outside : Path.below? rootDir q = none) (p : Path) :
    ¬ Shadows rootDir p q := by
  rintro ⟨-, rfl⟩
  rw [Path.below?_iff.mpr rfl] at outside
  cases outside

/-- A path outside is shown like a path inside just if it shadows it. -/
theorem shownName_eq_append (outside : Path.below? rootDir p = none)
    (named : ∀ c ∈ p, Path.IsName c) (named' : ∀ c ∈ rest, Path.IsName c) :
    shownName rootDir p = shownName rootDir (rootDir ++ rest) ↔
      Shadows rootDir p (rootDir ++ rest) := by
  rw [shownName_outside outside, shownName_append, Path.intercalate_inj named named', Shadows,
    List.append_cancel_left_eq]
  exact ⟨fun same => ⟨outside, same.symm⟩, fun shadows => shadows.2.symm⟩

theorem shownName_eq_iff (named : ∀ c ∈ p, Path.IsName c) (named' : ∀ c ∈ q, Path.IsName c) :
    shownName rootDir p = shownName rootDir q ↔
      p = q ∨ Shadows rootDir p q ∨ Shadows rootDir q p := by
  -- whether each of the two lies in the root directory
  cases outside : Path.below? rootDir p with
  | none =>
    cases outside' : Path.below? rootDir q with
    | none =>
      rw [shownName_outside outside, shownName_outside outside', Path.intercalate_inj named named']
      simp [not_shadows_outside outside, not_shadows_outside outside']
    | some rest =>
      obtain rfl := Path.below?_iff.mp outside'
      rw [shownName_eq_append outside named fun c member =>
        named' c (List.mem_append_right _ member)]
      have distinct : p ≠ rootDir ++ rest := by
        rintro rfl
        cases outside.symm.trans outside'
      simp [not_shadows_append, distinct]
  | some rest =>
    obtain rfl := Path.below?_iff.mp outside
    have named : ∀ c ∈ rest, Path.IsName c := fun c member =>
      named c (List.mem_append_right _ member)
    cases outside' : Path.below? rootDir q with
    | none =>
      rw [eq_comm, shownName_eq_append outside' named' named]
      have distinct : rootDir ++ rest ≠ q := by
        rintro rfl
        cases outside.symm.trans outside'
      simp [not_shadows_append, distinct]
    | some rest' =>
      obtain rfl := Path.below?_iff.mp outside'
      rw [shownName_append, shownName_append, Path.intercalate_inj named fun c member =>
        named' c (List.mem_append_right _ member)]
      simp [not_shadows_append]

theorem displayName?_insert (names : PathNames) (path p : Path) :
    (names.insert path).2.displayName? p =
      if p = path then some (names.insert path).1 else names.displayName? p := by
  cases known : names.displayName? path with
  | some name =>
    have same : names.insert path = (name, names) := by simp [insert, known]
    rw [same]
    split
    · next here => rw [here, known]
    · rfl
  | none =>
    have added : names.insert path = (shownName names.rootDir path,
        { names with entries := names.entries ++ [(path, shownName names.rootDir path)] }) := by
      simp only [insert, known]
    have appended : (names.insert path).2.displayName? p =
        (names.displayName? p).or ([(path, (names.insert path).1)].lookup p) := by
      rw [added]
      exact List.lookup_append
    rw [appended]
    split
    · next here => simp [here, known]
    · next other => simp [List.lookup, beq_eq_false_iff_ne.mpr other]

theorem Regular.displayName?_eq {names : PathNames} (regular : names.Regular rootDir)
    {name : String} (known : names.displayName? p = some name) : name = shownName rootDir p := by
  obtain ⟨before, after, entries, -⟩ := List.lookup_eq_some_iff.mp known
  exact regular.entries (p, name) (by simp [entries])

end PathNames

namespace Walk

variable {disk : Disk} {rootDir path : Path} {directory name : String} {walk next walked : Walk}
  {numbered : List Char × Nat} {lines : List (List Char × Nat)} {contents : List Char}
  {outcome : Except PreprocessError Walk}

/-- The invariant of the names: the files that have been visited are known, each is met once, and
each has the name it is shown by. -/
structure Shown (rootDir : Path) (walk : Walk) : Prop where
  names : walk.names.Regular rootDir
  known : ∀ p, (walk.names.displayName? p).isSome ↔ p ∈ walk.visited
  visited : ∀ p, p ∈ walk.visited ↔ p ∈ walk.stackPaths ++ walk.filePaths
  once : (walk.stackPaths ++ walk.filePaths).Nodup
  named : ∀ p ∈ walk.visited, ∀ c ∈ p, Path.IsName c
  files : ∀ f ∈ walk.files, f.name = PathNames.shownName rootDir f.path

theorem shown_start (rootDir : Path) (resolve : String → Option Path) :
    Shown rootDir (.start (.new rootDir resolve)) := by
  refine ⟨⟨rfl, ?_⟩, ?_, ?_, ?_, ?_, ?_⟩ <;>
    simp [start, stackPaths, filePaths, PathNames.new, PathNames.displayName?]

theorem Shown.of_sameFiles (shown : Shown rootDir walk) (same : SameFiles walk next) :
    Shown rootDir next := by
  obtain ⟨stack, visited, files, eqv, names, warnings⟩ := next
  obtain ⟨rfl, rfl, rfl, rfl⟩ := same
  exact ⟨shown.names, shown.known, shown.visited, shown.once, shown.named, shown.files⟩

theorem Shown.opened (shown : Shown rootDir walk) (fresh : path ∉ walk.visited)
    (named : ∀ c ∈ path, Path.IsName c) : Shown rootDir (walk.opened path) where
  names := shown.names.insert path
  known p := by
    change ((walk.names.insert path).2.displayName? p).isSome ↔ p ∈ path :: walk.visited
    rw [PathNames.displayName?_insert, List.mem_cons, ← shown.known]
    split
    · next same => simp [same]
    · next other => simp [other]
  visited p := by
    change p ∈ path :: walk.visited ↔ p ∈ path :: (walk.stackPaths ++ walk.filePaths)
    rw [List.mem_cons, List.mem_cons, shown.visited]
  once := by
    rw [shown.visited] at fresh
    exact List.nodup_cons.mpr ⟨fresh, shown.once⟩
  named := List.forall_mem_cons.mpr ⟨named, shown.named⟩
  files := shown.files

theorem Shown.closed {rest : List (Path × String)} {top : String} (shown : Shown rootDir walked)
    (stack : walked.stack = (path, top) :: rest)
    (same : name = PathNames.shownName rootDir path) :
    Shown rootDir (walked.closed path name contents) := by
  obtain ⟨stacked, visited, files, eqv, names, warnings⟩ := walked
  cases stack
  obtain ⟨names, known, visited, once, named, files⟩ := shown
  refine ⟨names, known, fun p => ?_, ?_, named, List.forall_mem_cons.mpr ⟨same, files⟩⟩
  · exact (visited p).trans List.perm_middle.mem_iff.symm
  · exact (List.perm_middle.nodup_iff).mpr once

theorem included?_named (canonical : disk.Canonical) {text : List Char}
    (leads : disk.included? directory text = some path) : ∀ c ∈ path, Path.IsName c := by
  unfold Disk.included? at leads
  split at leads
  · cases leads
  split at leads
  · split at leads
    · obtain ⟨written, -, resolved⟩ := Option.bind_eq_some_iff.mp leads
      exact canonical.named resolved
    · cases leads
  · cases leads

theorem Reads.shown (canonical : disk.Canonical)
    (reads : Reads disk directory name walk lines outcome) (shown : Shown rootDir walk)
    (ok : outcome = .ok walked) : Shown rootDir walked ∧ walked.stack = walk.stack := by
  induction reads generalizing walked with
  | done =>
    cases ok
    exact ⟨shown, rfl⟩
  | settled settled reads ih =>
    obtain ⟨same, -⟩ := settled.ok
    obtain ⟨after, stack⟩ := ih (shown.of_sameFiles same) ok
    exact ⟨after, stack.trans same.stack⟩
  | failed => cases ok
  | entered enters _ _ ihInner ihRest =>
    obtain ⟨leads, fresh, text, -, rfl⟩ := enters.new
    obtain ⟨inside, stack⟩ := ihInner (shown.opened fresh (included?_named canonical leads)) rfl
    obtain ⟨after, back⟩ := ihRest (inside.closed stack (shown.names.insert_fst _)) ok
    exact ⟨after, back.trans (congrArg List.tail stack)⟩
  | spoiled => cases ok

end Walk

namespace Preprocessed

variable {disk : Disk} {root contents : String} {pre : Preprocessed}

/-- The files of a preprocessed program, each known once under its display name. -/
structure Indexed (pre : Preprocessed) : Prop where
  once : pre.paths.Nodup
  named : ∀ file ∈ pre.files, ∀ c ∈ file.path, Path.IsName c
  shown : ∀ file ∈ pre.files, file.name = PathNames.shownName pre.names.rootDir file.path
  known : ∀ p name, pre.names.displayName? p = some name ↔
    ∃ file ∈ pre.files, file.path = p ∧ file.name = name
  processed : ∀ file ∈ pre.files, ∃ text, file.lines = processText pre.eqv file.name text

theorem indexed_ofWalk {walk : Walk} {rootDir : Path} (shown : walk.Shown rootDir)
    (closed : walk.stack = []) : (ofWalk walk).Indexed := by
  have visited (p : Path) : p ∈ walk.visited ↔ p ∈ walk.filePaths := by
    rw [shown.visited, Walk.stackPaths, closed]
    rfl
  have files : ∀ file ∈ (ofWalk walk).files, ∃ f ∈ walk.files,
      file = ⟨f.path, f.name, processText walk.eqv f.name f.contents⟩ := by
    intro file member
    obtain ⟨f, inside, rfl⟩ := List.mem_map.mp member
    exact ⟨f, List.mem_reverse.mp inside, rfl⟩
  have shownAs : ∀ file ∈ (ofWalk walk).files,
      file.name = PathNames.shownName rootDir file.path := by
    intro file member
    obtain ⟨f, inside, rfl⟩ := files file member
    exact shown.files f inside
  refine ⟨?_, fun file member => ?_, fun file member => ?_, fun p name => ⟨fun known => ?_, ?_⟩,
    fun file member => ?_⟩
  · rw [paths_ofWalk, List.nodup_reverse]
    exact (List.nodup_append.mp shown.once).2.1
  · obtain ⟨f, inside, rfl⟩ := files file member
    exact shown.named f.path ((visited _).mpr (List.mem_map_of_mem inside))
  · rw [shownAs file member, ← shown.names.directory]
    rfl
  · have met : p ∈ walk.visited := (shown.known p).mp (Option.isSome_iff_exists.mpr ⟨name, known⟩)
    obtain ⟨f, inside, rfl⟩ := List.mem_map.mp ((visited p).mp met)
    refine ⟨_, List.mem_map_of_mem (List.mem_reverse.mpr inside), rfl, ?_⟩
    rw [shown.names.displayName?_eq known, ← shown.files f inside]
  · rintro ⟨file, member, rfl, rfl⟩
    obtain ⟨f, inside, rfl⟩ := files file member
    have met := (visited f.path).mpr (List.mem_map_of_mem inside)
    obtain ⟨name, known⟩ := Option.isSome_iff_exists.mp ((shown.known f.path).mpr met)
    have same : f.name = name := by
      rw [shown.files f inside, shown.names.displayName?_eq known]
    exact same ▸ known
  · obtain ⟨f, -, rfl⟩ := files file member
    exact ⟨f.contents, rfl⟩

theorem ofRoot_indexed (canonical : disk.Canonical) (made : ofRoot disk root contents = .ok pre) :
    pre.Indexed ∧ pre.names.rootDir = (Path.join [] root).parent := by
  obtain ⟨walk, ⟨outcome, reads, ended⟩, rfl⟩ := ofRoot_walk made
  cases outcome with
  | error e => cases ended
  | ok inner =>
    cases ended
    have start := (Walk.shown_start (Path.join [] root).parent disk.resolve).opened
      List.not_mem_nil (Path.join_named root)
    obtain ⟨inside, stack⟩ := reads.shown canonical start rfl
    have shown : Walk.Shown (Path.join [] root).parent (inner.closed _ _ contents.toList) :=
      inside.closed stack rfl
    exact ⟨indexed_ofWalk shown (congrArg List.tail stack), shown.names.directory⟩

/-- One file is shown like another, since it has the same path from the root of the disk as the
other has below the root directory. -/
def Shadows (pre : Preprocessed) (outer inner : SourceFile) : Prop :=
  PathNames.Shadows pre.names.rootDir outer.path inner.path

instance (pre : Preprocessed) (outer inner : SourceFile) : Decidable (pre.Shadows outer inner) :=
  inferInstanceAs (Decidable (PathNames.Shadows _ _ _))

/-- The tag stands for this line of this file. -/
structure Denotes (pre : Preprocessed) (tag : SourceTag) (file : SourceFile) (line : SourceLine) :
    Prop where
  known : file ∈ pre.files
  member : line ∈ file.lines
  tagged : line.tag = tag

theorem Indexed.file_eq (indexed : pre.Indexed) {f g : SourceFile} (known : f ∈ pre.files)
    (known' : g ∈ pre.files) (same : f.path = g.path) : f = g :=
  List.inj_on_of_nodup_map indexed.once known known' same

theorem Indexed.name_eq_iff (indexed : pre.Indexed) {f g : SourceFile} (known : f ∈ pre.files)
    (known' : g ∈ pre.files) :
    f.name = g.name ↔ f = g ∨ pre.Shadows f g ∨ pre.Shadows g f := by
  rw [indexed.shown f known, indexed.shown g known',
    PathNames.shownName_eq_iff (indexed.named f known) (indexed.named g known')]
  exact or_congr_left ⟨indexed.file_eq known known', congrArg _⟩

theorem Indexed.getElem?_lines (indexed : pre.Indexed) {file : SourceFile}
    (known : file ∈ pre.files) {line : SourceLine} (member : line ∈ file.lines) :
    line.tag.file = file.name ∧ file.lines[line.tag.line - 1]? = some line := by
  obtain ⟨text, lines⟩ := indexed.processed file known
  rw [lines] at member ⊢
  obtain ⟨⟨raw, index⟩, numbered, rfl⟩ := List.mem_map.mp member
  refine ⟨rfl, ?_⟩
  rw [List.mk_mem_zipIdx_iff_getElem?] at numbered
  simp [processText, numbered]

theorem Indexed.denotes_unique (indexed : pre.Indexed) {tag : SourceTag} {f g : SourceFile}
    {line other : SourceLine} (denotes : pre.Denotes tag f line)
    (denotes' : pre.Denotes tag g other) :
    (f = g ∧ line = other) ∨ pre.Shadows f g ∨ pre.Shadows g f := by
  obtain ⟨known, member, rfl⟩ := denotes
  obtain ⟨known', member', same⟩ := denotes'
  obtain ⟨shown, found⟩ := indexed.getElem?_lines known member
  obtain ⟨shown', found'⟩ := indexed.getElem?_lines known' member'
  have names : f.name = g.name := by rw [← shown, ← shown', same]
  refine ((indexed.name_eq_iff known known').mp names).imp_left ?_
  rintro rfl
  rw [same, found] at found'
  exact ⟨rfl, Option.some.inj found'⟩

/-- What is assembled at an address comes from a linked line, which its tag stands for. -/
theorem denotes_of_assembled {settings : Settings} {assembled : Assembled}
    (done : assembleLines settings pre.link pre.names = .ok assembled) {a : Word}
    {entry : TextEntry} (found : assembled.program.text[a]? = some entry) :
    ∃ file line, pre.Denotes entry.tag file line ∧ line ∈ pre.link ∧
      entry.source = String.ofList (statementText line.text) := by
  obtain ⟨l, placed, done⟩ := except_bind_ok done
  obtain ⟨p, bound, done⟩ := except_bind_ok done
  cases done
  obtain ⟨blocks, overlaid⟩ := overlaid_of_bind placed bound
  obtain ⟨i, unit, has, -⟩ := ((overlaid.text a entry).mp found).covers
  obtain ⟨line, linked, written⟩ := exists_of_forall₂ overlaid.instructions unit
  obtain ⟨⟨instr, n⟩, -, rfl⟩ := List.mem_map.mp has
  have linked := (List.mem_filter.mp linked).1
  obtain ⟨file, known, member⟩ := List.mem_flatMap.mp (List.mem_filter.mp linked).1
  exact ⟨file, line, ⟨known, member, written.tag.symm⟩, linked, written.source⟩

/-- Two files share a display name just if one lies outside the root directory and has the path
that the other has in it. A tag stands for one line of one file, apart from such pairs, and so does
a breakpoint: where it makes a run pause, one of its lines has been assembled. -/
theorem names_shared (canonical : disk.Canonical) (made : ofRoot disk root contents = .ok pre) :
    pre.names.rootDir = (Path.join [] root).parent ∧
    (∀ p name, pre.names.displayName? p = some name ↔
      ∃ file ∈ pre.files, file.path = p ∧ file.name = name) ∧
    (∀ f ∈ pre.files, ∀ g ∈ pre.files,
      f.name = g.name ↔ f = g ∨ pre.Shadows f g ∨ pre.Shadows g f) ∧
    (∀ tag f line g other, pre.Denotes tag f line → pre.Denotes tag g other →
      (f = g ∧ line = other) ∨ pre.Shadows f g ∨ pre.Shadows g f) ∧
    ∀ settings assembled, assembleLines settings pre.link pre.names = .ok assembled →
      ∀ (d : Debugger) (a : Word) entry, d.enabled = true → d.continuing = true →
        assembled.program.text[a]? = some entry → (d.shouldBreak entry).1 = true →
          ∃ tag ∈ d.breakpoints, ∃ file line, pre.Denotes tag file line ∧ line ∈ pre.link ∧
            entry.source = String.ofList (statementText line.text) := by
  obtain ⟨indexed, rootDir⟩ := ofRoot_indexed canonical made
  refine ⟨rootDir, indexed.known, fun f known g known' => indexed.name_eq_iff known known',
    fun _ _ _ _ _ => indexed.denotes_unique, ?_⟩
  intro settings assembled done d a entry enabled continuing found breaks
  rcases (Debugger.shouldBreak_iff enabled entry).mp breaks with ⟨-, hit⟩ | paused
  · exact ⟨entry.tag, hit, denotes_of_assembled done found⟩
  · cases continuing.symm.trans paused

def neighboursText : String := ".include \"../lib/x.asm\"\n.include \"lib/y.asm\"\n"

/-- One file outside the directory of the root is included, and one inside. -/
def neighbours : Disk where
  files := [(["p", "main.asm"], neighboursText), (["lib", "x.asm"], "nop\n"),
    (["p", "lib", "y.asm"], "syscall\n")]
  resolve := FileTree.resolve? ⟨[["p"], ["lib"], ["p", "lib"]],
    [(["p", "main.asm"], []), (["lib", "x.asm"], []), (["p", "lib", "y.asm"], [])]⟩

theorem neighbours_canonical : neighbours.Canonical := ⟨FileTree.resolve?_named, by decide⟩

theorem names_shared_neighbours : ∃ pre,
    ofRoot neighbours "/p/main.asm" neighboursText = .ok pre ∧
      pre.files.map (·.name) = ["lib/x.asm", "lib/y.asm", "main.asm"] ∧
      ∀ tag f line g other, pre.Denotes tag f line → pre.Denotes tag g other →
        f = g ∧ line = other := by
  have shape : (ofRoot neighbours "/p/main.asm" neighboursText).map (fun pre =>
      (pre.files.map (·.name),
        decide (∀ f ∈ pre.files, ∀ g ∈ pre.files, ¬ pre.Shadows f g))) =
      .ok (["lib/x.asm", "lib/y.asm", "main.asm"], true) := by decide +kernel
  obtain ⟨pre, made, seen⟩ := except_map_ok shape
  obtain ⟨shown, apart⟩ := Prod.mk.inj seen
  have apart := of_decide_eq_true apart
  obtain ⟨-, -, -, unique, -⟩ := names_shared neighbours_canonical made
  refine ⟨pre, made, shown, fun tag f line g other denotes denotes' => ?_⟩
  rcases unique tag f line g other denotes denotes' with same | shadows | shadows
  · exact same
  · exact absurd shadows (apart f denotes.known g denotes'.known)
  · exact absurd shadows (apart g denotes'.known f denotes.known)

def homonymsText : String := ".include \"../lib/x.asm\"\n.include \"lib/x.asm\"\n"

/-- The directory of the root has a file that it shares its path with a file outside. -/
def homonyms : Disk where
  files := [(["p", "main.asm"], homonymsText), (["lib", "x.asm"], "nop\n"),
    (["p", "lib", "x.asm"], "syscall\n")]
  resolve := FileTree.resolve? ⟨[["p"], ["lib"], ["p", "lib"]],
    [(["p", "main.asm"], []), (["lib", "x.asm"], []), (["p", "lib", "x.asm"], [])]⟩

/-- The debugger that continues up to the first line of `lib/x.asm`. -/
def homonymsDebugger (names : PathNames) : Debugger :=
  ((Debugger.new true names).addBreakpoint "lib/x.asm" 1).2.2.resume .continue

/-- Two different files of a canonical disk are shown by one name, and a breakpoint on that name
pauses at instructions from both. -/
theorem names_shared_homonyms : homonyms.Canonical ∧ ∃ pre assembled,
    ofRoot homonyms "/p/main.asm" homonymsText = .ok pre ∧
      (∃ f ∈ pre.files, ∃ g ∈ pre.files, f.path ≠ g.path ∧
        pre.names.displayName? f.path = some "lib/x.asm" ∧
        pre.names.displayName? g.path = some "lib/x.asm") ∧
      assembleLines {} pre.link pre.names = .ok assembled ∧
      [MemoryMap.textBase, MemoryMap.textBase + 4].map (fun a =>
        (assembled.program.text[a]?).map fun entry =>
          (entry.instr, ((homonymsDebugger pre.names).shouldBreak entry).1)) =
        [some (.nop, true), some (.syscall, true)] := by
  have first : (ofRoot homonyms "/p/main.asm" homonymsText).map (fun pre =>
      (decide (∃ f ∈ pre.files, ∃ g ∈ pre.files, f.path ≠ g.path ∧
        pre.names.displayName? f.path = some "lib/x.asm" ∧
        pre.names.displayName? g.path = some "lib/x.asm"),
      (assembleLines {} pre.link pre.names).map fun assembled =>
        [MemoryMap.textBase, MemoryMap.textBase + 4].map (fun a =>
          (assembled.program.text[a]?).map fun entry =>
            (entry.instr, ((homonymsDebugger pre.names).shouldBreak entry).1)))) =
      .ok (true, .ok [some (.nop, true), some (.syscall, true)]) := by decide +kernel
  obtain ⟨pre, made, seen⟩ := except_map_ok first
  obtain ⟨shared, pauses⟩ := Prod.mk.inj seen
  obtain ⟨assembled, done, paused⟩ := except_map_ok pauses
  exact ⟨⟨FileTree.resolve?_named, by decide⟩, pre, assembled, made, of_decide_eq_true shared,
    done, paused⟩

end Preprocessed

end MipsLab
