import MipsLab.Proofs.Source.Walk

/-! What the include walk leaves. While it runs, the files that are open form a chain of includes
from the root, and every finished file stands behind all files it includes. So a walk that ends
well has collected exactly the files that can be reached, in an order that shows that no file
includes itself; and a file that is reached while it is open closes a real circle. -/
namespace MipsLab

namespace PathNames

/-- Every known path has the name it is shown by. -/
structure Regular (names : PathNames) (rootDir : Path) : Prop where
  directory : names.rootDir = rootDir
  entries : ∀ entry ∈ names.entries, entry.2 = shownName rootDir entry.1

variable {names : PathNames} {rootDir : Path}

theorem Regular.insert_fst (regular : names.Regular rootDir) (path : Path) :
    (names.insert path).1 = shownName rootDir path := by
  unfold insert
  cases known : names.displayName? path with
  | none => rw [← regular.directory]
  | some name =>
    obtain ⟨before, after, entries, -⟩ := List.lookup_eq_some_iff.mp known
    exact regular.entries (path, name) (by simp [entries])

theorem Regular.insert (regular : names.Regular rootDir) (path : Path) :
    (names.insert path).2.Regular rootDir := by
  unfold PathNames.insert
  cases names.displayName? path with
  | some name => exact regular
  | none =>
    refine ⟨regular.directory, fun entry mem => ?_⟩
    rcases List.mem_append.mp mem with old | new
    · exact regular.entries entry old
    · rw [List.mem_singleton.mp new, ← regular.directory]

end PathNames

namespace Disk

/-- In a list of files with the newest first, every file comes after the files it includes. -/
def Settled (disk : Disk) (files : List Path) : Prop :=
  ∀ newer p older, files = newer ++ p :: older → ∀ q, disk.Includes p q → q ∈ older

theorem Settled.cons {disk : Disk} {files : List Path} {path : Path} (settled : disk.Settled files)
    (included : ∀ q, disk.Includes path q → q ∈ files) : disk.Settled (path :: files) := by
  intro newer p older split
  cases newer with
  | nil =>
    cases split
    exact included
  | cons first newer =>
    cases split
    exact settled newer p older rfl

theorem Settled.mem_of_transGen {disk : Disk} {newer older : List Path} {p q : Path}
    (settled : disk.Settled (newer ++ p :: older)) (reached : Relation.TransGen disk.Includes p q) :
    q ∈ older := by
  induction reached with
  | single included => exact settled newer p older rfl _ included
  | tail _ included ih =>
    obtain ⟨before, after, rfl⟩ := List.append_of_mem ih
    have later := settled (newer ++ p :: before) _ after (by simp) _ included
    exact List.mem_append_right _ (List.mem_cons_of_mem _ later)

/-- A way from `root` along includes that comes back to a file it has passed. -/
structure ComesBack (disk : Disk) (root path : Path) (files : List Path) : Prop where
  head : files.head? = some root
  chain : files.IsChain disk.Includes
  last : files.getLast? = some path
  again : path ∈ files.dropLast

/-- What the walk promises of its list of files. -/
structure Collected (disk : Disk) (root : Path) (files : List Path) : Prop where
  once : files.Nodup
  reachable : ∀ p, p ∈ files ↔ Relation.ReflTransGen disk.Includes root p
  behind : ∀ before p after, files = before ++ p :: after → ∀ q, disk.Includes p q → q ∈ before
  last : files.getLast? = some root
  acyclic : ∀ p ∈ files, ¬ Relation.TransGen disk.Includes p p

end Disk

namespace Walk

/-- The invariant of the walk from `root`. -/
structure Sound (disk : Disk) (root : Path) (walk : Walk) : Prop where
  once : (walk.stackPaths ++ walk.filePaths).Nodup
  visited : ∀ p, p ∈ walk.visited ↔ p ∈ walk.stackPaths ++ walk.filePaths
  chain : walk.stackPaths.IsChain fun inner outer => disk.Includes outer inner
  rooted : ∀ p ∈ walk.stackPaths.getLast?, p = root
  reachable : ∀ p ∈ walk.visited, Relation.ReflTransGen disk.Includes root p
  settled : disk.Settled walk.filePaths
  names : walk.names.Regular root.parent
  stackNames : ∀ entry ∈ walk.stack, entry.2 = PathNames.shownName root.parent entry.1

variable {disk : Disk} {root path : Path} {directory name : String} {walk next walked : Walk}
  {numbered : List Char × Nat} {lines : List (List Char × Nat)} {contents : List Char}
  {outcome : Except PreprocessError Walk}

theorem Sound.of_sameFiles (sound : Sound disk root walk) (same : SameFiles walk next) :
    Sound disk root next := by
  obtain ⟨stack, visited, files, eqv, names, warnings⟩ := next
  obtain ⟨rfl, rfl, rfl, rfl⟩ := same
  exact ⟨sound.once, sound.visited, sound.chain, sound.rooted, sound.reachable, sound.settled,
    sound.names, sound.stackNames⟩

theorem sound_start (disk : Disk) (root : Path) (resolve : String → Option Path) :
    Sound disk root (.start (.new root.parent resolve)) := by
  refine ⟨?_, ?_, ?_, ?_, ?_, ?_, ⟨rfl, ?_⟩, ?_⟩ <;>
    simp [start, stackPaths, filePaths, Disk.Settled, PathNames.new]

theorem Sound.shownName_eq (sound : Sound disk root walk) (path : Path) :
    walk.shownName path = PathNames.shownName root.parent path :=
  sound.names.insert_fst path

theorem Sound.opened (sound : Sound disk root walk) (fresh : path ∉ walk.visited)
    (outer : ∀ top ∈ walk.stackPaths.head?, disk.Includes top path)
    (first : walk.stackPaths = [] → path = root) : Sound disk root (walk.opened path) where
  once := by
    rw [sound.visited] at fresh
    exact List.nodup_cons.mpr ⟨fresh, sound.once⟩
  visited p := by
    change p ∈ path :: walk.visited ↔ p ∈ path :: (walk.stackPaths ++ walk.filePaths)
    rw [List.mem_cons, List.mem_cons, sound.visited]
  chain := List.isChain_cons.mpr ⟨outer, sound.chain⟩
  rooted p last := by
    change p ∈ (path :: walk.stackPaths).getLast? at last
    cases stacked : walk.stackPaths with
    | nil =>
      rw [stacked] at last
      rw [← first stacked]
      simpa using last.symm
    | cons top rest =>
      rw [stacked, List.getLast?_cons_cons, ← stacked] at last
      exact sound.rooted p last
  reachable p seen := by
    rcases List.mem_cons.mp seen with rfl | seen
    · cases stacked : walk.stackPaths with
      | nil => rw [first stacked]
      | cons top rest =>
        have above : top ∈ walk.visited := (sound.visited top).mpr (by simp [stacked])
        exact (sound.reachable top above).tail (outer top (by simp [stacked]))
    · exact sound.reachable p seen
  settled := sound.settled
  names := sound.names.insert path
  stackNames entry mem := by
    rcases List.mem_cons.mp mem with rfl | mem
    · exact sound.shownName_eq path
    · exact sound.stackNames entry mem

theorem Sound.closed {rest : List (Path × String)} {shown : String}
    (sound : Sound disk root walked) (stack : walked.stack = (path, shown) :: rest)
    (included : ∀ q, disk.Includes path q → q ∈ walked.filePaths) :
    Sound disk root (walked.closed path name contents) := by
  obtain ⟨stacked, visited, files, eqv, names, warnings⟩ := walked
  cases stack
  have chain := sound.chain
  have rooted := sound.rooted
  obtain ⟨once, visited, -, -, reachable, settled, names, stackNames⟩ := sound
  refine ⟨?_, ?_, ?_, ?_, reachable, settled.cons included, names, ?_⟩
  · exact (List.perm_middle.nodup_iff).mpr once
  · intro p
    exact (visited p).trans List.perm_middle.mem_iff.symm
  · exact (List.isChain_cons.mp chain).2
  · intro p last
    refine rooted p ?_
    change p ∈ (path :: rest.map (·.1)).getLast?
    cases rest with
    | nil => simp [Walk.closed, stackPaths] at last
    | cons top rest => exact last
  · exact fun entry mem => stackNames entry (List.mem_cons_of_mem _ mem)

theorem includes_of_line {text : String} (read : disk.text? path = some text) :
    ∀ numbered ∈ (Text.lines text.toList).zipIdx, ∀ q,
      disk.included? path.parent.text numbered.1 = some q → disk.Includes path q := by
  intro numbered mem q leads
  obtain ⟨bound, line⟩ := List.mem_zipIdx' mem
  exact ⟨text, read, numbered.1, line ▸ List.getElem_mem bound, leads⟩

/-- What a walk that has read some lines keeps and has gained. -/
structure Advances (disk : Disk) (root : Path) (directory : String)
    (lines : List (List Char × Nat)) (walk walked : Walk) : Prop where
  sound : Sound disk root walked
  stack : walked.stack = walk.stack
  files : walk.filePaths ⊆ walked.filePaths
  followed : ∀ numbered ∈ lines, ∀ q, disk.included? directory numbered.1 = some q →
    q ∈ walked.filePaths

theorem Advances.cons (same : next.stack = walk.stack)
    (grown : walk.filePaths ⊆ next.filePaths)
    (included : ∀ q, disk.included? directory numbered.1 = some q → q ∈ next.filePaths)
    (advances : Advances disk root directory lines next walked) :
    Advances disk root directory (numbered :: lines) walk walked where
  sound := advances.sound
  stack := advances.stack.trans same
  files := List.Subset.trans grown advances.files
  followed line mem q leads := by
    rcases List.mem_cons.mp mem with rfl | mem
    · exact advances.files (included q leads)
    · exact advances.followed line mem q leads

theorem Advances.closed {text : String} (read : disk.text? path = some text)
    (advances : Advances disk root path.parent.text (Text.lines text.toList).zipIdx
      (walk.opened path) walked) :
    Sound disk root (walked.closed path name contents) := by
  refine advances.sound.closed advances.stack ?_
  rintro q ⟨text', read', line, mem, leads⟩
  cases read.symm.trans read'
  obtain ⟨index, bound, rfl⟩ := List.getElem_of_mem mem
  exact advances.followed _ (List.mk_mem_zipIdx_iff_getElem?.mpr (List.getElem?_eq_getElem bound))
    q leads

theorem Sound.comesBack (sound : Sound disk root walk) (again : path ∈ walk.stackPaths)
    (outer : ∀ top ∈ walk.stackPaths.head?, disk.Includes top path) :
    ∃ files, walk.chainTo path = files.map (PathNames.shownName root.parent) ∧
      disk.ComesBack root path files := by
  refine ⟨walk.stackPaths.reverse ++ [path], ?_, ?_, ?_, ?_, ?_⟩
  · have shown : walk.stack.map (·.2) =
        walk.stackPaths.map (PathNames.shownName root.parent) := by
      rw [stackPaths, List.map_map]
      exact List.map_congr_left sound.stackNames
    rw [chainTo, shown, sound.shownName_eq, List.map_append, List.map_reverse]
    rfl
  · obtain ⟨last, isLast⟩ : ∃ last, walk.stackPaths.getLast? = some last :=
      Option.ne_none_iff_exists'.mp fun none =>
        List.ne_nil_of_mem again (List.getLast?_eq_none_iff.mp none)
    rw [List.head?_append_of_ne_nil _ (by simpa using List.ne_nil_of_mem again),
      List.head?_reverse, isLast, sound.rooted last isLast]
  · refine List.isChain_append.mpr ⟨List.isChain_reverse.mpr sound.chain, .singleton _, ?_⟩
    intro top isTop q isPath
    rw [List.getLast?_reverse] at isTop
    cases isPath
    exact outer top isTop
  · simp
  · simpa using again

/-- A file that is entered from the file on top is opened soundly, and is then the one on top. -/
theorem Sound.entered (sound : Sound disk root walk) (filled : walk.stackPaths ≠ [])
    (enters : Enters disk directory name walk numbered path contents)
    (top : ∀ p ∈ walk.stackPaths.head?, ∀ q,
      disk.included? directory numbered.1 = some q → disk.Includes p q) :
    Sound disk root (walk.opened path) ∧ ∃ text, disk.text? path = some text ∧
      contents = text.toList ∧
      ∀ p ∈ (walk.opened path).stackPaths.head?, ∀ numbered ∈ (Text.lines contents).zipIdx,
        ∀ q, disk.included? path.parent.text numbered.1 = some q → disk.Includes p q := by
  obtain ⟨leads, fresh, text, read, rfl⟩ := enters.new
  refine ⟨sound.opened fresh (fun p isTop => top p isTop path leads) fun none =>
    absurd none filled, text, read, rfl, fun p isTop => ?_⟩
  cases isTop
  exact includes_of_line read

/-- Reading on from a sound walk keeps it sound, and an error about a circle tells of a real one. -/
theorem Reads.sound (reads : Reads disk directory name walk lines outcome)
    (sound : Sound disk root walk) (filled : walk.stackPaths ≠ [])
    (top : ∀ p ∈ walk.stackPaths.head?, ∀ numbered ∈ lines, ∀ q,
      disk.included? directory numbered.1 = some q → disk.Includes p q) :
    (∀ walked, outcome = .ok walked → Advances disk root directory lines walk walked) ∧
    ∀ path chain, outcome = .error (.cyclicInclude path chain) →
      ∃ files, chain = files.map (PathNames.shownName root.parent) ∧
        disk.ComesBack root path files := by
  -- along the recursion of the walk: what an inner file has finished stays finished, and the
  -- stack is the same again when the next line is read
  induction reads with
  | done =>
    refine ⟨fun walked ok => ?_, fun _ _ failed => (by cases failed)⟩
    cases ok
    exact ⟨sound, rfl, List.Subset.refl _, fun _ mem => by cases mem⟩
  | @settled directory name walk next numbered lines outcome settled reads ih =>
    obtain ⟨same, visited⟩ := settled.ok
    have paths : next.stackPaths = walk.stackPaths := by rw [stackPaths, same.stack, stackPaths]
    obtain ⟨good, bad⟩ := ih (sound.of_sameFiles same) (paths ▸ filled)
      (fun p isTop line mem => top p (paths ▸ isTop) line (List.mem_cons_of_mem _ mem))
    refine ⟨fun walked ok => .cons same.stack ?_ ?_ (good walked ok), bad⟩
    · rw [filePaths, filePaths, same.files]
      exact List.Subset.refl _
    · intro q leads
      obtain ⟨seen, closed⟩ := visited q leads
      have finished := (List.mem_append.mp ((sound.visited q).mp seen)).resolve_left closed
      rwa [filePaths, same.files]
  | failed settled =>
    refine ⟨fun _ ok => (by cases ok), fun path chain failed => ?_⟩
    cases failed
    obtain ⟨leads, again, rfl⟩ := settled.cyclic
    exact sound.comesBack again fun p isTop => top p isTop _ List.mem_cons_self _ leads
  | @entered directory name walk inner numbered lines path contents outcome enters _ _ ihInner
      ihRest =>
    obtain ⟨opened, text, read, rfl, topInside⟩ :=
      sound.entered filled enters fun p isTop => top p isTop _ List.mem_cons_self
    have inside := (ihInner opened (List.cons_ne_nil _ _) topInside).1 inner rfl
    have back : (inner.closed path (walk.shownName path) text.toList).stack = walk.stack :=
      congrArg List.tail inside.stack
    have paths : (inner.closed path (walk.shownName path) text.toList).stackPaths =
        walk.stackPaths := by rw [stackPaths, back, stackPaths]
    obtain ⟨good, bad⟩ := ihRest (inside.closed read) (paths ▸ filled)
      (fun p isTop line mem => top p (paths ▸ isTop) line (List.mem_cons_of_mem _ mem))
    refine ⟨fun walked ok => .cons back ?_ ?_ (good walked ok), bad⟩
    · exact fun p mem => List.mem_cons_of_mem _ (inside.files mem)
    · intro q leads
      cases enters.new.1.symm.trans leads
      exact List.mem_cons_self
  | spoiled enters _ ih =>
    obtain ⟨opened, text, read, rfl, topInside⟩ :=
      sound.entered filled enters fun p isTop => top p isTop _ List.mem_cons_self
    refine ⟨fun _ ok => (by cases ok), fun path chain failed => ?_⟩
    cases failed
    exact (ih opened (List.cons_ne_nil _ _) topInside).2 path chain rfl

theorem Sound.collected (sound : Sound disk root walk) (closed : walk.stack = [])
    (first : walk.filePaths.head? = some root) :
    disk.Collected root walk.filePaths.reverse := by
  have stackPaths_nil : walk.stackPaths = [] := by rw [stackPaths, closed]; rfl
  have once := sound.once
  have visited := sound.visited
  rw [stackPaths_nil, List.nil_append] at once
  simp only [stackPaths_nil, List.nil_append] at visited
  have behind : ∀ before p after, walk.filePaths.reverse = before ++ p :: after →
      walk.filePaths = after.reverse ++ p :: before.reverse := fun before p after split => by
    rw [← List.reverse_reverse walk.filePaths, split]
    simp
  refine ⟨List.nodup_reverse.mpr once, fun p => ?_, fun before p after split q included => ?_, ?_,
    fun p mem circle => ?_⟩
  · rw [List.mem_reverse]
    refine ⟨fun mem => sound.reachable p ((visited p).mpr mem), fun reached => ?_⟩
    induction reached with
    | refl => exact List.mem_of_mem_head? first
    | tail _ included ih =>
      obtain ⟨newer, older, split⟩ := List.append_of_mem ih
      rw [split]
      have settled := sound.settled newer _ older split _ included
      exact List.mem_append_right _ (List.mem_cons_of_mem _ settled)
  · have settled := sound.settled _ p _ (behind before p after split) q included
    exact List.mem_reverse.mp settled
  · rw [List.getLast?_reverse, first]
  · obtain ⟨newer, older, split⟩ := List.append_of_mem (List.mem_reverse.mp mem)
    have again := (split ▸ sound.settled).mem_of_transGen circle
    rw [split] at once
    have distinct := (List.nodup_append.mp once).2.1
    exact (List.nodup_cons.mp distinct).1 again

/-- The walk from a file on the disk either collects the files or comes to an error, and it does
not blame a circle that is not there. -/
theorem Visits.collected {text : String} {resolve : String → Option Path}
    (read : disk.text? root = some text)
    (visits : Visits disk root.parent.text root text.toList (.start (.new root.parent resolve))
      outcome) :
    (∀ walked, outcome = .ok walked → disk.Collected root walked.filePaths.reverse) ∧
    ∀ path chain, outcome = .error (.cyclicInclude path chain) →
      ∃ files, chain = files.map (PathNames.shownName root.parent) ∧
        disk.ComesBack root path files := by
  obtain ⟨result, reads, rfl⟩ := visits
  have opened := (sound_start disk root resolve).opened (by simp [start])
    (by simp [start, stackPaths]) fun _ => rfl
  obtain ⟨good, bad⟩ := reads.sound opened (by simp [stackPaths, Walk.opened]) fun p isTop => by
    cases isTop
    exact includes_of_line read
  cases result with
  | error e =>
    refine ⟨fun _ ok => (by cases ok), fun path chain failed => bad path chain ?_⟩
    cases failed
    rfl
  | ok inner =>
    refine ⟨fun walked ok => ?_, fun _ _ failed => (by cases failed)⟩
    cases ok
    have advances := good inner rfl
    exact (advances.closed read).collected (congrArg List.tail advances.stack) rfl

end Walk

namespace Preprocessed

/-- The files of a walk that has ended, ready to be linked. -/
def ofWalk (walk : Walk) : Preprocessed where
  files := walk.files.reverse.map fun f => ⟨f.path, f.name, processText walk.eqv f.name f.contents⟩
  eqv := walk.eqv
  names := walk.names
  warnings := walk.warnings.reverse

def paths (pre : Preprocessed) : List Path := pre.files.map (·.path)

theorem paths_ofWalk (walk : Walk) : (ofWalk walk).paths = walk.filePaths.reverse := by
  rw [paths, ofWalk, Walk.filePaths, ← List.map_reverse, List.map_map]
  rfl

/-- The walk that starts at the file `root`. -/
def startAt (disk : Disk) (root : Path) : Walk := .start (.new root.parent disk.resolve)

theorem ofFile_eq {disk : Disk} (canonical : disk.Canonical) {written contents : String}
    {root : Path} (resolved : disk.resolve written = some root)
    (read : disk.text? root = some contents) :
    ofFile disk written = (Walk.visit disk disk.files.length root.parent.text root contents.toList
      (startAt disk root)).map ofWalk := by
  have named := canonical.named resolved
  have filled : root ≠ [] := by
    rintro rfl
    rw [canonical.rootless] at read
    cases read
  simp only [ofFile, resolved, Option.bind_some, read, Option.map_some, ofRoot,
    Path.join_text named, Path.parentText_text filled named]
  change (Walk.visit disk disk.files.length root.parent.text root contents.toList
    (startAt disk root) >>= fun walk => pure (ofWalk walk)) = _
  cases Walk.visit disk disk.files.length root.parent.text root contents.toList
    (startAt disk root) <;> rfl

/-- The walk from a file on the disk ends, with the one outcome that the walk without a budget has.
If it ends well, its files are those that can be reached, each once and behind what it includes. A
circle that can be reached makes it fail, and a circle that it reports is a real one. -/
theorem ofFile_collects {disk : Disk} (canonical : disk.Canonical) {written contents : String}
    {root : Path} (resolved : disk.resolve written = some root)
    (read : disk.text? root = some contents) :
    (∃ outcome, (∀ result, result = outcome ↔
        Walk.Visits disk root.parent.text root contents.toList (startAt disk root) result) ∧
      ofFile disk written = outcome.map ofWalk) ∧
    (∀ pre, ofFile disk written = .ok pre → disk.Collected root pre.paths) ∧
    ((∃ p, Relation.ReflTransGen disk.Includes root p ∧ Relation.TransGen disk.Includes p p) →
      ∃ e, ofFile disk written = .error e) ∧
    ∀ path chain, ofFile disk written = .error (.cyclicInclude path chain) →
      ∃ files, chain = files.map (PathNames.shownName root.parent) ∧
        disk.ComesBack root path files := by
  have few : Walk.unread disk ((startAt disk root).opened root) ≤ disk.files.length :=
    List.countP_le_length
  have visits : Walk.Visits disk root.parent.text root contents.toList (startAt disk root) _ :=
    Walk.visit_visits disk.files.length few
  have result := ofFile_eq canonical resolved read
  obtain ⟨good, bad⟩ := visits.collected read
  generalize Walk.visit disk disk.files.length root.parent.text root contents.toList
    (startAt disk root) = outcome at visits result good bad
  have collected : ∀ pre, ofFile disk written = .ok pre → disk.Collected root pre.paths := by
    intro pre ok
    cases outcome with
    | error e => cases result.symm.trans ok
    | ok walk =>
      cases result.symm.trans ok
      exact paths_ofWalk walk ▸ good walk rfl
  have only (other : Except PreprocessError Walk) : other = outcome ↔
      Walk.Visits disk root.parent.text root contents.toList (startAt disk root) other :=
    ⟨fun same => same ▸ visits, fun also => also.unique visits⟩
  refine ⟨⟨outcome, only, result⟩, collected, ?_, fun path chain failed => bad path chain ?_⟩
  · rintro ⟨p, reached, circle⟩
    cases ended : ofFile disk written with
    | error e => exact ⟨e, rfl⟩
    | ok pre =>
      have all := collected pre ended
      exact absurd circle (all.acyclic p ((all.reachable p).mpr reached))
  · cases outcome with
    | error e =>
      cases result.symm.trans failed
      rfl
    | ok walk => cases result.symm.trans failed

/-- A root file whose first include is one of two files that include each other. -/
def circle : Disk where
  files := [(["main.asm"], ".include \"a.asm\"\n"), (["a.asm"], ".include \"b.asm\"\n"),
    (["b.asm"], ".include \"a.asm\"\n")]
  resolve := FileTree.resolve? ⟨[], [(["main.asm"], []), (["a.asm"], []), (["b.asm"], [])]⟩

example : (ofFile circle "/main.asm").map paths =
    .error (.cyclicInclude ["a.asm"] ["main.asm", "a.asm", "b.asm", "a.asm"]) := by
  decide +kernel

/-- A root file that reaches the last file on two ways. -/
def diamond : Disk where
  files := [(["main.asm"], ".include \"a.asm\"\n.include \"b.asm\"\n"),
    (["a.asm"], ".include \"common.asm\"\n"), (["b.asm"], ".include \"common.asm\"\n"),
    (["common.asm"], "nop\n")]
  resolve := FileTree.resolve?
    ⟨[], [(["main.asm"], []), (["a.asm"], []), (["b.asm"], []), (["common.asm"], [])]⟩

theorem ofFile_collects_diamond : diamond.Canonical ∧ ∃ pre,
    ofFile diamond "/main.asm" = .ok pre ∧ diamond.Collected ["main.asm"] pre.paths ∧
      pre.paths = [["common.asm"], ["a.asm"], ["b.asm"], ["main.asm"]] := by
  have canonical : diamond.Canonical := ⟨FileTree.resolve?_named, rfl⟩
  have order : (ofFile diamond "/main.asm").map paths =
      .ok [["common.asm"], ["a.asm"], ["b.asm"], ["main.asm"]] := by decide +kernel
  have resolved : diamond.resolve "/main.asm" = some ["main.asm"] := by decide +kernel
  have collects := ofFile_collects canonical resolved rfl
  cases ended : ofFile diamond "/main.asm" with
  | error e =>
    rw [ended] at order
    cases order
  | ok pre =>
    rw [ended] at order
    exact ⟨canonical, pre, rfl, collects.2.1 pre ended, Except.ok.inj order⟩

end Preprocessed

end MipsLab
