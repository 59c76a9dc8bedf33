import MipsLab.Proofs.Source.Paths
import MipsLab.Source.Linked

/-! The include walk without its budget. A line of a file is settled at once or has another file
read; `Reads` is the recursion that this describes, with no bound on the files that are open inside
one another, so that a derivation is a reading that ends. Every file entered is one that has not
been visited, which is why a budget of as many files as the disk holds is never used up. -/
namespace MipsLab

namespace Disk

/-- The file that the operand of an `.include` line leads to. -/
def led? (disk : Disk) (directory : String) (operand : List Char) : Option Path :=
  (Walk.includedPath? operand).bind fun written => disk.resolve (Path.joinText directory written)

/-- The file that a line includes, if it is a followed `.include` line. -/
def included? (disk : Disk) (directory : String) (text : List Char) : Option Path :=
  if isStringLine text then none
  else
    match directiveOf? text with
    | some (directive, operand) =>
      if directive = ".include".toList then disk.led? directory operand else none
    | none => none

/-- File `p` has an `.include` line that leads to `q`. -/
def Includes (disk : Disk) (p q : Path) : Prop :=
  ∃ contents, disk.text? p = some contents ∧
    ∃ text ∈ Text.lines contents.toList, disk.included? p.parent.text text = some q

end Disk

namespace Walk

def stackPaths (walk : Walk) : List Path := walk.stack.map (·.1)

def filePaths (walk : Walk) : List Path := walk.files.map (·.path)

def shownName (walk : Walk) (path : Path) : String := (walk.names.insert path).1

def opened (path : Path) (walk : Walk) : Walk :=
  { walk with
    names := (walk.names.insert path).2
    visited := path :: walk.visited
    stack := (path, walk.shownName path) :: walk.stack }

def closed (path : Path) (name : String) (contents : List Char) (walk : Walk) : Walk :=
  { walk with stack := walk.stack.tail, files := ⟨path, name, contents⟩ :: walk.files }

variable {disk : Disk} {directory name : String} {walk next : Walk} {numbered : List Char × Nat}
  {lines : List (List Char × Nat)} {path : Path} {contents : List Char}
  {enter : Path → List Char → Walk → Except PreprocessError Walk} {e : PreprocessError}

theorem file_eq : file disk enter directory path contents walk =
    ((Text.lines contents).zipIdx.foldlM (line disk enter directory (walk.shownName path))
      (walk.opened path)).map (closed path (walk.shownName path) contents) := by
  change (_ >>= _) = _
  cases h : (Text.lines contents).zipIdx.foldlM (line disk enter directory (walk.shownName path))
    (walk.opened path) with
  | error e => exact congrArg (· >>= _) h
  | ok walked => exact congrArg (· >>= _) h

/-- Two walks that differ in the definitions and the warnings only. -/
structure SameFiles (walk next : Walk) : Prop where
  stack : next.stack = walk.stack
  visited : next.visited = walk.visited
  files : next.files = walk.files
  names : next.names = walk.names

theorem SameFiles.refl (walk : Walk) : SameFiles walk walk := ⟨rfl, rfl, rfl, rfl⟩

theorem define_sameFiles {operand : List Char} {tag : SourceTag}
    (defined : walk.define operand tag = .ok next) : SameFiles walk next := by
  unfold define at defined
  split at defined
  · cases defined
  split at defined
  · cases defined
  split at defined
  · cases defined
    exact ⟨rfl, rfl, rfl, rfl⟩
  · cases defined

theorem define_error {operand : List Char} {tag : SourceTag}
    (defined : walk.define operand tag = .error e) (path : Path) (chain : List String) :
    e ≠ .cyclicInclude path chain := by
  unfold define at defined
  split at defined
  · cases defined
    simp
  split at defined
  · cases defined
    simp
  split at defined
  · cases defined
  · cases defined
    simp

/-- What the walk says of a file that is still open when it is reached again. -/
def chainTo (walk : Walk) (path : Path) : List String :=
  (walk.stack.map (·.2)).reverse ++ [walk.shownName path]

/-- The line has this outcome whatever reads the files that are entered. -/
def Settles (disk : Disk) (directory name : String) (walk : Walk) (numbered : List Char × Nat)
    (outcome : Except PreprocessError Walk) : Prop :=
  ∀ enter, line disk enter directory name walk numbered = outcome

/-- The line comes to the reading of a file. -/
def Enters (disk : Disk) (directory name : String) (walk : Walk) (numbered : List Char × Nat)
    (path : Path) (contents : List Char) : Prop :=
  ∀ enter, line disk enter directory name walk numbered = enter path contents walk

theorem any_stack (walk : Walk) (path : Path) :
    walk.stack.any (·.1 = path) = decide (path ∈ walk.stackPaths) := by
  rw [Bool.eq_iff_iff, List.any_eq_true, decide_eq_true_eq, stackPaths, List.mem_map]
  simp only [decide_eq_true_eq]

theorem follow_nowhere (walk : Walk) {operand : List Char} (tag : SourceTag)
    (nowhere : disk.led? directory operand = none) :
    ∃ e, (∀ enter, follow disk enter directory walk operand tag = .error e) ∧
      ∀ path chain, e ≠ .cyclicInclude path chain := by
  unfold Disk.led? at nowhere
  cases written : includedPath? operand with
  | none => exact ⟨_, fun _ => by simp only [follow, written]; rfl, by simp⟩
  | some shown =>
    rw [written, Option.bind_some] at nowhere
    exact ⟨_, fun _ => by simp only [follow, written, nowhere]; rfl, by simp⟩

theorem follow_somewhere (walk : Walk) {operand : List Char} (tag : SourceTag)
    (led : disk.led? directory operand = some path) :
    ∃ shown, ∀ enter, follow disk enter directory walk operand tag =
      if path ∈ walk.stackPaths then .error (.cyclicInclude path (walk.chainTo path))
      else if path ∈ walk.visited then .ok walk
      else
        match disk.text? path with
        | none => .error (.missingFile shown)
        | some contents => enter path contents.toList walk := by
  obtain ⟨written, read, resolved⟩ := Option.bind_eq_some_iff.mp led
  refine ⟨Path.joinText directory written, fun enter => ?_⟩
  simp only [follow, read, resolved, any_stack, decide_eq_true_eq, List.contains_iff_mem]
  rfl

theorem line_include (disk : Disk) (directory name : String) (walk : Walk)
    {text operand : List Char} (index : Nat) (plain : ¬ isStringLine text)
    (found : directiveOf? text = some (".include".toList, operand)) :
    disk.included? directory text = disk.led? directory operand ∧
      ∀ enter, line disk enter directory name walk (text, index) =
        follow disk enter directory walk operand ⟨name, index + 1⟩ := by
  simp only [Disk.included?, line, if_neg plain, found, if_true, and_self, implies_true]

/-- A line that is not a followed `.include` line settles. -/
theorem line_other (disk : Disk) (directory name : String) (walk : Walk) {text : List Char}
    (index : Nat) (other : isStringLine text ∨
      ∀ operand, directiveOf? text ≠ some (".include".toList, operand)) :
    disk.included? directory text = none ∧
      ((∃ next, Settles disk directory name walk (text, index) (.ok next) ∧
          SameFiles walk next) ∨
        ∃ e, Settles disk directory name walk (text, index) (.error e) ∧
          ∀ path chain, e ≠ .cyclicInclude path chain) := by
  by_cases strings : isStringLine text
  · exact ⟨by rw [Disk.included?, if_pos strings],
      .inl ⟨walk, fun _ => by rw [line, if_pos strings], .refl walk⟩⟩
  have other := other.resolve_left strings
  cases found : directiveOf? text with
  | none =>
    exact ⟨by simp only [Disk.included?, if_neg strings, found],
      .inl ⟨walk, fun _ => by simp only [line, if_neg strings, found], .refl walk⟩⟩
  | some parts =>
    obtain ⟨directive, operand⟩ := parts
    have notInclude : directive ≠ ".include".toList := fun h => other operand (h ▸ found)
    refine ⟨by simp only [Disk.included?, if_neg strings, found, if_neg notInclude], ?_⟩
    unfold Settles
    simp only [line, if_neg strings, found, if_neg notInclude]
    split
    · cases defined : walk.define operand ⟨name, index + 1⟩ with
      | ok next => exact .inl ⟨next, fun _ => rfl, define_sameFiles defined⟩
      | error e => exact .inr ⟨e, fun _ => rfl, define_error defined⟩
    · exact .inl ⟨walk, fun _ => rfl, .refl walk⟩

/-- All that a line can come to: the walk goes on with the files it has, it fails, or it enters a
file that is new. -/
theorem line_cases (disk : Disk) (directory name : String) (walk : Walk)
    (numbered : List Char × Nat) :
    (∃ next, Settles disk directory name walk numbered (.ok next) ∧ SameFiles walk next ∧
      ∀ q, disk.included? directory numbered.1 = some q →
        q ∈ walk.visited ∧ q ∉ walk.stackPaths) ∨
    (∃ e, Settles disk directory name walk numbered (.error e) ∧
      ∀ path chain, e = .cyclicInclude path chain →
        disk.included? directory numbered.1 = some path ∧ path ∈ walk.stackPaths ∧
          chain = walk.chainTo path) ∨
    (∃ path text, Enters disk directory name walk numbered path text.toList ∧
      disk.included? directory numbered.1 = some path ∧ path ∉ walk.visited ∧
        disk.text? path = some text) := by
  obtain ⟨text, index⟩ := numbered
  by_cases included : ¬ isStringLine text ∧
      ∃ operand, directiveOf? text = some (".include".toList, operand)
  · obtain ⟨plain, operand, found⟩ := included
    obtain ⟨leads, followed⟩ := line_include disk directory name walk index plain found
    simp only [Settles, Enters, followed, leads]
    cases led : disk.led? directory operand with
    | none =>
      obtain ⟨e, failed, other⟩ := follow_nowhere walk ⟨name, index + 1⟩ led
      exact .inr (.inl ⟨e, failed, fun path chain h => absurd h (other path chain)⟩)
    | some path =>
      obtain ⟨shown, result⟩ := follow_somewhere walk ⟨name, index + 1⟩ led
      by_cases stacked : path ∈ walk.stackPaths
      · refine .inr (.inl ⟨_, fun enter => by rw [result, if_pos stacked], fun _ _ h => ?_⟩)
        cases h
        exact ⟨rfl, stacked, rfl⟩
      by_cases seen : path ∈ walk.visited
      · refine .inl ⟨walk, fun enter => by rw [result, if_neg stacked, if_pos seen],
          .refl walk, fun q h => ?_⟩
        cases h
        exact ⟨seen, stacked⟩
      cases read : disk.text? path with
      | none =>
        refine .inr (.inl ⟨.missingFile shown, fun enter => ?_, by simp⟩)
        rw [result, if_neg stacked, if_neg seen, read]
      | some contents =>
        refine .inr (.inr ⟨path, contents, fun enter => ?_, rfl, seen, read⟩)
        rw [result, if_neg stacked, if_neg seen, read]
  · have other : isStringLine text ∨
        ∀ operand, directiveOf? text ≠ some (".include".toList, operand) := by
      by_contra both
      push Not at both
      exact included ⟨both.1, both.2⟩
    obtain ⟨nowhere, ⟨next, settled, same⟩ | ⟨e, settled, unlike⟩⟩ :=
      line_other disk directory name walk index other
    · exact .inl ⟨next, settled, same, by simp [nowhere]⟩
    · exact .inr (.inl ⟨e, settled, fun path chain h => absurd h (unlike path chain)⟩)

theorem Settles.unique {outcome outcome' : Except PreprocessError Walk}
    (settled : Settles disk directory name walk numbered outcome)
    (settled' : Settles disk directory name walk numbered outcome') : outcome = outcome' :=
  (settled fun _ _ w => .ok w).symm.trans (settled' _)

theorem Settles.not_enters {outcome : Except PreprocessError Walk}
    (settled : Settles disk directory name walk numbered outcome) :
    ¬ Enters disk directory name walk numbered path contents := by
  intro enters
  cases outcome with
  | ok next => cases (settled fun _ _ _ => .error (.missingFile "")).symm.trans (enters _)
  | error e => cases (settled fun _ _ w => .ok w).symm.trans (enters _)

theorem Enters.unique {path' : Path} {contents' : List Char}
    (enters : Enters disk directory name walk numbered path contents)
    (enters' : Enters disk directory name walk numbered path' contents') :
    path = path' ∧ contents = contents' := by
  -- a reader that answers with what it was asked to read
  have same := (enters fun path contents _ =>
    .error (.cyclicInclude path [.ofList contents])).symm.trans (enters' _)
  simpa only [Except.error.injEq, PreprocessError.cyclicInclude.injEq, List.cons.injEq,
    String.ofList_inj, and_true] using same

theorem Settles.ok (settled : Settles disk directory name walk numbered (.ok next)) :
    SameFiles walk next ∧ ∀ q, disk.included? directory numbered.1 = some q →
      q ∈ walk.visited ∧ q ∉ walk.stackPaths := by
  rcases line_cases disk directory name walk numbered with
    ⟨next', settled', facts⟩ | ⟨e, failed, -⟩ | ⟨path, text, enters, -⟩
  · cases settled.unique settled'
    exact facts
  · cases settled.unique failed
  · exact absurd enters settled.not_enters

theorem Settles.cyclic {chain : List String}
    (settled : Settles disk directory name walk numbered (.error (.cyclicInclude path chain))) :
    disk.included? directory numbered.1 = some path ∧ path ∈ walk.stackPaths ∧
      chain = walk.chainTo path := by
  rcases line_cases disk directory name walk numbered with
    ⟨next', settled', -⟩ | ⟨e, failed, facts⟩ | ⟨path', text, enters, -⟩
  · cases settled.unique settled'
  · exact facts path chain (Except.error.inj (failed.unique settled))
  · exact absurd enters settled.not_enters

theorem Enters.new (enters : Enters disk directory name walk numbered path contents) :
    disk.included? directory numbered.1 = some path ∧ path ∉ walk.visited ∧
      ∃ text, disk.text? path = some text ∧ contents = text.toList := by
  rcases line_cases disk directory name walk numbered with
    ⟨next', settled, -⟩ | ⟨e, failed, -⟩ | ⟨path', text, enters', included, fresh, read⟩
  · exact absurd enters settled.not_enters
  · exact absurd enters failed.not_enters
  · obtain ⟨rfl, rfl⟩ := enters.unique enters'
    exact ⟨included, fresh, text, read, rfl⟩

/-- The reading of the rest of a file, however deep the files inside it lie. -/
inductive Reads (disk : Disk) : (directory name : String) → Walk → List (List Char × Nat) →
    Except PreprocessError Walk → Prop
  | done {directory name : String} {walk : Walk} : Reads disk directory name walk [] (.ok walk)
  | settled {directory name : String} {walk next : Walk} {numbered : List Char × Nat}
      {lines : List (List Char × Nat)} {outcome : Except PreprocessError Walk} :
      Settles disk directory name walk numbered (.ok next) →
      Reads disk directory name next lines outcome →
      Reads disk directory name walk (numbered :: lines) outcome
  | failed {directory name : String} {walk : Walk} {numbered : List Char × Nat}
      {lines : List (List Char × Nat)} {e : PreprocessError} :
      Settles disk directory name walk numbered (.error e) →
      Reads disk directory name walk (numbered :: lines) (.error e)
  | entered {directory name : String} {walk inner : Walk} {numbered : List Char × Nat}
      {lines : List (List Char × Nat)} {path : Path} {contents : List Char}
      {outcome : Except PreprocessError Walk} :
      Enters disk directory name walk numbered path contents →
      Reads disk path.parent.text (walk.shownName path) (walk.opened path)
        (Text.lines contents).zipIdx (.ok inner) →
      Reads disk directory name (inner.closed path (walk.shownName path) contents) lines outcome →
      Reads disk directory name walk (numbered :: lines) outcome
  | spoiled {directory name : String} {walk : Walk} {numbered : List Char × Nat}
      {lines : List (List Char × Nat)} {path : Path} {contents : List Char}
      {e : PreprocessError} :
      Enters disk directory name walk numbered path contents →
      Reads disk path.parent.text (walk.shownName path) (walk.opened path)
        (Text.lines contents).zipIdx (.error e) →
      Reads disk directory name walk (numbered :: lines) (.error e)

/-- The reading of a file comes to an end with this outcome. -/
def Visits (disk : Disk) (directory : String) (path : Path) (contents : List Char) (walk : Walk)
    (outcome : Except PreprocessError Walk) : Prop :=
  ∃ read, Reads disk directory (walk.shownName path) (walk.opened path)
      (Text.lines contents).zipIdx read ∧
    outcome = read.map (closed path (walk.shownName path) contents)

theorem Reads.unique {outcome outcome' : Except PreprocessError Walk}
    (reads : Reads disk directory name walk lines outcome)
    (reads' : Reads disk directory name walk lines outcome') : outcome = outcome' := by
  induction reads generalizing outcome' with
  | done =>
    cases reads'
    rfl
  | settled settled _ ih =>
    cases reads' with
    | settled settled' reads' =>
      cases settled.unique settled'
      exact ih reads'
    | failed failed' => cases settled.unique failed'
    | entered enters' => exact absurd enters' settled.not_enters
    | spoiled enters' => exact absurd enters' settled.not_enters
  | failed failed =>
    cases reads' with
    | settled settled' => cases failed.unique settled'
    | failed failed' => exact failed.unique failed'
    | entered enters' => exact absurd enters' failed.not_enters
    | spoiled enters' => exact absurd enters' failed.not_enters
  | entered enters _ _ ihInner ihRest =>
    cases reads' with
    | settled settled' => exact absurd enters settled'.not_enters
    | failed failed' => exact absurd enters failed'.not_enters
    | entered enters' inner' rest' =>
      obtain ⟨rfl, rfl⟩ := enters.unique enters'
      cases ihInner inner'
      exact ihRest rest'
    | spoiled enters' inner' =>
      obtain ⟨rfl, rfl⟩ := enters.unique enters'
      cases ihInner inner'
  | spoiled enters _ ih =>
    cases reads' with
    | settled settled' => exact absurd enters settled'.not_enters
    | failed failed' => exact absurd enters failed'.not_enters
    | entered enters' inner' =>
      obtain ⟨rfl, rfl⟩ := enters.unique enters'
      cases ih inner'
    | spoiled enters' inner' =>
      obtain ⟨rfl, rfl⟩ := enters.unique enters'
      cases ih inner'
      rfl

theorem Visits.unique {outcome outcome' : Except PreprocessError Walk}
    (visits : Visits disk directory path contents walk outcome)
    (visits' : Visits disk directory path contents walk outcome') : outcome = outcome' := by
  obtain ⟨read, reads, rfl⟩ := visits
  obtain ⟨read', reads', rfl⟩ := visits'
  rw [reads.unique reads']

theorem Reads.visited_subset {outcome : Except PreprocessError Walk} {walked : Walk}
    (reads : Reads disk directory name walk lines outcome) (ok : outcome = .ok walked) :
    walk.visited ⊆ walked.visited := by
  induction reads generalizing walked with
  | done =>
    cases ok
    exact List.Subset.refl _
  | settled settled _ ih => exact settled.ok.1.visited ▸ ih ok
  | failed => cases ok
  | entered _ _ _ ihInner ihRest =>
    exact fun p seen => ihRest ok (ihInner rfl (List.mem_cons_of_mem _ seen))
  | spoiled => cases ok

/-- How many files of the disk have not been visited. -/
def unread (disk : Disk) (walk : Walk) : Nat := disk.files.countP (·.1 ∉ walk.visited)

theorem unread_le_of_visited_subset {walked : Walk} (grown : walk.visited ⊆ walked.visited) :
    unread disk walked ≤ unread disk walk := by
  refine List.countP_mono_left fun file _ new => ?_
  simp only [decide_eq_true_eq] at new ⊢
  exact fun seen => new (grown seen)

theorem unread_opened_lt {text : String} (fresh : path ∉ walk.visited)
    (read : disk.text? path = some text) : unread disk (walk.opened path) < unread disk walk := by
  obtain ⟨before, after, stored, -⟩ := List.lookup_eq_some_iff.mp read
  have le (files : List (Path × String)) :
      files.countP (·.1 ∉ (walk.opened path).visited) ≤ files.countP (·.1 ∉ walk.visited) :=
    List.countP_mono_left fun file _ new => by
      simp only [decide_eq_true_eq] at new ⊢
      exact fun seen => new (List.mem_cons_of_mem _ seen)
  have here : path ∈ (walk.opened path).visited := List.mem_cons_self
  unfold unread
  rw [stored, List.countP_append, List.countP_append, List.countP_cons_of_neg (by simpa using here),
    List.countP_cons_of_pos (by simpa using fresh)]
  have := le before
  have := le after
  omega

/-- Lines are read to the end if every new file with fewer unread files left is. -/
theorem reads_lines {budget : Nat}
    (visits : ∀ path contents walk, unread disk (walk.opened path) < budget →
      Visits disk path.parent.text path contents walk (enter path contents walk))
    (enough : unread disk walk ≤ budget) :
    Reads disk directory name walk lines
      (lines.foldlM (line disk enter directory name) walk) := by
  induction lines generalizing walk with
  | nil => exact .done
  | cons numbered lines ih =>
    rw [List.foldlM_cons]
    rcases line_cases disk directory name walk numbered with
      ⟨next, settled, same, -⟩ | ⟨e, failed, -⟩ | ⟨path, text, enters, -, fresh, read⟩
    · rw [settled]
      refine .settled settled (ih ?_)
      rwa [unread, same.visited]
    · rw [failed]
      exact .failed failed
    · obtain ⟨outcome, reads, result⟩ := visits path text.toList walk
        (Nat.lt_of_lt_of_le (unread_opened_lt fresh read) enough)
      rw [enters, result]
      cases outcome with
      | error e => exact .spoiled enters reads
      | ok inner =>
        refine .entered enters reads (ih ?_)
        have fewer : unread disk inner ≤ unread disk (walk.opened path) :=
          unread_le_of_visited_subset (reads.visited_subset rfl)
        exact (fewer.trans (unread_opened_lt fresh read).le).trans enough

theorem visit_visits (budget : Nat) (enough : unread disk (walk.opened path) ≤ budget) :
    Visits disk directory path contents walk
      (visit disk budget directory path contents walk) := by
  -- the budget bounds the unread files, and an opened file is one less of them
  induction budget generalizing directory path contents walk with
  | zero =>
    rw [visit, file_eq]
    exact ⟨_, reads_lines (fun _ _ _ few => absurd few (Nat.not_lt_zero _)) enough, rfl⟩
  | succ budget ih =>
    rw [visit, file_eq]
    exact ⟨_, reads_lines (fun _ _ _ few => ih (Nat.le_of_lt_succ few)) enough, rfl⟩

end Walk
end MipsLab
