import MipsLab.Files.Tree
import MipsLab.Proofs.Text.Cuts

/-! Canonical paths and their texts. The text of a path whose components are names is read back as
the same path, and the directory cut off the text is the text of its directory. A tree of files
leads to such paths only. -/
namespace MipsLab

namespace Text

theorem pieces_slash_intercalate {parts : List (List Char)} (some : parts ≠ [])
    (clean : ∀ part ∈ parts, '/' ∉ part) :
    pieces (· = '/') (['/'].intercalate parts) = parts := by
  have read := List.splitOn_intercalate '/' clean some
  rw [List.splitOn_eq_splitOnP] at read
  rw [pieces_eq_splitOnP]
  exact read

end Text

namespace Path

/-- A component that names something in its directory. Two dots do so too. -/
structure IsName (component : String) : Prop where
  filled : component ≠ ""
  notDot : component ≠ "."
  clean : '/' ∉ component.toList

theorem IsName.isIdle_eq {component : String} (h : IsName component) :
    isIdle component.toList = false := by
  have filled : component.toList ≠ [] := fun e => h.filled (String.toList_inj.mp (by simp [e]))
  have notDot : component.toList ≠ ['.'] := fun e => h.notDot (String.toList_inj.mp (by simp [e]))
  simp [isIdle, filled, notDot]

theorem toList_text (p : Path) :
    p.text.toList = '/' :: ['/'].intercalate (p.map String.toList) := by
  simp [text]

theorem pieces_text {p : Path} (filled : p ≠ []) (named : ∀ c ∈ p, IsName c) :
    Text.pieces (· = '/') p.text.toList = [] :: p.map String.toList := by
  have rooted : p.text.toList = ['/'].intercalate ([] :: p.map String.toList) := by
    rw [toList_text, List.intercalate_cons_of_ne_nil (by simpa using filled)]
    rfl
  rw [rooted]
  refine Text.pieces_slash_intercalate (by simp) fun part mem => ?_
  rcases List.mem_cons.mp mem with rfl | mem
  · simp
  · obtain ⟨c, here, rfl⟩ := List.mem_map.mp mem
    exact (named c here).clean

theorem join_text {p : Path} (named : ∀ c ∈ p, IsName c) : join [] p.text = p := by
  have rooted : p.text.toList.head? = some '/' := by rw [toList_text, List.head?_cons]
  rw [join, if_pos rooted]
  by_cases filled : p = []
  · subst filled
    decide
  · rw [pieces_text filled named, List.filter_cons_of_neg (by decide), List.filter_map,
      List.filter_eq_self.mpr fun c here => by simp [(named c here).isIdle_eq], List.map_map]
    simp [Function.comp_def]

theorem text_of_ne_nil {p : Path} (filled : p ≠ []) :
    String.ofList (['/'].intercalate ([] :: p.map String.toList)) = p.text := by
  apply String.toList_inj.mp
  rw [String.toList_ofList, toList_text, List.intercalate_cons_of_ne_nil (by simpa using filled)]
  rfl

theorem parentText_text {p : Path} (filled : p ≠ []) (named : ∀ c ∈ p, IsName c) :
    parentText p.text = p.parent.text := by
  rw [parentText, pieces_text filled named]
  obtain ⟨directory, last, rfl⟩ := (List.eq_nil_or_concat' p).resolve_left filled
  have idleLast := (named last (by simp)).isIdle_eq
  rcases List.eq_nil_or_concat' directory with rfl | ⟨outer, inner, rfl⟩
  · have idleRoot : isIdle [] = true := rfl
    simp [idleLast, idleRoot, parent, text]
  · have idleInner := (named inner (by simp)).isIdle_eq
    have parts := text_of_ne_nil (p := outer ++ [inner]) (by simp)
    simp [idleLast, idleInner, parent] at parts ⊢
    exact parts

end Path

/-- What canonicalising promises of a disk: it leads to names, and the outermost directory is not
a text file. -/
structure Disk.Canonical (disk : Disk) : Prop where
  named : ∀ {written path}, disk.resolve written = some path → ∀ c ∈ path, Path.IsName c
  rootless : disk.text? [] = none

namespace FileTree

theorem enter?_named {t : FileTree} {here there : Path} {component : String}
    (clean : '/' ∉ component.toList) (named : ∀ c ∈ here, Path.IsName c)
    (entered : t.enter? here component = some there) : ∀ c ∈ there, Path.IsName c := by
  unfold enter? at entered
  split at entered
  · cases entered
  split at entered
  · cases entered
    exact named
  rename_i names
  push Not at names
  split at entered
  · cases entered
    exact fun c mem => named c (List.mem_of_mem_dropLast mem)
  dsimp only at entered
  split at entered
  · cases entered
    intro c mem
    rcases List.mem_append.mp mem with old | new
    · exact named c old
    · rw [List.mem_singleton.mp new]
      exact ⟨names.1, names.2, clean⟩
  · cases entered

theorem walk?_named {t : FileTree} {components : List String} {here there : Path}
    (clean : ∀ c ∈ components, '/' ∉ c.toList) (named : ∀ c ∈ here, Path.IsName c)
    (walked : t.walk? here components = some there) : ∀ c ∈ there, Path.IsName c := by
  induction components generalizing here with
  | nil =>
    cases walked
    exact named
  | cons component components ih =>
    rw [walk?, List.foldlM_cons] at walked
    obtain ⟨next, entered, walked⟩ := Option.bind_eq_some_iff.mp walked
    exact ih (fun c mem => clean c (List.mem_cons_of_mem _ mem))
      (enter?_named (clean _ List.mem_cons_self) named entered) walked

theorem resolve?_named {t : FileTree} {written : String} {path : Path}
    (resolved : t.resolve? written = some path) : ∀ c ∈ path, Path.IsName c := by
  refine walk?_named (fun c component => ?_) (by simp) resolved
  obtain ⟨piece, cut, rfl⟩ := List.mem_map.mp component
  rw [String.toList_ofList]
  intro inside
  simpa using Text.notMem_of_mem_pieces cut '/' inside

theorem disk_canonical {t : FileTree} (rootless : t.bytes? [] = none) (directory : Path) :
    (t.disk directory).Canonical where
  named := resolve?_named
  rootless := by
    rw [Disk.text?, List.lookup_eq_none_iff]
    rw [bytes?, List.lookup_eq_none_iff] at rootless
    intro file listed
    obtain ⟨⟨p, bytes⟩, stored, read⟩ := List.mem_filterMap.mp listed
    obtain ⟨text, -, rfl⟩ := Option.map_eq_some_iff.mp read
    exact rootless _ stored

end FileTree

end MipsLab
