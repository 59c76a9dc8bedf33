import MipsLab.Assembly.Assembler
import MipsLab.Proofs.Assembly.Placement
import MipsLab.Proofs.Assembly.Sizes

/-! Where the instructions of a program lie. If no line moves a segment, both passes put every unit
behind the instructions of all earlier ones: the first pass by adding up measured sizes, the second
by writing the final instructions out from the addresses that the first has left. -/
namespace MipsLab

open Std (ExtTreeMap)

/-- Units given by their addresses and numbers of instructions lie one behind another from the
base of the text segment on. -/
def Tight (units : List (Word × Nat)) : Prop :=
  ∀ before address count after, units = before ++ (address, count) :: after →
    address.toNat = MemoryMap.textBase.toNat + 4 * (before.map (·.2)).sum

theorem tight_nil : Tight [] := by
  intro before address count after split
  simp at split

theorem Tight.concat {units : List (Word × Nat)} (tight : Tight units) {address : Word}
    {count : Nat}
    (behind : address.toNat = MemoryMap.textBase.toNat + 4 * (units.map (·.2)).sum) :
    Tight (units ++ [(address, count)]) := by
  intro before other count' after split
  rcases List.eq_nil_or_concat' after with rfl | ⟨after, last, rfl⟩
  · obtain ⟨rfl, same⟩ := List.append_inj' split rfl
    cases same
    exact behind
  · rw [← List.cons_append, ← List.append_assoc] at split
    exact tight before other count' after (List.append_inj' split rfl).1

/-- How many instructions a placed line is measured to make. -/
def PlacedLine.count (p : PlacedLine) : Nat :=
  match expand p.name p.args unplaced with
  | .ok e => e.instrs.length
  | .error _ => 0

def PlacedLine.extent (p : PlacedLine) : Word × Nat := (p.address, p.count)

def SourceInstruction.count (i : SourceInstruction) : Nat := i.expansion.instrs.length

def SourceInstruction.extent (i : SourceInstruction) : Word × Nat := (i.address, i.count)

/-- A line does not move the segment that it opens. -/
def SourceLine.IsUnaddressed (line : SourceLine) : Prop :=
  ∀ segment, line.role = .enter segment → line.statement.args = []

theorem SourceLine.isUnaddressed_iff (line : SourceLine) : line.IsUnaddressed ↔
    (line.role = .enter .text ∨ line.role = .enter .data → line.statement.args = []) := by
  constructor
  · rintro stays (role | role)
    · exact stays .text role
    · exact stays .data role
  · intro stays segment role
    cases segment with
    | text => exact stays (.inl role)
    | data => exact stays (.inr role)

instance (line : SourceLine) : Decidable line.IsUnaddressed :=
  decidable_of_iff _ line.isUnaddressed_iff.symm

namespace Layout

variable {l l' b : Layout} {line : SourceLine}

/-- The text segment stands behind everything that has been placed. -/
structure Stands (l : Layout) : Prop where
  tight : Tight (l.placed.reverse.map PlacedLine.extent)
  here : l.textPc.toNat = MemoryMap.textBase.toNat + 4 * (l.placed.reverse.map PlacedLine.count).sum
  room : l.textPc.toNat ≤ MemoryMap.textLimit.toNat

theorem stands_start : Stands start := ⟨tight_nil, rfl, by decide⟩

theorem Stands.congr (stands : Stands l) (placed : l'.placed = l.placed)
    (textPc : l'.textPc = l.textPc) : Stands l' := by
  refine ⟨?_, ?_, ?_⟩
  · rw [placed]
    exact stands.tight
  · rw [placed, textPc]
    exact stands.here
  · rw [textPc]
    exact stands.room

theorem Stands.place (stands : Stands l) {p : PlacedLine} (placed : l'.placed = p :: l.placed)
    (address : p.address = l.textPc) (textPc : l'.textPc = l.textPc + BitVec.ofNat 32 (4 * p.count))
    (room : l.textPc.toNat + 4 * p.count ≤ MemoryMap.textLimit.toNat) : Stands l' := by
  have noWrap : l'.textPc.toNat = l.textPc.toNat + 4 * p.count := by
    have limit : MemoryMap.textLimit.toNat < 2 ^ 32 := MemoryMap.textLimit.isLt
    rw [textPc, BitVec.toNat_add, BitVec.toNat_ofNat]
    omega
  have here := stands.here
  refine ⟨?_, ?_, by rw [noWrap]; exact room⟩
  · rw [placed, List.reverse_cons, List.map_append]
    refine stands.tight.concat ?_
    rw [address, here, List.map_map]
    rfl
  · rw [noWrap, placed, List.reverse_cons, List.map_append, List.sum_append, here]
    simp only [List.map_cons, List.map_nil, List.sum_cons, List.sum_nil]
    omega

/-- Only an instruction moves the text segment, by what it is measured to make. -/
theorem Step.stands (step : Step l line l') (unaddressed : line.IsUnaddressed)
    (stands : Stands l) : Stands l' := by
  cases step with
  | idle => exact stands.congr rfl rfl
  | enter role binds stay =>
    refine stands.congr ?_ (stay (unaddressed _ role)).1
    rw [binds.rest]
    rfl
  | align _ _ binds _ => exact stands.congr (by rw [binds.rest]; rfl) (by rw [binds.rest]; rfl)
  | declaration _ binds _ => exact stands.congr (by rw [binds.rest]; rfl) (by rw [binds.rest]; rfl)
  | @instruction b sized _ _ binds sizing room =>
    have count : (PlacedLine.mk l.textPc line.statement.name line.statement.args line.tag
        (String.ofList (statementText line.text))).count = sized.instrs.length := by
      rw [PlacedLine.count, sizing]
    refine stands.place ?_ rfl (count ▸ rfl) (count ▸ room)
    rw [binds.rest]
    rfl

theorem Steps.stands {lines : List SourceLine} (steps : Steps l lines l')
    (unaddressed : ∀ line ∈ lines, line.IsUnaddressed) (stands : Stands l) : Stands l' := by
  induction steps with
  | nil => exact stands
  | cons step _ ih =>
    exact ih (fun line mem => unaddressed line (List.mem_cons_of_mem _ mem))
      (step.stands (unaddressed _ List.mem_cons_self) stands)

theorem ofLines_stands {lines : List SourceLine} (done : ofLines lines = .ok l)
    (unaddressed : ∀ line ∈ lines, line.IsUnaddressed) : Stands l := by
  obtain ⟨last, steps, binds⟩ := steps_of_ofLines done
  refine (steps.stands unaddressed stands_start).congr ?_ ?_ <;> rw [binds.rest]

end Layout

namespace SourceInstruction

/-- What a source instruction puts into the text segment. -/
def entries (i : SourceInstruction) : List TextEntry :=
  i.expansion.instrs.zipIdx.map fun (instr, n) =>
    { address := i.address + BitVec.ofNat 32 (4 * n), instr, tag := i.tag, source := i.source,
      expanded := i.expansion.pseudo, first := n == 0 }

theorem length_entries (i : SourceInstruction) : i.entries.length = i.count := by
  rw [entries, List.length_map, List.length_zipIdx, count]

theorem length_flatMap_entries (is : List SourceInstruction) :
    (is.flatMap entries).length = (is.map count).sum := by
  rw [List.length_flatMap]
  exact congrArg List.sum (List.map_congr_left fun i _ => i.length_entries)

theorem entries_getElem? {i : SourceInstruction} {n : Nat} {entry : TextEntry}
    (found : i.entries[n]? = some entry) :
    entry.address = i.address + BitVec.ofNat 32 (4 * n) ∧ entry.first = (n == 0) := by
  rw [entries, List.getElem?_map, Option.map_eq_some_iff] at found
  obtain ⟨⟨instr, m⟩, at_, rfl⟩ := found
  rw [List.getElem?_zipIdx, Option.map_eq_some_iff] at at_
  obtain ⟨instr', -, same⟩ := at_
  cases same
  simp

end SourceInstruction

section TextMap

variable {is : List SourceInstruction} {n : Nat} {entry : TextEntry}

theorem Tight.init {i : SourceInstruction}
    (tight : Tight ((is ++ [i]).map SourceInstruction.extent)) :
    Tight (is.map SourceInstruction.extent) := by
  intro before address count after split
  refine tight before address count (after ++ [i.extent]) ?_
  rw [List.map_append, split, List.append_assoc, List.cons_append]
  rfl

theorem Tight.address (tight : Tight (is.map SourceInstruction.extent))
    {before after : List SourceInstruction} {i : SourceInstruction}
    (split : is = before ++ i :: after) :
    i.address.toNat = MemoryMap.textBase.toNat + 4 * (before.map SourceInstruction.count).sum := by
  have address := tight (before.map SourceInstruction.extent) i.address i.count
    (after.map SourceInstruction.extent) (by rw [split, List.map_append, List.map_cons]; rfl)
  rwa [List.map_map] at address

/-- The entries of units that lie tight have every fourth address from the base on. -/
theorem Tight.address_entry (tight : Tight (is.map SourceInstruction.extent))
    (room : MemoryMap.textBase.toNat + 4 * (is.map SourceInstruction.count).sum ≤
      MemoryMap.textLimit.toNat)
    (found : (is.flatMap SourceInstruction.entries)[n]? = some entry) :
    entry.address.toNat = MemoryMap.textBase.toNat + 4 * n := by
  -- from the end, since the address of a unit depends on the units before it
  induction is using List.reverseRecOn generalizing n with
  | nil => simp at found
  | append_singleton is i ih =>
    rw [List.map_append, List.sum_append, List.map_singleton, List.sum_singleton] at room
    rw [List.flatMap_append, List.flatMap_singleton, List.getElem?_append,
      SourceInstruction.length_flatMap_entries] at found
    split at found
    · exact ih tight.init (by omega) found
    · rename_i behind
      obtain ⟨bound, -⟩ := List.getElem?_eq_some_iff.mp found
      rw [SourceInstruction.length_entries] at bound
      have limit : MemoryMap.textLimit.toNat < 2 ^ 32 := MemoryMap.textLimit.isLt
      rw [(SourceInstruction.entries_getElem? found).1, BitVec.toNat_add, BitVec.toNat_ofNat,
        tight.address rfl]
      omega

theorem Tight.nodup_addresses (tight : Tight (is.map SourceInstruction.extent))
    (room : MemoryMap.textBase.toNat + 4 * (is.map SourceInstruction.count).sum ≤
      MemoryMap.textLimit.toNat) :
    ((is.flatMap SourceInstruction.entries).map (·.address)).Nodup := by
  refine List.nodup_iff_getElem?_ne_getElem?.mpr fun m n less bound same => ?_
  rw [List.length_map] at bound
  rw [List.getElem?_map, List.getElem?_map, List.getElem?_eq_getElem bound,
    List.getElem?_eq_getElem (less.trans bound)] at same
  have first := tight.address_entry room (List.getElem?_eq_getElem (less.trans bound))
  have second := tight.address_entry room (List.getElem?_eq_getElem bound)
  have equal : (is.flatMap SourceInstruction.entries)[m].address =
      (is.flatMap SourceInstruction.entries)[n].address := Option.some.inj same
  rw [equal] at first
  omega

theorem getElem?_insertEntries {new : List TextEntry} {text : ExtTreeMap Word TextEntry}
    (distinct : (new.map (·.address)).Nodup) (a : Word) :
    (Assembler.insertEntries text new)[a]? = some entry ↔
      (entry ∈ new ∧ entry.address = a) ∨ (a ∉ new.map (·.address) ∧ text[a]? = some entry) := by
  induction new generalizing text with
  | nil => simp [Assembler.insertEntries]
  | cons first new ih =>
    obtain ⟨fresh, distinct⟩ := List.nodup_cons.mp distinct
    change (Assembler.insertEntries (text.insert first.address first) new)[a]? = _ ↔ _
    rw [ih distinct, ExtTreeMap.getElem?_insert, List.mem_cons, List.map_cons, List.mem_cons]
    by_cases here : first.address = a
    · subst here
      have later : ¬ (entry ∈ new ∧ entry.address = first.address) := fun ⟨mem, same⟩ =>
        fresh (List.mem_map.mpr ⟨entry, mem, same⟩)
      rw [if_pos (Std.ReflCmp.compare_self : compare first.address first.address = .eq)]
      simp only [fresh, later, not_false_iff, true_and, false_or, not_true, false_and, or_false,
        Option.some.injEq]
      constructor
      · rintro rfl
        exact ⟨.inl rfl, rfl⟩
      · rintro ⟨same | mem, address⟩
        · exact same.symm
        · exact absurd ⟨mem, address⟩ later
    · have differ : compare first.address a ≠ .eq := by simpa using here
      rw [if_neg differ]
      constructor
      · rintro (⟨mem, same⟩ | ⟨absent, found⟩)
        · exact .inl ⟨.inr mem, same⟩
        · exact .inr ⟨not_or.mpr ⟨Ne.symm here, absent⟩, found⟩
      · rintro (⟨rfl | mem, same⟩ | ⟨absent, found⟩)
        · exact absurd same here
        · exact .inl ⟨mem, same⟩
        · exact .inr ⟨(not_or.mp absent).2, found⟩

/-- The text that is written out for tight units holds their entries in order, one at every fourth
address from the base on, and nothing else. -/
theorem Tight.getElem?_text (tight : Tight (is.map SourceInstruction.extent))
    (room : MemoryMap.textBase.toNat + 4 * (is.map SourceInstruction.count).sum ≤
      MemoryMap.textLimit.toNat) (a : Word) :
    (Assembler.insertEntries ∅ (is.flatMap SourceInstruction.entries))[a]? = some entry ↔
      ∃ n, (is.flatMap SourceInstruction.entries)[n]? = some entry ∧
        a.toNat = MemoryMap.textBase.toNat + 4 * n := by
  rw [getElem?_insertEntries (tight.nodup_addresses room)]
  constructor
  · rintro (⟨mem, rfl⟩ | ⟨-, found⟩)
    · obtain ⟨n, found⟩ := List.mem_iff_getElem?.mp mem
      exact ⟨n, found, tight.address_entry room found⟩
    · simp at found
  · rintro ⟨n, found, at_⟩
    refine .inl ⟨List.mem_of_getElem? found, BitVec.eq_of_toNat_eq ?_⟩
    rw [at_, tight.address_entry room found]

theorem Tight.first_iff (tight : Tight (is.map SourceInstruction.extent))
    (room : MemoryMap.textBase.toNat + 4 * (is.map SourceInstruction.count).sum ≤
      MemoryMap.textLimit.toNat)
    (filled : ∀ i ∈ is, i.expansion.instrs ≠ []) (a : Word) :
    (∃ entry, (Assembler.insertEntries ∅ (is.flatMap SourceInstruction.entries))[a]? = some entry ∧
      entry.first = true) ↔ ∃ i ∈ is, i.address = a := by
  have held (entry : TextEntry) : (Assembler.insertEntries ∅
      (is.flatMap SourceInstruction.entries))[a]? = some entry ↔
        entry ∈ is.flatMap SourceInstruction.entries ∧ entry.address = a := by
    rw [getElem?_insertEntries (tight.nodup_addresses room)]
    simp
  simp only [held]
  constructor
  · rintro ⟨entry, ⟨mem, rfl⟩, isFirst⟩
    obtain ⟨i, here, mem⟩ := List.mem_flatMap.mp mem
    obtain ⟨n, found⟩ := List.mem_iff_getElem?.mp mem
    obtain ⟨address, first⟩ := SourceInstruction.entries_getElem? found
    have zero : n = 0 := by simpa [first] using isFirst
    refine ⟨i, here, ?_⟩
    rw [address, zero]
    simp
  · rintro ⟨i, here, rfl⟩
    have length : 0 < i.entries.length := by
      rw [SourceInstruction.length_entries]
      exact List.length_pos_iff.mpr (filled i here)
    have found := List.getElem?_eq_getElem length
    obtain ⟨address, first⟩ := SourceInstruction.entries_getElem? found
    refine ⟨_, ⟨List.mem_flatMap.mpr ⟨i, here, List.getElem_mem length⟩, ?_⟩, first⟩
    rw [address]
    simp

end TextMap

namespace Assembler

variable {labels : Labels} {placed : List PlacedLine} {is : List SourceInstruction}

/-- The final form of a placed line. -/
def Writes (labels : Labels) (p : PlacedLine) (i : SourceInstruction) : Prop :=
  ∃ e, expand p.name p.args labels = .ok e ∧ i = ⟨p.address, p.source, e, p.tag⟩

theorem writes_of_bindLine {p : PlacedLine} {i : SourceInstruction}
    (bound : bindLine labels p = .ok i) : Writes labels p i := by
  unfold bindLine at bound
  cases selected : expand p.name p.args labels with
  | error e =>
    rw [selected] at bound
    cases bound
  | ok e =>
    rw [selected] at bound
    cases bound
    exact ⟨e, selected, rfl⟩

theorem writes_of_mapM (bound : placed.mapM (bindLine labels) = .ok is) :
    List.Forall₂ (Writes labels) placed is := by
  induction placed generalizing is with
  | nil =>
    cases bound
    exact .nil
  | cons p placed ih =>
    rw [List.mapM_cons] at bound
    obtain ⟨i, first, bound⟩ := except_bind_ok bound
    obtain ⟨others, rest, bound⟩ := except_bind_ok bound
    cases bound
    exact .cons (writes_of_bindLine first) (ih rest)

theorem Writes.extent {p : PlacedLine} {i : SourceInstruction} (writes : Writes labels p i)
    (sized : ∃ sized, expand p.name p.args unplaced = .ok sized) : i.extent = p.extent := by
  obtain ⟨e, selected, rfl⟩ := writes
  obtain ⟨sized, sizing⟩ := sized
  have count : p.count = sized.instrs.length := by rw [PlacedLine.count, sizing]
  rw [SourceInstruction.extent, PlacedLine.extent, SourceInstruction.count, count,
    length_expand sizing selected]

theorem Writes.filled {p : PlacedLine} {i : SourceInstruction} (writes : Writes labels p i) :
    i.expansion.instrs ≠ [] := by
  obtain ⟨e, selected, rfl⟩ := writes
  exact expand_ne_nil selected

theorem Writes.entries {p : PlacedLine} {i : SourceInstruction} (writes : Writes labels p i) :
    Assembler.entries p i.expansion = i.entries := by
  obtain ⟨e, -, rfl⟩ := writes
  rfl

/-- What the second pass makes of a line, seen from the line itself. -/
structure Written (labels : Labels) (line : SourceLine) (i : SourceInstruction) : Prop where
  tag : i.tag = line.tag
  source : i.source = String.ofList (statementText line.text)
  expansion : expand line.statement.name line.statement.args labels = .ok i.expansion

theorem Writes.written {line : SourceLine} {p : PlacedLine} {i : SourceInstruction}
    (places : Layout.Places line p) (writes : Writes labels p i) : Written labels line i := by
  obtain ⟨e, selected, rfl⟩ := writes
  exact ⟨places.tag, places.source, by rw [← places.name, ← places.args, selected]⟩

theorem forall₂_written {lines : List SourceLine}
    (places : List.Forall₂ Layout.Places lines placed)
    (writes : List.Forall₂ (Writes labels) placed is) :
    List.Forall₂ (Written labels) lines is ∧
      is.map SourceInstruction.extent = placed.map PlacedLine.extent ∧
      ∀ i ∈ is, i.expansion.instrs ≠ [] := by
  induction places generalizing is with
  | nil =>
    cases writes
    exact ⟨.nil, rfl, by simp⟩
  | cons place _ ih =>
    cases writes with
    | cons write writes =>
      obtain ⟨written, extents, filled⟩ := ih writes
      refine ⟨.cons (write.written place) written, ?_, ?_⟩
      · rw [List.map_cons, List.map_cons, write.extent place.sized, extents]
      · exact List.forall_mem_cons.mpr ⟨write.filled, filled⟩

theorem getElem?_of_forall₂ {α β : Type} {related : α → β → Prop} {as : List α} {bs : List β}
    (all : List.Forall₂ related as bs) {k : Nat} {a : α} (found : as[k]? = some a) :
    ∃ b, bs[k]? = some b ∧ related a b := by
  induction all generalizing k with
  | nil => simp at found
  | cons first _ ih =>
    cases k with
    | zero =>
      cases found
      exact ⟨_, rfl, first⟩
    | succ k => exact ih found

theorem foldl_entries (writes : List.Forall₂ (Writes labels) placed is)
    (text : ExtTreeMap Word TextEntry) :
    (placed.zip is).foldl (fun text (p, i) => insertEntries text (Assembler.entries p i.expansion))
      text = insertEntries text (is.flatMap SourceInstruction.entries) := by
  induction writes generalizing text with
  | nil => rfl
  | cons first _ ih =>
    rw [List.zip_cons_cons, List.foldl_cons, ih, List.flatMap_cons]
    dsimp only
    rw [first.entries, insertEntries, insertEntries, insertEntries, List.foldl_append]

theorem bind_fields {startAtMain : Bool} {lines : List SourceLine} {names : PathNames} {l : Layout}
    {p : Program} (done : Assembler.bind startAtMain lines names l = .ok p) :
    l.placed.reverse.mapM (bindLine l.symbols.labels) = .ok p.instructions ∧
      p.symbols = l.symbols ∧ p.declarations = l.declarations.reverse ∧
      p.text = (l.placed.reverse.zip p.instructions).foldl
        (fun text (p, i) => insertEntries text (Assembler.entries p i.expansion)) ∅ := by
  obtain ⟨is, bound, done⟩ := except_bind_ok done
  obtain ⟨data, -, done⟩ := except_bind_ok done
  cases done
  exact ⟨bound, rfl, rfl, rfl⟩

end Assembler

/-- How a program lies in memory that was assembled from these lines. -/
structure Program.LaidOut (p : Program) (lines : List SourceLine) : Prop where
  /-- Each instruction line has its own source instruction, bound with the final labels. -/
  instructions : List.Forall₂ (Assembler.Written p.symbols.labels)
    (lines.filter (·.isInstruction)) p.instructions
  declarations : List.Forall₂ (fun line d => d.tag = line.tag) (lines.filter (·.isDeclaration))
    p.declarations
  addresses : ∀ k i, p.instructions[k]? = some i → i.address.toNat =
    MemoryMap.textBase.toNat + 4 * ((p.instructions.take k).map SourceInstruction.count).sum
  /-- The `n`th of all entries lies `4 * n` above the base, and nothing else is in the text. -/
  text : ∀ (a : Word) entry, p.text[a]? = some entry ↔
    ∃ n, (p.instructions.flatMap SourceInstruction.entries)[n]? = some entry ∧
      a.toNat = MemoryMap.textBase.toNat + 4 * n
  first : ∀ a : Word, (∃ entry, p.text[a]? = some entry ∧ entry.first = true) ↔
    ∃ i ∈ p.instructions, i.address = a
  /-- A label with only idle lines between it and a unit has the address of the unit. -/
  labels : ∀ before between unit after label, lines = before ++ between ++ unit :: after →
    (∀ line ∈ between, line.role = .idle) → label ∈ (between ++ [unit]).flatMap (·.labels) →
    (unit.isInstruction = true → ∃ i, i.tag = unit.tag ∧ p.symbols[label]? = some i.address ∧
      p.instructions[before.countP (·.isInstruction)]? = some i) ∧
    (unit.isDeclaration = true → ∃ d, d.tag = unit.tag ∧ p.symbols[label]? = some d.address ∧
      p.declarations[before.countP (·.isDeclaration)]? = some d)
  once : (lines.flatMap (·.labels)).Nodup
  bound : ∀ label, label ∈ lines.flatMap (·.labels) ↔ ∃ address, p.symbols[label]? = some address

theorem take_eq_of_getElem? {α : Type} {all : List α} {k : Nat} {a : α} (at_ : all[k]? = some a) :
    all = all.take k ++ a :: all.drop (k + 1) := by
  obtain ⟨bound, rfl⟩ := List.getElem?_eq_some_iff.mp at_
  rw [List.getElem_cons_drop, List.take_append_drop]

theorem laidOut_of_bind {startAtMain : Bool} {lines : List SourceLine} {names : PathNames}
    {l : Layout} {p : Program} (placed : Layout.ofLines lines = .ok l)
    (bound : Assembler.bind startAtMain lines names l = .ok p)
    (unaddressed : ∀ line ∈ lines, line.IsUnaddressed) : p.LaidOut lines := by
  obtain ⟨mapped, symbols, declarations, text⟩ := Assembler.bind_fields bound
  obtain ⟨follows, settled⟩ := Layout.ofLines_follows placed
  have stands := Layout.ofLines_stands placed unaddressed
  have writes := Assembler.writes_of_mapM mapped
  obtain ⟨written, extents, filled⟩ := Assembler.forall₂_written follows.placed writes
  have tight : Tight (p.instructions.map SourceInstruction.extent) := extents ▸ stands.tight
  have counts : p.instructions.map SourceInstruction.count =
      l.placed.reverse.map PlacedLine.count := by
    have seconds := congrArg (List.map (·.2)) extents
    rwa [List.map_map, List.map_map] at seconds
  have room : MemoryMap.textBase.toNat + 4 * (p.instructions.map SourceInstruction.count).sum ≤
      MemoryMap.textLimit.toNat := by
    rw [counts, ← stands.here]
    exact stands.room
  rw [Assembler.foldl_entries writes] at text
  obtain ⟨bound, all, once, known⟩ := follows.named
  rw [settled, List.append_nil] at all
  refine ⟨symbols ▸ written, declarations ▸ follows.declared, ?_, ?_, ?_, ?_, all ▸ once, ?_⟩
  · intro k i at_
    exact tight.address (take_eq_of_getElem? at_)
  · intro a entry
    rw [text]
    exact tight.getElem?_text room a
  · intro a
    rw [text]
    exact tight.first_iff room filled a
  · intro before between unit after label split idle heads
    subst split
    obtain ⟨onInstruction, onDeclaration⟩ := Layout.ofLines_unit placed idle heads
    rw [symbols, declarations]
    refine ⟨fun here => ?_, fun here => ?_⟩
    · obtain ⟨q, places, address, at_⟩ := onInstruction here
      obtain ⟨i, found, e, -, rfl⟩ := Assembler.getElem?_of_forall₂ writes at_
      exact ⟨_, places.tag, address, found⟩
    · exact onDeclaration here
  · intro label
    rw [all, known, symbols, Option.isSome_iff_exists]

/-- Lines that assemble and move no segment are laid out one behind another; and lines that define
a label twice never assemble, whether they move segments or not. -/
theorem assembleLines_laidOut (settings : Settings) (lines : List SourceLine) (names : PathNames) :
    (∀ assembled, assembleLines settings lines names = .ok assembled →
      (∀ line ∈ lines, line.IsUnaddressed) → assembled.program.LaidOut lines) ∧
    (¬ (lines.flatMap (·.labels)).Nodup →
      ∃ e, assembleLines settings lines names = .error e) := by
  constructor
  · intro assembled done unaddressed
    obtain ⟨l, placed, done⟩ := except_bind_ok done
    obtain ⟨p, bound, done⟩ := except_bind_ok done
    cases done
    exact laidOut_of_bind placed bound unaddressed
  · intro twice
    cases placed : Layout.ofLines lines with
    | error e =>
      refine ⟨e, ?_⟩
      rw [assembleLines, placed]
      rfl
    | ok l =>
      obtain ⟨follows, settled⟩ := Layout.ofLines_follows placed
      obtain ⟨bound, all, once, -⟩ := follows.named
      rw [settled, List.append_nil] at all
      exact absurd (all ▸ once) twice

/-- A pseudo-instruction of two instructions, a label alone on its line, and labels that wait in
either segment. -/
def sample : List SourceLine :=
  let texts := ["main: li $t0, 305419896", "again:", ".globl main", "addi $t0, $t0, 1", ".data", "",
    "one:", "two: .word again", ".text", "b again"]
  texts.zipIdx.map fun (text, n) => ⟨text.toList, ⟨"sample", n + 1⟩⟩

theorem assembleLines_laidOut_sample : ∃ assembled,
    assembleLines {} sample (.new [] fun _ => none) = .ok assembled ∧
      assembled.program.LaidOut sample ∧ assembled.program.instructions.length = 3 ∧
      ∃ e, assembleLines {} (sample ++ sample) (.new [] fun _ => none) = .error e := by
  have unaddressed : ∀ line ∈ sample, line.IsUnaddressed := by decide +kernel
  have twice : ¬ ((sample ++ sample).flatMap (·.labels)).Nodup := by decide +kernel
  have length : (assembleLines {} sample (.new [] fun _ => none)).map
      (·.program.instructions.length) = .ok 3 := by decide +kernel
  cases done : assembleLines {} sample (.new [] fun _ => none) with
  | error e =>
    rw [done] at length
    cases length
  | ok assembled =>
    rw [done] at length
    exact ⟨assembled, rfl, (assembleLines_laidOut {} sample _).1 assembled done unaddressed,
      Except.ok.inj length, (assembleLines_laidOut {} (sample ++ sample) _).2 twice⟩

end MipsLab
