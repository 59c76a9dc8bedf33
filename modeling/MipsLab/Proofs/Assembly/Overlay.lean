import MipsLab.Proofs.Assembly.DataImage

/-! What is left where segments are moved over each other. Text and data are filled by writes that
replace what they meet, so at each address the last unit is seen that has something there; words
that want the address of a label are written after all other data. -/
namespace MipsLab

open Std (ExtTreeMap)

section Layers

variable {α β : Type} {puts : α → Word → β → Prop} {pieces front back : List α} {s : α}
  {x : Word} {v : β}

/-- A piece has something at an address. -/
def Covers (puts : α → Word → β → Prop) (s : α) (x : Word) : Prop := ∃ v, puts s x v

/-- What is seen at an address when pieces are laid over each other in order: the last of those
that cover it. -/
def Shows (puts : α → Word → β → Prop) (pieces : List α) (x : Word) (v : β) : Prop :=
  ∃ before s after, pieces = before ++ s :: after ∧ puts s x v ∧ ∀ t ∈ after, ¬ Covers puts t x

/-- No address is covered by both. -/
def Parted (puts : α → Word → β → Prop) (s t : α) : Prop := ∀ x, Covers puts s x → ¬ Covers puts t x

theorem not_shows_nil : ¬ Shows puts [] x v := by
  rintro ⟨before, s, after, split, -⟩
  simp at split

theorem shows_cons : Shows puts (s :: pieces) x v ↔
    Shows puts pieces x v ∨ (∀ t ∈ pieces, ¬ Covers puts t x) ∧ puts s x v := by
  constructor
  · rintro ⟨before, t, after, split, here, clear⟩
    cases before with
    | nil =>
      cases split
      exact .inr ⟨clear, here⟩
    | cons first before =>
      cases split
      exact .inl ⟨before, t, after, rfl, here, clear⟩
  · rintro (⟨before, t, after, rfl, here, clear⟩ | ⟨clear, here⟩)
    · exact ⟨s :: before, t, after, rfl, here, clear⟩
    · exact ⟨[], s, pieces, rfl, here, clear⟩

theorem Shows.covers (seen : Shows puts pieces x v) : ∃ s ∈ pieces, puts s x v := by
  obtain ⟨before, s, after, rfl, here, -⟩ := seen
  exact ⟨s, by simp, here⟩

theorem exists_shows_iff : (∃ v, Shows puts pieces x v) ↔ ∃ s ∈ pieces, Covers puts s x := by
  induction pieces with
  | nil => simp [not_shows_nil]
  | cons s pieces ih =>
    simp only [shows_cons, exists_or, List.exists_mem_cons_iff, ih]
    constructor
    · rintro (later | ⟨v, -, here⟩)
      · exact .inr later
      · exact .inl ⟨v, here⟩
    · rintro (⟨v, here⟩ | later)
      · by_cases hidden : ∃ t ∈ pieces, Covers puts t x
        · exact .inl hidden
        · exact .inr ⟨v, fun t member covers => hidden ⟨t, member, covers⟩, here⟩
      · exact .inl later

/-- What writes leave at an address, if each leaves what its piece has there and nothing else
changes. -/
theorem foldl_shows {M : Type} (look : M → Word → Option β) {write : M → α → M}
    (step : ∀ s ∈ pieces, ∀ m, look (write m s) x = some v ↔
      puts s x v ∨ ¬ Covers puts s x ∧ look m x = some v) (m : M) :
    look (pieces.foldl write m) x = some v ↔
      Shows puts pieces x v ∨ (∀ t ∈ pieces, ¬ Covers puts t x) ∧ look m x = some v := by
  induction pieces generalizing m with
  | nil => simp [not_shows_nil]
  | cons s pieces ih =>
    obtain ⟨here, later⟩ := List.forall_mem_cons.mp step
    rw [List.foldl_cons, ih later, here, shows_cons, List.forall_mem_cons]
    tauto

theorem shows_append : Shows puts (front ++ back) x v ↔
    Shows puts back x v ∨ (∀ t ∈ back, ¬ Covers puts t x) ∧ Shows puts front x v := by
  induction front with
  | nil => simp [not_shows_nil]
  | cons s front ih =>
    rw [List.cons_append, shows_cons, ih, shows_cons, List.forall_mem_append]
    tauto

theorem shows_of_parted (parted : pieces.Pairwise (Parted puts)) :
    Shows puts pieces x v ↔ ∃ s ∈ pieces, puts s x v := by
  refine ⟨Shows.covers, ?_⟩
  rintro ⟨s, member, here⟩
  obtain ⟨before, after, rfl⟩ := List.append_of_mem member
  obtain ⟨-, tail, -⟩ := List.pairwise_append.mp parted
  exact ⟨before, s, after, rfl, here, fun t later =>
    (List.pairwise_cons.mp tail).1 t later x ⟨v, here⟩⟩

theorem shows_filter {keep : α → Bool}
    (clear : ∀ s ∈ pieces, keep s = false → ¬ Covers puts s x) :
    Shows puts (pieces.filter keep) x v ↔ Shows puts pieces x v := by
  induction pieces with
  | nil => rfl
  | cons s pieces ih =>
    obtain ⟨here, later⟩ := List.forall_mem_cons.mp clear
    have rest := ih later
    by_cases kept : keep s = true
    · have same : (∀ t ∈ pieces.filter keep, ¬ Covers puts t x) ↔
          ∀ t ∈ pieces, ¬ Covers puts t x := by
        refine ⟨fun none t member => ?_, fun none t member => none t (List.mem_filter.mp member).1⟩
        by_cases stays : keep t = true
        · exact none t (List.mem_filter.mpr ⟨member, stays⟩)
        · exact later t member (by simpa using stays)
      rw [List.filter_cons_of_pos kept, shows_cons, shows_cons, rest, same]
    · have absent : ¬ puts s x v := fun put => here (by simpa using kept) ⟨v, put⟩
      rw [List.filter_cons_of_neg kept, shows_cons, rest]
      tauto

theorem shows_congr {others : α → Word → β → Prop}
    (same : ∀ s ∈ pieces, ∀ x v, puts s x v ↔ others s x v) :
    Shows puts pieces x v ↔ Shows others pieces x v := by
  induction pieces with
  | nil => simp [not_shows_nil]
  | cons s pieces ih =>
    obtain ⟨here, later⟩ := List.forall_mem_cons.mp same
    have covers : (∀ t ∈ pieces, ¬ Covers puts t x) ↔ ∀ t ∈ pieces, ¬ Covers others t x := by
      refine forall₂_congr fun t member => not_congr (exists_congr fun w => later t member x w)
    rw [shows_cons, shows_cons, ih later, here, covers]

end Layers

namespace SourceInstruction

def Has (i : SourceInstruction) (a : Word) (entry : TextEntry) : Prop :=
  entry ∈ i.entries ∧ entry.address = a

def Ends (i : SourceInstruction) : Prop :=
  i.address.toNat + 4 * i.count ≤ MemoryMap.textLimit.toNat

/-- The stretches of two units do not overlap. -/
def Beside (i j : SourceInstruction) : Prop :=
  i.address.toNat + 4 * i.count ≤ j.address.toNat ∨ j.address.toNat + 4 * j.count ≤ i.address.toNat

variable {i : SourceInstruction} {entry : TextEntry} {a : Word}

theorem Ends.toNat_address (ends : i.Ends) {n : Nat} (found : i.entries[n]? = some entry) :
    entry.address.toNat = i.address.toNat + 4 * n ∧ n < i.count := by
  obtain ⟨bound, -⟩ := List.getElem?_eq_some_iff.mp found
  rw [length_entries] at bound
  have limit : MemoryMap.textLimit.toNat < 2 ^ 32 := MemoryMap.textLimit.isLt
  rw [Ends] at ends
  rw [(entries_getElem? found).1, toNat_add_ofNat (by omega)]
  exact ⟨rfl, bound⟩

theorem Ends.covers_iff (ends : i.Ends) :
    Covers Has i a ↔ ∃ k < i.count, a.toNat = i.address.toNat + 4 * k := by
  constructor
  · rintro ⟨entry, member, rfl⟩
    obtain ⟨n, found⟩ := List.mem_iff_getElem?.mp member
    obtain ⟨address, less⟩ := ends.toNat_address found
    exact ⟨n, less, address⟩
  · rintro ⟨k, less, address⟩
    have bound : k < i.entries.length := by rwa [length_entries]
    have place := (ends.toNat_address (List.getElem?_eq_getElem bound)).1
    exact ⟨_, List.getElem_mem bound, BitVec.eq_of_toNat_eq (place.trans address.symm)⟩

theorem Ends.nodup (ends : i.Ends) : (i.entries.map (·.address)).Nodup := by
  refine List.nodup_iff_getElem?_ne_getElem?.mpr fun m n less bound same => ?_
  rw [List.length_map] at bound
  have first := List.getElem?_eq_getElem (less.trans bound)
  have second := List.getElem?_eq_getElem bound
  rw [List.getElem?_map, List.getElem?_map, first, second] at same
  have equal : i.entries[m].address = i.entries[n].address := Option.some.inj same
  have early := (ends.toNat_address first).1
  have late := (ends.toNat_address second).1
  rw [equal] at early
  omega

theorem Ends.insert (ends : i.Ends) (text : ExtTreeMap Word TextEntry) :
    (Assembler.insertEntries text i.entries)[a]? = some entry ↔
      i.Has a entry ∨ ¬ Covers Has i a ∧ text[a]? = some entry := by
  have covers : a ∈ i.entries.map (·.address) ↔ Covers Has i a := by
    rw [List.mem_map]
    exact Iff.rfl
  rw [getElem?_insertEntries ends.nodup, covers, Has]

end SourceInstruction

theorem insertEntries_shows {is : List SourceInstruction} (ends : ∀ i ∈ is, i.Ends) {a : Word}
    {entry : TextEntry} :
    (Assembler.insertEntries ∅ (is.flatMap SourceInstruction.entries))[a]? = some entry ↔
      Shows SourceInstruction.Has is a entry := by
  have unit : Assembler.insertEntries ∅ (is.flatMap SourceInstruction.entries) =
      is.foldl (fun text i => Assembler.insertEntries text i.entries) ∅ := by
    rw [Assembler.insertEntries, List.foldl_flatMap]
    rfl
  have step : ∀ i ∈ is, ∀ text : ExtTreeMap Word TextEntry,
      (Assembler.insertEntries text i.entries)[a]? = some entry ↔
        i.Has a entry ∨ ¬ Covers SourceInstruction.Has i a ∧ text[a]? = some entry :=
    fun i member text => (ends i member).insert text
  have written := foldl_shows (fun (text : ExtTreeMap Word TextEntry) a => text[a]?) step ∅
  rw [unit, written]
  simp

theorem Apart.parted {stores : List Store} {labels : Labels} (apart : Apart stores) :
    stores.Pairwise (Parted (Store.Puts labels)) := by
  refine List.Pairwise.imp ?_ apart
  rintro s t order x ⟨v, early⟩ ⟨w, late⟩
  have front := early.inside
  have back := late.inside
  omega

namespace Layout

variable {l l' b : Layout} {line : SourceLine} {done lines : List SourceLine} {blocks : List Block}

/-- What the first pass has gathered from the lines so far, wherever they put their segments. -/
structure Gathers (done : List SourceLine) (l : Layout) (blocks : List Block) : Prop where
  declarations : l.declarations.reverse = blocks.map (·.1)
  declared : List.Forall₂ (fun line b => Declared line b.1 b.2)
    (done.filter (·.isDeclaration)) blocks
  ends : ∀ b ∈ blocks, b.stop ≤ MemoryMap.heapBase.toNat
  fixups : l.fixups.reverse = (blocks.flatMap Block.stores).filterMap Store.fixup?
  data : ∀ (x : Word) v, l.data[x]? = some v ↔
    Shows (Store.Puts noLabels) (blocks.flatMap Block.stores) x v
  placed : ∀ p ∈ l.placed, p.address.toNat + 4 * p.count ≤ MemoryMap.textLimit.toNat

theorem gathers_start : Gathers [] start [] where
  declarations := rfl
  declared := .nil
  ends := fun _ member => absurd member List.not_mem_nil
  fixups := rfl
  data := by simp [start, not_shows_nil]
  placed := fun _ member => absurd member List.not_mem_nil

theorem Gathers.congr (gathers : Gathers done l blocks)
    (declarations : l'.declarations = l.declarations) (data : l'.data = l.data)
    (fixups : l'.fixups = l.fixups) (placed : l'.placed = l.placed) : Gathers done l' blocks where
  declarations := declarations ▸ gathers.declarations
  declared := gathers.declared
  ends := gathers.ends
  fixups := fixups ▸ gathers.fixups
  data := data ▸ gathers.data
  placed := placed ▸ gathers.placed

theorem Binds.gathers (binds : Binds l b) (gathers : Gathers done l blocks) :
    Gathers done b blocks := by
  refine gathers.congr ?_ ?_ ?_ ?_
  all_goals rw [binds.rest]

theorem Gathers.pass (gathers : Gathers done l blocks) (other : line.isDeclaration = false) :
    Gathers (done ++ [line]) l blocks :=
  { gathers with
    declared := by
      rw [List.filter_append, List.filter_cons_of_neg (by simp [other]), List.filter_nil,
        List.append_nil]
      exact gathers.declared }

theorem Gathers.place (gathers : Gathers done l blocks) {p : PlacedLine}
    (room : p.address.toNat + 4 * p.count ≤ MemoryMap.textLimit.toNat)
    (declarations : l'.declarations = l.declarations) (data : l'.data = l.data)
    (fixups : l'.fixups = l.fixups) (placed : l'.placed = p :: l.placed) :
    Gathers done l' blocks where
  declarations := declarations ▸ gathers.declarations
  declared := gathers.declared
  ends := gathers.ends
  fixups := fixups ▸ gathers.fixups
  data := data ▸ gathers.data
  placed := by
    rw [placed]
    exact List.forall_mem_cons.mpr ⟨room, gathers.placed⟩

theorem Gathers.declare (gathers : Gathers done l blocks) {d : Declaration}
    {made : List (Nat × Element)} (declares : Declares l line d made)
    (declarations : l'.declarations = d :: l.declarations)
    (data : l'.data = writeKnown l.data d.address (laid made))
    (fixups : l'.fixups = (made.flatMap (elementFixups d.address d.tag)).reverse ++ l.fixups)
    (placed : l'.placed = l.placed) :
    Gathers (done ++ [line]) l' (blocks ++ [(d, made.map fun (_, e) => (e.value, e.count))]) := by
  obtain ⟨declared, same, bytes, wanted⟩ := declares.declared
  have top : MemoryMap.heapBase.toNat = 0x10040000 := rfl
  have room := declares.room
  have stores : Block.stores (d, made.map fun (_, e) => (e.value, e.count)) =
      storesFrom d.kind d.tag d.address (slots made) := congrArg _ same
  constructor
  · rw [declarations, List.reverse_cons, gathers.declarations, List.map_append]
    rfl
  · have here : line.isDeclaration = true := by simp [SourceLine.isDeclaration, declares.role]
    rw [List.filter_append, List.filter_cons_of_pos here, List.filter_nil]
    exact forall₂_concat gathers.declared declared
  · rw [List.forall_mem_append, List.forall_mem_singleton]
    exact ⟨gathers.ends, room⟩
  · rw [fixups, List.reverse_append, List.reverse_reverse, gathers.fixups, List.flatMap_append,
      List.filterMap_append, List.flatMap_singleton, stores, wanted]
  · intro x v
    have length : (laid made).length = d.size := declares.size.symm
    have size : d.size = extent d.kind (slots made) := same ▸ declared.size
    have new (v : Byte) : (∃ s ∈ storesFrom d.kind d.tag d.address (slots made),
        s.Puts noLabels x v) ↔
          ∃ i, (laid made)[i]? = some (some v) ∧ x.toNat = d.address.toNat + i :=
      bytes ▸ storesFrom_puts (by omega)
    have clear : (∀ s ∈ storesFrom d.kind d.tag d.address (slots made),
        ¬ Covers (Store.Puts noLabels) s x) ↔
          ∀ i b, (laid made)[i]? = some (some b) → x.toNat ≠ d.address.toNat + i := by
      constructor
      · intro none i b found place
        obtain ⟨s, member, puts⟩ := (new b).mpr ⟨i, found, place⟩
        exact none s member ⟨b, puts⟩
      · rintro none s member ⟨b, puts⟩
        obtain ⟨i, found, place⟩ := (new b).mp ⟨s, member, puts⟩
        exact none i b found place
    -- no value of the declaration lies over another, so what it shows is what it has
    have apart : Apart (storesFrom d.kind d.tag d.address (slots made)) :=
      storesFrom_apart (by omega)
    rw [data, writeKnown_iff (by omega), gathers.data, List.flatMap_append, List.flatMap_singleton,
      stores, shows_append, shows_of_parted apart.parted, new, clear]
  · rw [placed]
    exact gathers.placed

theorem Step.gathers (step : Step l line l') (gathers : Gathers done l blocks) :
    ∃ blocks', Gathers (done ++ [line]) l' blocks' := by
  have waits : Gathers done (l.awaiting line.labels) blocks := gathers.congr rfl rfl rfl rfl
  cases step with
  | idle role =>
    exact ⟨blocks, waits.pass (by simp [SourceLine.isDeclaration, role])⟩
  | @enter b segment textPc dataPc role binds =>
    have other : line.isDeclaration = false := by simp [SourceLine.isDeclaration, role]
    exact ⟨blocks, ((binds.gathers waits).pass other).congr rfl rfl rfl rfl⟩
  | @align b dataPc role _ binds =>
    have moved : Gathers done { l.awaiting line.labels with dataPc } blocks :=
      waits.congr rfl rfl rfl rfl
    exact ⟨blocks, (binds.gathers moved).pass (by simp [SourceLine.isDeclaration, role])⟩
  | @declaration b d made warnings _ binds declares =>
    refine ⟨_, gathers.declare declares ?_ ?_ ?_ ?_⟩
    all_goals rw [binds.rest]; rfl
  | @instruction b sized role _ binds sizing room =>
    have other : line.isDeclaration = false := by simp [SourceLine.isDeclaration, role]
    have count : (PlacedLine.mk l.textPc line.statement.name line.statement.args line.tag
        (String.ofList (statementText line.text))).count = sized.instrs.length := by
      rw [PlacedLine.count, sizing]
    exact ⟨blocks, ((binds.gathers waits).pass other).place (by rwa [count]) rfl rfl rfl rfl⟩

theorem Steps.gathers (steps : Steps l lines l') (gathers : Gathers done l blocks) :
    ∃ blocks', Gathers (done ++ lines) l' blocks' := by
  induction steps generalizing done blocks with
  | nil =>
    rw [List.append_nil]
    exact ⟨blocks, gathers⟩
  | cons step _ ih =>
    obtain ⟨next, gathers⟩ := step.gathers gathers
    rw [List.append_cons]
    exact ih gathers

theorem ofLines_gathers (placed : ofLines lines = .ok l) : ∃ blocks, Gathers lines l blocks := by
  obtain ⟨last, steps, binds⟩ := steps_of_ofLines placed
  obtain ⟨blocks, gathers⟩ := steps.gathers gathers_start
  exact ⟨blocks, binds.gathers gathers⟩

end Layout

namespace Store

variable {labels others : Labels} {s : Store} {x : Word} {v : Byte}

/-- The value wants the address of a label, so it is written again when all labels are known. -/
def wants (s : Store) : Bool := s.value.label?.isSome

theorem puts_of_not_wants (plain : s.wants = false) :
    s.Puts labels x v ↔ s.Puts others x v := by
  have none : s.value.label? = none := by simpa [wants] using plain
  rw [Puts, Puts, s.bytes_of_label?_none none labels others]

theorem covers_of_wants (wants : s.wants = true) :
    Covers (Puts labels) s x ↔ s.address.toNat ≤ x.toNat ∧ x.toNat < s.stop := by
  obtain ⟨⟨name, offset⟩, wanted⟩ := Option.isSome_iff_exists.mp wants
  have full : ∀ byte ∈ s.bytes labels, byte ≠ none := by
    intro byte member
    rw [bytes, DataValue.eq_label wanted, DataValue.image] at member
    split at member
    · obtain ⟨b, -, rfl⟩ := List.mem_map.mp member
      simp
    · simp [List.eq_of_mem_replicate member]
  constructor
  · rintro ⟨v, puts⟩
    exact puts.inside
  · exact exists_puts full

end Store

/-- Values in the order in which they are written for the last time: those that want an address
come last. -/
def lastWritten (stores : List Store) : List Store :=
  stores.filter (! ·.wants) ++ stores.filter (·.wants)

/-- A value is seen if none behind it lies over it, and no address from before it is written over it
once more. -/
theorem shows_lastWritten {labels : Labels} {front back : List Store} {s : Store} {x : Word}
    {v : Byte} (here : s.Puts labels x v)
    (later : ∀ t ∈ back, ¬ Covers (Store.Puts labels) t x)
    (again : s.wants = false → ∀ t ∈ front, t.wants = true → ¬ Covers (Store.Puts labels) t x) :
    Shows (Store.Puts labels) (lastWritten (front ++ s :: back)) x v := by
  have behind (keep : Store → Bool) : ∀ t ∈ back.filter keep, ¬ Covers (Store.Puts labels) t x :=
    fun t member => later t (List.mem_filter.mp member).1
  rw [lastWritten, List.filter_append, List.filter_append]
  cases wanted : s.wants with
  | true =>
    rw [List.filter_cons_of_neg (by simp [wanted]), List.filter_cons_of_pos wanted,
      ← List.append_assoc]
    exact ⟨_, s, _, rfl, here, behind _⟩
  | false =>
    rw [List.filter_cons_of_pos (by simp [wanted]), List.filter_cons_of_neg (by simp [wanted]),
      List.append_assoc, List.cons_append]
    refine ⟨_, s, _, rfl, here, ?_⟩
    rw [List.forall_mem_append, List.forall_mem_append]
    refine ⟨behind _, fun t member => ?_, behind _⟩
    obtain ⟨early, wants⟩ := List.mem_filter.mp member
    exact again wanted t early wants

namespace Assembler

variable {labels : Labels} {data result : ExtTreeMap Word Byte} {stores : List Store} {x : Word}
  {v : Byte}

def rewrite (labels : Labels) (data : ExtTreeMap Word Byte) (s : Store) : ExtTreeMap Word Byte :=
  Layout.writeKnown data s.address (s.bytes labels)

theorem rewrite_iff {s : Store} (room : s.stop < 0x100000000) (data : ExtTreeMap Word Byte) :
    (rewrite labels data s)[x]? = some v ↔
      s.Puts labels x v ∨ ¬ Covers (Store.Puts labels) s x ∧ data[x]? = some v := by
  have fits : s.address.toNat + (s.bytes labels).length < 0x100000000 := by
    rw [Store.bytes, DataValue.length_image]
    exact room
  have clear : (∀ i b, (s.bytes labels)[i]? = some (some b) → x.toNat ≠ s.address.toNat + i) ↔
      ¬ Covers (Store.Puts labels) s x := by
    constructor
    · rintro none ⟨b, i, found, place⟩
      exact none i b found place
    · intro none i b found place
      exact none ⟨b, i, found, place⟩
  rw [rewrite, Layout.writeKnown_iff fits, clear, Store.Puts]

theorem foldlM_patch_eq
    (done : (stores.filterMap Store.fixup?).foldlM (patch labels) data = .ok result) :
    result = (stores.filter (·.wants)).foldl (rewrite labels) data := by
  induction stores generalizing data with
  | nil =>
    cases done
    rfl
  | cons s stores ih =>
    cases wanted : s.value.label? with
    | none =>
      rw [List.filterMap_cons_none (by rw [Store.fixup?, wanted]; rfl)] at done
      rw [List.filter_cons_of_neg (by simp [Store.wants, wanted])]
      exact ih done
    | some wish =>
      obtain ⟨name, offset⟩ := wish
      rw [List.filterMap_cons_some (by rw [Store.fixup?, wanted]; rfl), List.foldlM_cons,
        Assembler.patch] at done
      dsimp only at done
      split at done
      · cases done
      · next target found =>
        have image : s.bytes labels =
            (littleEndian 4 (target + Selection.word offset).toNat).map some := by
          simp only [Store.bytes, DataValue.eq_label wanted, DataValue.image, found]
        rw [← image] at done
        rw [List.filter_cons_of_pos (by simp [Store.wants, wanted]), List.foldl_cons]
        exact ih done

/-- The second pass leaves the data as if the words that want an address had been written last. -/
theorem patched_shows (room : ∀ s ∈ stores, s.stop < 0x100000000)
    (before : data[x]? = some v ↔ Shows (Store.Puts noLabels) stores x v)
    (done : (stores.filterMap Store.fixup?).foldlM (patch labels) data = .ok result) :
    result[x]? = some v ↔ Shows (Store.Puts labels) (lastWritten stores) x v := by
  have step : ∀ s ∈ stores.filter (·.wants), ∀ data : ExtTreeMap Word Byte,
      (rewrite labels data s)[x]? = some v ↔
        s.Puts labels x v ∨ ¬ Covers (Store.Puts labels) s x ∧ data[x]? = some v :=
    fun s member data => rewrite_iff (room s (List.mem_filter.mp member).1) data
  have written := foldl_shows (fun (data : ExtTreeMap Word Byte) x => data[x]?) step data
  rw [foldlM_patch_eq done, written, before, lastWritten, shows_append]
  refine or_congr_right (and_congr_right fun clear => ?_)
  -- a word without its address yet covers the same bytes as with it
  have outside : ∀ s ∈ stores, (! s.wants) = false → ¬ Covers (Store.Puts noLabels) s x := by
    intro s member wants covers
    have wanted : s.wants = true := by simpa using wants
    refine clear s (List.mem_filter.mpr ⟨member, wanted⟩) ?_
    exact (Store.covers_of_wants wanted).mpr ((Store.covers_of_wants wanted).mp covers)
  rw [← shows_filter outside]
  refine shows_congr fun s member x v => Store.puts_of_not_wants ?_
  simpa using (List.mem_filter.mp member).2

end Assembler

theorem mem_of_mem_storesFrom {kind : DataKind} {tag : SourceTag} {a : Word}
    {values : List DataValue} {s : Store} (member : s ∈ storesFrom kind tag a values) :
    s.value ∈ values := by
  induction values generalizing a with
  | nil => exact absurd member List.not_mem_nil
  | cons v values ih =>
    rcases List.mem_cons.mp member with rfl | later
    · exact List.mem_cons_self
    · exact List.mem_cons_of_mem _ (ih later)

namespace Block

variable {b c : Block} {line : SourceLine} {labels : Labels} {s : Store} {x : Word}

def Beside (b c : Block) : Prop := b.stop ≤ c.1.address.toNat ∨ c.stop ≤ b.1.address.toNat

theorem stop_eq (declared : Declared line b.1 b.2) :
    b.stop = b.1.address.toNat + Layout.extent b.1.kind (repeated b.2) :=
  congrArg (b.1.address.toNat + ·) declared.size

theorem inside (declared : Declared line b.1 b.2) (room : b.stop ≤ MemoryMap.heapBase.toNat)
    (member : s ∈ b.stores) : b.1.address.toNat ≤ s.address.toNat ∧ s.stop ≤ b.stop := by
  have top : MemoryMap.heapBase.toNat = 0x10040000 := rfl
  rw [stop_eq declared] at room ⊢
  exact Layout.storesFrom_inside (by omega) member

theorem apart (declared : Declared line b.1 b.2) (room : b.stop ≤ MemoryMap.heapBase.toNat) :
    Apart b.stores := by
  have top : MemoryMap.heapBase.toNat = 0x10040000 := rfl
  rw [stop_eq declared] at room
  exact Layout.storesFrom_apart (by omega)

theorem word_of_wants (declared : Declared line b.1 b.2) (member : s ∈ b.stores)
    (wants : s.wants = true) : b.1.kind = .word := by
  obtain ⟨token, count, denotes⟩ := declared.denotes (mem_of_mem_storesFrom member)
  by_contra unlabelled
  rw [Store.wants, denotes.plain unlabelled] at wants
  cases wants

theorem Beside.clear (beside : Beside b c) (declared : Declared line b.1 b.2) {other : SourceLine}
    (declared' : Declared other c.1 c.2) (room : b.stop ≤ MemoryMap.heapBase.toNat)
    (room' : c.stop ≤ MemoryMap.heapBase.toNat) (member : s ∈ b.stores)
    (covers : Covers (Store.Puts labels) s x) {t : Store} (member' : t ∈ c.stores) :
    ¬ Covers (Store.Puts labels) t x := by
  rintro ⟨w, puts'⟩
  obtain ⟨v, puts⟩ := covers
  have here := puts.inside
  have there := puts'.inside
  have lies := inside declared room member
  have lies' := inside declared' room' member'
  rw [Beside] at beside
  omega

end Block

namespace Program

variable {p : Program} {lines : List SourceLine} {blocks : List Block}

/-- Every instruction of a unit is found at its address, with the tag of the unit. -/
def KeepsUnit (p : Program) (i : SourceInstruction) : Prop :=
  ∀ placed ∈ i.expansion.instrs.zipIdx,
    (p.text[i.address + BitVec.ofNat 32 (4 * placed.2)]?).map
      (fun entry => (entry.instr, entry.tag)) = some (placed.1, i.tag)

instance (p : Program) (i : SourceInstruction) : Decidable (p.KeepsUnit i) :=
  inferInstanceAs (Decidable (∀ placed ∈ i.expansion.instrs.zipIdx, _ = _))

/-- Every byte of the values of a declaration is found at its address. -/
def KeepsDeclaration (p : Program) (b : Block) : Prop :=
  ∀ s ∈ b.stores, ∀ x v, s.Puts p.symbols.labels x v → p.data[x]? = some v

/-- What a program shows of its lines, wherever they put their segments. -/
structure Overlaid (p : Program) (lines : List SourceLine) (blocks : List Block) : Prop where
  instructions : List.Forall₂ (Assembler.Written p.symbols.labels)
    (lines.filter (·.isInstruction)) p.instructions
  ends : ∀ i ∈ p.instructions, i.Ends
  /-- At each address of the text the last unit is seen that has an instruction there. -/
  text : ∀ (a : Word) entry,
    p.text[a]? = some entry ↔ Shows SourceInstruction.Has p.instructions a entry
  declarations : p.declarations = blocks.map (·.1)
  declared : List.Forall₂ (fun line b => Declared line b.1 b.2)
    (lines.filter (·.isDeclaration)) blocks
  room : ∀ b ∈ blocks, b.stop ≤ MemoryMap.heapBase.toNat
  /-- At each address of the data the value is seen that is written last. -/
  data : ∀ (x : Word) v, p.data[x]? = some v ↔
    Shows (Store.Puts p.symbols.labels) (lastWritten (blocks.flatMap Block.stores)) x v

variable {before after : List Block} {b : Block}

theorem Overlaid.declared_of_mem (overlaid : p.Overlaid lines blocks) (member : b ∈ blocks) :
    ∃ line, Declared line b.1 b.2 := by
  obtain ⟨line, -, declared⟩ := exists_of_forall₂ overlaid.declared member
  exact ⟨line, declared⟩

/-- A unit stays whole if no later unit overlaps it. -/
theorem Overlaid.keepsUnit (overlaid : p.Overlaid lines blocks)
    {early late : List SourceInstruction} {i : SourceInstruction}
    (split : p.instructions = early ++ i :: late)
    (beside : ∀ j ∈ late, i.Beside j) : p.KeepsUnit i := by
  have ends (j : SourceInstruction) (member : j ∈ i :: late) : j.Ends :=
    overlaid.ends j (by rw [split]; exact List.mem_append_right _ member)
  rintro ⟨instr, n⟩ placed
  have at_ := List.mem_zipIdx_iff_getElem?.mp placed
  have found : i.entries[n]? = some ⟨i.address + BitVec.ofNat 32 (4 * n), instr, i.tag, i.source,
      i.expansion.pseudo, n == 0⟩ := by
    rw [SourceInstruction.entries, List.getElem?_map, List.getElem?_zipIdx, at_]
    simp
  have place := (ends i List.mem_cons_self).toNat_address found
  have seen : Shows SourceInstruction.Has p.instructions _ _ :=
    ⟨early, i, late, split, ⟨List.mem_of_getElem? found, rfl⟩, ?_⟩
  · have entry := (overlaid.text _ _).mpr seen
    rw [entry]
    rfl
  · rintro j later ⟨other, member, same⟩
    obtain ⟨m, found'⟩ := List.mem_iff_getElem?.mp member
    have place' := (ends j (List.mem_cons_of_mem _ later)).toNat_address found'
    have apart := beside j later
    rw [SourceInstruction.Beside] at apart
    rw [same] at place'
    dsimp only at place place'
    omega

theorem Overlaid.clear (overlaid : p.Overlaid lines blocks) (member : b ∈ blocks) {c : Block}
    (member' : c ∈ blocks) (beside : c.1.kind ≠ .space → b.Beside c) {s t : Store} {x : Word}
    (stored : s ∈ b.stores) (covers : Covers (Store.Puts p.symbols.labels) s x)
    (stored' : t ∈ c.stores) : ¬ Covers (Store.Puts p.symbols.labels) t x := by
  obtain ⟨line, declared⟩ := overlaid.declared_of_mem member
  obtain ⟨line', declared'⟩ := overlaid.declared_of_mem member'
  have room := overlaid.room b member
  have room' := overlaid.room c member'
  by_cases space : c.1.kind = .space
  · rintro ⟨w, puts⟩
    have top : MemoryMap.heapBase.toNat = 0x10040000 := rfl
    rw [Block.stop] at room'
    exact ((declared'.puts_iff (by omega)).mp ⟨w, t, stored', puts⟩).1 space
  · exact (beside space).clear declared declared' room room' stored covers stored'

/-- A declaration stays whole if nothing that is written after it overlaps it: no later
declaration, and none of words before it, which may want addresses. -/
theorem Overlaid.keepsDeclaration (overlaid : p.Overlaid lines blocks)
    (split : blocks = before ++ b :: after)
    (early : ∀ c ∈ before, c.1.kind = .word → b.Beside c)
    (late : ∀ c ∈ after, c.1.kind ≠ .space → b.Beside c) : p.KeepsDeclaration b := by
  intro s stored x v puts
  have covers : Covers (Store.Puts p.symbols.labels) s x := ⟨v, puts⟩
  have here : b ∈ blocks := by simp [split]
  obtain ⟨line, declared⟩ := overlaid.declared_of_mem here
  have parted : b.stores.Pairwise (Parted (Store.Puts p.symbols.labels)) :=
    (Block.apart declared (overlaid.room b here)).parted
  obtain ⟨front, back, own⟩ := List.append_of_mem stored
  rw [own] at parted
  obtain ⟨-, tail, cross⟩ := List.pairwise_append.mp parted
  have all : blocks.flatMap Block.stores = before.flatMap Block.stores ++ front ++
      s :: (back ++ after.flatMap Block.stores) := by
    rw [split, List.flatMap_append, List.flatMap_cons, own]
    simp
  rw [overlaid.data, all]
  refine shows_lastWritten puts ?_ fun _ => ?_
  · intro t member
    rcases List.mem_append.mp member with same | behind
    · exact (List.pairwise_cons.mp tail).1 t same x covers
    · obtain ⟨c, inside, stored'⟩ := List.mem_flatMap.mp behind
      exact overlaid.clear here (by simp [split, inside]) (late c inside) stored covers stored'
  · intro t member wants
    rcases List.mem_append.mp member with earlier | same
    · obtain ⟨c, inside, stored'⟩ := List.mem_flatMap.mp earlier
      have member' : c ∈ blocks := by simp [split, inside]
      obtain ⟨line', declared'⟩ := overlaid.declared_of_mem member'
      have word := Block.word_of_wants declared' stored' wants
      exact overlaid.clear here member' (fun _ => early c inside word) stored covers stored'
    · exact fun covers' => cross t same s List.mem_cons_self x covers' covers

end Program

theorem exists_placed_of_bind {startAtMain : Bool} {lines : List SourceLine} {names : PathNames}
    {l : Layout} {p : Program} (placed : Layout.ofLines lines = .ok l)
    (bound : Assembler.bind startAtMain lines names l = .ok p) {i : SourceInstruction}
    (member : i ∈ p.instructions) :
    ∃ q ∈ l.placed, q.address = i.address ∧ q.count = i.count := by
  obtain ⟨follows, -⟩ := Layout.ofLines_follows placed
  have writes := Assembler.writes_of_mapM (Assembler.bind_fields bound).1
  obtain ⟨-, extents, -⟩ := Assembler.forall₂_written follows.placed writes
  have extent : i.extent ∈ l.placed.reverse.map PlacedLine.extent :=
    extents ▸ List.mem_map_of_mem member
  obtain ⟨q, inside, same⟩ := List.mem_map.mp extent
  exact ⟨q, List.mem_reverse.mp inside, Prod.ext_iff.mp same⟩

theorem overlaid_of_bind {startAtMain : Bool} {lines : List SourceLine} {names : PathNames}
    {l : Layout} {p : Program} (placed : Layout.ofLines lines = .ok l)
    (bound : Assembler.bind startAtMain lines names l = .ok p) :
    ∃ blocks, p.Overlaid lines blocks := by
  obtain ⟨mapped, symbols, declarations, text⟩ := Assembler.bind_fields bound
  obtain ⟨follows, -⟩ := Layout.ofLines_follows placed
  obtain ⟨blocks, gathers⟩ := Layout.ofLines_gathers placed
  have writes := Assembler.writes_of_mapM mapped
  obtain ⟨written, -, -⟩ := Assembler.forall₂_written follows.placed writes
  have ends : ∀ i ∈ p.instructions, i.Ends := by
    intro i member
    obtain ⟨q, inside, address, count⟩ := exists_placed_of_bind placed bound member
    have room := gathers.placed q inside
    rwa [address, count] at room
  have patched := Assembler.bind_data bound
  rw [gathers.fixups] at patched
  have room : ∀ s ∈ blocks.flatMap Block.stores, s.stop < 0x100000000 := by
    intro s member
    obtain ⟨b, inside, stored⟩ := List.mem_flatMap.mp member
    obtain ⟨line, -, declared⟩ := exists_of_forall₂ gathers.declared inside
    have high := gathers.ends b inside
    exact ((Block.inside declared high stored).2.trans high).trans_lt (by decide)
  rw [Assembler.foldl_entries writes] at text
  refine ⟨blocks, symbols ▸ written, ends, fun a entry => ?_,
    declarations.trans gathers.declarations, gathers.declared, gathers.ends, fun x v => ?_⟩
  · rw [text]
    exact insertEntries_shows ends
  · exact Assembler.patched_shows room (gathers.data x v) patched

/-- Whatever segments lines move, what they assemble to shows their units laid over each other and
their values in the order of writing; what nothing later overlaps is whole. -/
theorem assembleLines_overlaid (settings : Settings) (lines : List SourceLine) (names : PathNames)
    (assembled : Assembled) (done : assembleLines settings lines names = .ok assembled) :
    ∃ blocks, assembled.program.Overlaid lines blocks ∧
      (∀ early i late, assembled.program.instructions = early ++ i :: late →
        (∀ j ∈ late, i.Beside j) → assembled.program.KeepsUnit i) ∧
      ∀ before b after, blocks = before ++ b :: after →
        (∀ c ∈ before, c.1.kind = .word → b.Beside c) →
        (∀ c ∈ after, c.1.kind ≠ .space → b.Beside c) → assembled.program.KeepsDeclaration b := by
  obtain ⟨l, placed, done⟩ := except_bind_ok done
  obtain ⟨p, bound, done⟩ := except_bind_ok done
  cases done
  obtain ⟨blocks, overlaid⟩ := overlaid_of_bind placed bound
  exact ⟨blocks, overlaid, fun _ _ _ split => overlaid.keepsUnit split,
    fun _ _ _ split => overlaid.keepsDeclaration split⟩

/-- Bytes over the ends of two words hide half of the number, but not the address, which is written
after them; and a unit lies over the second half of another. -/
def overlaidSample : List SourceLine :=
  let texts := [".data", "first: .word 1, first", ".data 0x10010002", ".byte 7:4", ".text",
    "li $t0, 65536", ".text 0x00400004", "nop"]
  texts.zipIdx.map fun (text, n) => ⟨text.toList, ⟨"sample", n + 1⟩⟩

theorem assembleLines_overlaid_sample : ∃ assembled blocks,
    assembleLines {} overlaidSample (.new [] fun _ => none) = .ok assembled ∧
      assembled.program.Overlaid overlaidSample blocks ∧
      assembled.program.bytesAt MemoryMap.dataBase 8 = some [1, 0, 7, 7, 0, 0, 1, 16] ∧
      (assembled.program.text[MemoryMap.textBase + 4]?).map (·.instr) = some .nop := by
  have read : (assembleLines {} overlaidSample (.new [] fun _ => none)).map (fun assembled =>
      (assembled.program.bytesAt MemoryMap.dataBase 8,
        (assembled.program.text[MemoryMap.textBase + 4]?).map (·.instr))) =
      .ok (some [1, 0, 7, 7, 0, 0, 1, 16], some .nop) := by decide +kernel
  obtain ⟨assembled, done, found⟩ := except_map_ok read
  obtain ⟨data, text⟩ := Prod.ext_iff.mp found
  obtain ⟨blocks, overlaid, -⟩ := assembleLines_overlaid {} overlaidSample _ assembled done
  exact ⟨assembled, blocks, done, overlaid, data, text⟩

/-- Two units at one address: the program assembles, and the first unit is not in it. -/
def doubledSample : List SourceLine :=
  let texts := [".text", "li $t0, 1", ".text 0x00400000", "li $t0, 2"]
  texts.zipIdx.map fun (text, n) => ⟨text.toList, ⟨"sample", n + 1⟩⟩

theorem keepsUnit_doubledSample : ∃ assembled,
    assembleLines {} doubledSample (.new [] fun _ => none) = .ok assembled ∧
      ∃ i ∈ assembled.program.instructions, ¬ assembled.program.KeepsUnit i := by
  have lost : (assembleLines {} doubledSample (.new [] fun _ => none)).map (fun assembled =>
      decide (∃ i ∈ assembled.program.instructions, ¬ assembled.program.KeepsUnit i)) =
      .ok true := by decide +kernel
  obtain ⟨assembled, done, found⟩ := except_map_ok lost
  exact ⟨assembled, done, of_decide_eq_true found⟩

end MipsLab
