import MipsLab.Proofs.Assembly.Elements
import MipsLab.Proofs.Assembly.TextLayout

/-! What the data of a program holds. If no line moves a segment, every declaration has its own
stretch of the data segment, behind all earlier ones; its values lie in the stretch one behind
another; and the second pass puts addresses exactly where labels were declared. -/
namespace MipsLab

open Std (ExtTreeMap)

namespace Store

variable {labels : Labels} {s : Store} {x : Word} {v : Byte}

def bytes (labels : Labels) (s : Store) : List (Option Byte) := s.value.image labels s.kind

def stop (s : Store) : Nat := s.address.toNat + s.value.size s.kind

/-- The value has `v` at the address `x`. -/
def Puts (labels : Labels) (s : Store) (x : Word) (v : Byte) : Prop :=
  ∃ i, (s.bytes labels)[i]? = some (some v) ∧ x.toNat = s.address.toNat + i

theorem Puts.inside (puts : s.Puts labels x v) : s.address.toNat ≤ x.toNat ∧ x.toNat < s.stop := by
  obtain ⟨i, found, place⟩ := puts
  obtain ⟨bound, -⟩ := List.getElem?_eq_some_iff.mp found
  rw [bytes, DataValue.length_image] at bound
  rw [stop]
  omega

theorem exists_puts (full : ∀ byte ∈ s.bytes labels, byte ≠ none)
    (inside : s.address.toNat ≤ x.toNat ∧ x.toNat < s.stop) : ∃ b, s.Puts labels x b := by
  have bound : x.toNat - s.address.toNat < (s.bytes labels).length := by
    rw [stop] at inside
    rw [bytes, DataValue.length_image]
    omega
  have filled := full _ (List.getElem_mem bound)
  obtain ⟨b, same⟩ := Option.ne_none_iff_exists'.mp filled
  refine ⟨b, x.toNat - s.address.toNat, ?_, by omega⟩
  rw [List.getElem?_eq_getElem bound, same]

theorem bytes_of_label?_none (plain : s.value.label? = none) (labels others : Labels) :
    s.bytes labels = s.bytes others :=
  DataValue.image_of_label?_none plain labels others

end Store

def Apart (stores : List Store) : Prop := stores.Pairwise fun s t => s.stop ≤ t.address.toNat

namespace Layout

variable {kind : DataKind} {tag : SourceTag} {a x : Word} {v : Byte} {values : List DataValue}
  {labels : Labels} {bytes : List (Option Byte)}

theorem getElem?_writeKnown (fits : bytes.length ≤ 0x100000000) (data : ExtTreeMap Word Byte)
    (a x : Word) :
    (writeKnown data a bytes)[x]? = ((bytes[(x - a).toNat]?).join).or data[x]? := by
  induction bytes generalizing data a with
  | nil => rfl
  | cons first rest ih =>
    rw [List.length_cons] at fits
    have later (changed : ExtTreeMap Word Byte) : (writeKnown changed (a + 1) rest)[x]? =
        ((rest[(x - (a + 1)).toNat]?).join).or changed[x]? := ih (by omega) changed (a + 1)
    by_cases here : x = a
    · subst here
      rw [offset_self]
      cases first with
      | none =>
        rw [writeKnown, later, getElem?_before (by omega)]
        rfl
      | some b =>
        rw [writeKnown, later, getElem?_before (by omega), ExtTreeMap.getElem?_insert_self]
        rfl
    · have differ : compare a x ≠ .eq := by simpa using Ne.symm here
      rw [offset_succ here, List.getElem?_cons_succ]
      cases first with
      | none => rw [writeKnown, later]
      | some b => rw [writeKnown, later, ExtTreeMap.getElem?_insert, if_neg differ]

theorem writeKnown_iff (room : a.toNat + bytes.length < 0x100000000)
    (data : ExtTreeMap Word Byte) : (writeKnown data a bytes)[x]? = some v ↔
      (∃ i, bytes[i]? = some (some v) ∧ x.toNat = a.toNat + i) ∨
        (∀ i b, bytes[i]? = some (some b) → x.toNat ≠ a.toNat + i) ∧ data[x]? = some v := by
  rw [getElem?_writeKnown (by omega)]
  have place {i : Nat} {b : Byte} (found : bytes[i]? = some (some b)) :
      x.toNat = a.toNat + i ↔ (x - a).toNat = i := by
    obtain ⟨bound, -⟩ := List.getElem?_eq_some_iff.mp found
    have above : x.toNat < 0x100000000 := x.isLt
    have below : a.toNat < 0x100000000 := a.isLt
    rw [BitVec.toNat_sub]
    omega
  cases met : (bytes[(x - a).toNat]?).join with
  | none =>
    have elsewhere : ∀ i b, bytes[i]? = some (some b) → x.toNat ≠ a.toNat + i := by
      intro i b found same
      rw [(place found).mp same, found] at met
      cases met
    constructor
    · intro old
      exact .inr ⟨elsewhere, old⟩
    · rintro (⟨i, found, same⟩ | ⟨-, old⟩)
      · exact absurd same (elsewhere i v found)
      · exact old
  | some b =>
    have found := Option.join_eq_some_iff.mp met
    have same := (place found).mpr rfl
    constructor
    · intro new
      obtain rfl : b = v := Option.some.inj new
      exact .inl ⟨_, found, same⟩
    · rintro (⟨i, found', same'⟩ | ⟨elsewhere, -⟩)
      · rw [(place found').mp same', found'] at found
        exact congrArg some (Option.some.inj (Option.some.inj found)).symm
      · exact absurd same (elsewhere _ b found)

theorem storesFrom_inside (room : a.toNat + extent kind values < 0x100000000) {s : Store}
    (member : s ∈ storesFrom kind tag a values) :
    a.toNat ≤ s.address.toNat ∧ s.stop ≤ a.toNat + extent kind values := by
  induction values generalizing a with
  | nil => exact absurd member List.not_mem_nil
  | cons v values ih =>
    rw [extent_cons] at room ⊢
    have next : (a + BitVec.ofNat 32 (v.size kind)).toNat = a.toNat + v.size kind :=
      toNat_add_ofNat (by omega)
    rcases List.mem_cons.mp member with rfl | later
    · simp only [Store.stop]
      omega
    · obtain ⟨above, below⟩ := ih (by omega) later
      omega

theorem storesFrom_apart (room : a.toNat + extent kind values < 0x100000000) :
    Apart (storesFrom kind tag a values) := by
  induction values generalizing a with
  | nil => exact List.Pairwise.nil
  | cons v values ih =>
    rw [extent_cons] at room
    have next : (a + BitVec.ofNat 32 (v.size kind)).toNat = a.toNat + v.size kind :=
      toNat_add_ofNat (by omega)
    refine List.pairwise_cons.mpr ⟨fun t later => ?_, ih (by omega)⟩
    have above := (storesFrom_inside (by omega) later).1
    simp only [Store.stop]
    omega

theorem mem_storesFrom {j : Nat} {w : DataValue} (found : values[j]? = some w) :
    ⟨a + BitVec.ofNat 32 (extent kind (values.take j)), kind, w, tag⟩ ∈
      storesFrom kind tag a values := by
  have placed : ⟨a + BitVec.ofNat 32 (extent kind (values.take j)), kind, w, tag⟩ ∈
      storesFrom kind tag a (values.take j ++ w :: values.drop (j + 1)) := by
    rw [storesFrom_append, storesFrom]
    exact List.mem_append_right _ List.mem_cons_self
  rwa [← take_eq_of_getElem? found] at placed

theorem storesFrom_puts (room : a.toNat + extent kind values < 0x100000000) :
    (∃ s ∈ storesFrom kind tag a values, s.Puts labels x v) ↔
      ∃ i, (values.flatMap (·.image labels kind))[i]? = some (some v) ∧ x.toNat = a.toNat + i := by
  induction values generalizing a with
  | nil => simp [storesFrom]
  | cons w values ih =>
    rw [extent_cons] at room
    have next : (a + BitVec.ofNat 32 (w.size kind)).toNat = a.toNat + w.size kind :=
      toNat_add_ofNat (by omega)
    rw [storesFrom, List.exists_mem_cons_iff, ih (by omega), List.flatMap_cons, next]
    constructor
    · rintro (⟨i, found, place⟩ | ⟨i, found, place⟩)
      · refine ⟨i, ?_, place⟩
        change (w.image labels kind)[i]? = _ at found
        obtain ⟨bound, -⟩ := List.getElem?_eq_some_iff.mp found
        rw [List.getElem?_append_left bound]
        exact found
      · refine ⟨w.size kind + i, ?_, by omega⟩
        rw [List.getElem?_append_right (by simp), DataValue.length_image, Nat.add_sub_cancel_left]
        exact found
    · rintro ⟨i, found, place⟩
      rw [List.getElem?_append, DataValue.length_image] at found
      split at found
      · exact .inl ⟨i, found, place⟩
      · exact .inr ⟨i - w.size kind, found, by omega⟩

end Layout

namespace Assembler

variable {labels : Labels} {data result : ExtTreeMap Word Byte} {before rest : List Store}
  {s : Store}

/-- What the second pass has done when it has come past `before`: there the labels are known, and
behind it they are not. -/
def Halfway (labels : Labels) (before rest : List Store) (data : ExtTreeMap Word Byte) : Prop :=
  ∀ (x : Word) v, data[x]? = some v ↔
    (∃ s ∈ before, s.Puts labels x v) ∨ ∃ s ∈ rest, s.Puts noLabels x v

theorem Halfway.pass (halfway : Halfway labels before (s :: rest) data)
    (same : s.bytes noLabels = s.bytes labels) : Halfway labels (before ++ [s]) rest data := by
  intro x v
  have puts : s.Puts noLabels x v ↔ s.Puts labels x v := by rw [Store.Puts, Store.Puts, same]
  rw [halfway, List.exists_mem_cons_iff, puts]
  simp only [List.mem_append, List.mem_singleton, or_and_right, exists_or, exists_eq_left, or_assoc]

theorem Halfway.patch (halfway : Halfway labels before (s :: rest) data)
    (apart : Apart (before ++ s :: rest)) (room : s.stop < 0x100000000)
    (full : ∀ byte ∈ s.bytes labels, byte ≠ none) :
    Halfway labels (before ++ [s]) rest (Layout.writeKnown data s.address (s.bytes labels)) := by
  have fits : s.address.toNat + (s.bytes labels).length < 0x100000000 := by
    rw [Store.bytes, DataValue.length_image]
    exact room
  obtain ⟨-, tail, order⟩ := List.pairwise_append.mp apart
  have front : ∀ t ∈ before, t.stop ≤ s.address.toNat := fun t member =>
    order t member s List.mem_cons_self
  have back : ∀ t ∈ rest, s.stop ≤ t.address.toNat := (List.pairwise_cons.mp tail).1
  intro x v
  have written : (∃ i, (s.bytes labels)[i]? = some (some v) ∧ x.toNat = s.address.toNat + i) ↔
      s.Puts labels x v := Iff.rfl
  have spared (outside : ¬ (s.address.toNat ≤ x.toNat ∧ x.toNat < s.stop)) :
      ∀ i b, (s.bytes labels)[i]? = some (some b) → x.toNat ≠ s.address.toNat + i :=
    fun i b found same => outside (Store.Puts.inside ⟨i, found, same⟩)
  rw [Layout.writeKnown_iff fits, halfway, written]
  constructor
  · rintro (new | ⟨elsewhere, ⟨t, member, puts⟩ | ⟨t, member, puts⟩⟩)
    · exact .inl ⟨s, by simp, new⟩
    · exact .inl ⟨t, by simp [member], puts⟩
    · rcases List.mem_cons.mp member with rfl | later
      · -- no zero of the first pass is left, since the whole value was written
        obtain ⟨b, i, found, same⟩ := t.exists_puts full puts.inside
        exact absurd same (elsewhere i b found)
      · exact .inr ⟨t, later, puts⟩
  · rintro (⟨t, member, puts⟩ | ⟨t, member, puts⟩)
    · rcases List.mem_append.mp member with early | here
      · have stops := front t early
        have inside := puts.inside
        exact .inr ⟨spared (by omega), .inl ⟨t, early, puts⟩⟩
      · obtain rfl := List.mem_singleton.mp here
        exact .inl puts
    · have starts := back t member
      have inside := puts.inside
      exact .inr ⟨spared (by omega), .inr ⟨t, List.mem_cons_of_mem s member, puts⟩⟩

/-- The second pass leaves every value as it is with the labels known, and knows them all. -/
theorem foldlM_patch (halfway : Halfway labels before rest data) (apart : Apart (before ++ rest))
    (room : ∀ s ∈ rest, s.stop < 0x100000000)
    (done : (rest.filterMap Store.fixup?).foldlM (patch labels) data = .ok result) :
    (∀ s ∈ rest, ∀ name offset, s.value = .label name offset → labels name ≠ none) ∧
      Halfway labels (before ++ rest) [] result := by
  induction rest generalizing before data with
  | nil =>
    cases done
    rw [List.append_nil]
    exact ⟨fun s member => absurd member List.not_mem_nil, halfway⟩
  | cons s rest ih =>
    obtain ⟨here, later⟩ := List.forall_mem_cons.mp room
    have passed : Apart (before ++ [s] ++ rest) := by rwa [← List.append_cons]
    rw [List.append_cons]
    cases wanted : s.value.label? with
    | none =>
      rw [List.filterMap_cons_none (by rw [Store.fixup?, wanted]; rfl)] at done
      have same := s.bytes_of_label?_none wanted noLabels labels
      obtain ⟨known, final⟩ := ih (halfway.pass same) passed later done
      refine ⟨List.forall_mem_cons.mpr ⟨fun name offset value => ?_, known⟩, final⟩
      rw [value] at wanted
      cases wanted
    | some wish =>
      obtain ⟨name, offset⟩ := wish
      have value := DataValue.eq_label wanted
      rw [List.filterMap_cons_some (by rw [Store.fixup?, wanted]; rfl), List.foldlM_cons,
        Assembler.patch] at done
      dsimp only at done
      split at done
      · cases done
      · next target found =>
        have image : s.bytes labels =
            (littleEndian 4 (target + Selection.word offset).toNat).map some := by
          simp only [Store.bytes, value, DataValue.image, found]
        rw [← image] at done
        have full : ∀ byte ∈ s.bytes labels, byte ≠ none := by simp [image]
        obtain ⟨known, final⟩ := ih (halfway.patch apart here full) passed later done
        refine ⟨List.forall_mem_cons.mpr ⟨fun other _ same => ?_, known⟩, final⟩
        rw [value] at same
        cases same
        simp [found]

end Assembler

/-- The values of operands, each as often as it is repeated. -/
def repeated (entries : List (DataValue × Nat)) : List DataValue :=
  entries.flatMap fun (v, count) => List.replicate count v

/-- A declaration is what its line asks for. -/
structure Declared (line : SourceLine) (d : Declaration) (entries : List (DataValue × Nat)) :
    Prop where
  role : line.role = .declaration d.kind
  tag : d.tag = line.tag
  operands : List.Forall₂ (fun token entry => Denotes d.kind token entry.1 entry.2)
    line.statement.args entries
  values : d.values = entries.map (·.1)
  size : d.size = Layout.extent d.kind (repeated entries)
  aligned : d.kind.align ∣ d.address.toNat

/-- A declaration with what its operands denote. -/
abbrev Block := Declaration × List (DataValue × Nat)

namespace Block

def stores (b : Block) : List Store := storesFrom b.1.kind b.1.tag b.1.address (repeated b.2)

def stop (b : Block) : Nat := b.1.address.toNat + b.1.size

end Block

namespace Layout

variable {l l' b : Layout} {line : SourceLine} {done lines : List SourceLine} {blocks : List Block}

theorem Declares.declared {d : Declaration} {made : List (Nat × Element)}
    (declares : Declares l line d made) :
    Declared line d (made.map fun (_, e) => (e.value, e.count)) ∧
      repeated (made.map fun (_, e) => (e.value, e.count)) = slots made ∧
      laid made = (slots made).flatMap (·.image noLabels d.kind) ∧
      made.flatMap (elementFixups d.address d.tag) =
        (storesFrom d.kind d.tag d.address (slots made)).filterMap Store.fixup? := by
  obtain ⟨head, found⟩ := declares.elements
  obtain ⟨all, fixups⟩ := elements_ok found
  have fits : ∀ placed ∈ made, placed.2.Fits d.kind := by
    intro placed member
    obtain ⟨token, -, reads⟩ := exists_of_forall₂ all member
    exact reads.toFits
  have same : repeated (made.map fun (_, e) => (e.value, e.count)) = slots made := by
    rw [repeated, List.flatMap_map]
    rfl
  refine ⟨⟨declares.role, declares.tag, ?_, ?_, ?_, declares.aligned⟩, same, laid_eq fits,
    fixups d.tag⟩
  · rw [List.forall₂_map_right_iff]
    exact all.imp fun _ _ reads => reads.denotes
  · rw [declares.values, List.map_map]
    rfl
  · rw [declares.size, length_laid fits, same]

/-- What the data segment holds after the lines so far: the blocks that they declare, one behind
another and none past where the segment stands, with zeros where addresses are wanted. -/
structure Images (done : List SourceLine) (l : Layout) (blocks : List Block) : Prop where
  declarations : l.declarations.reverse = blocks.map (·.1)
  declared : List.Forall₂ (fun line b => Declared line b.1 b.2)
    (done.filter (·.isDeclaration)) blocks
  low : MemoryMap.dataBase.toNat ≤ l.dataPc.toNat
  high : l.dataPc.toNat ≤ MemoryMap.heapBase.toNat
  inside : ∀ b ∈ blocks, MemoryMap.dataBase.toNat ≤ b.1.address.toNat ∧ b.stop ≤ l.dataPc.toNat
  ordered : blocks.Pairwise fun b c => b.stop ≤ c.1.address.toNat
  fixups : l.fixups.reverse = (blocks.flatMap Block.stores).filterMap Store.fixup?
  data : ∀ (x : Word) v, l.data[x]? = some v ↔
    ∃ s ∈ blocks.flatMap Block.stores, s.Puts noLabels x v

theorem images_start : Images [] start [] where
  declarations := rfl
  declared := .nil
  low := Nat.le_refl _
  high := by decide
  inside := fun _ member => absurd member List.not_mem_nil
  ordered := .nil
  fixups := rfl
  data := by simp [start]

/-- The segment may move forward without a declaration. -/
theorem Images.move (images : Images done l blocks)
    (declarations : l'.declarations = l.declarations) (data : l'.data = l.data)
    (fixups : l'.fixups = l.fixups) (forward : l.dataPc.toNat ≤ l'.dataPc.toNat)
    (high : l'.dataPc.toNat ≤ MemoryMap.heapBase.toNat) : Images done l' blocks where
  declarations := declarations ▸ images.declarations
  declared := images.declared
  low := images.low.trans forward
  high := high
  inside := fun b member =>
    ⟨(images.inside b member).1, (images.inside b member).2.trans forward⟩
  ordered := images.ordered
  fixups := fixups ▸ images.fixups
  data := data ▸ images.data

theorem Images.pass (images : Images done l blocks) (other : line.isDeclaration = false) :
    Images (done ++ [line]) l blocks :=
  { images with
    declared := by
      rw [List.filter_append, List.filter_cons_of_neg (by simp [other]), List.filter_nil,
        List.append_nil]
      exact images.declared }

theorem Binds.images (binds : Binds l b) (images : Images done l blocks) :
    Images done b blocks := by
  have same : b.dataPc = l.dataPc := by rw [binds.rest]
  refine images.move ?_ ?_ ?_ (same ▸ Nat.le_refl _) (same ▸ images.high)
  all_goals rw [binds.rest]

theorem alignUp_forward {a : Word} {n : Nat} (small : n ≤ 3)
    (high : a.toNat ≤ MemoryMap.heapBase.toNat) : a.toNat ≤ (alignUp a (Nat.pow 2 n)).toNat ∧
      (alignUp a (Nat.pow 2 n)).toNat ≤ MemoryMap.heapBase.toNat := by
  have top : MemoryMap.heapBase.toNat = 0x10040000 := rfl
  rw [top] at high ⊢
  rw [alignUp, BitVec.toNat_ofNat]
  interval_cases n <;> simp only [Nat.pow_eq, Nat.reducePow] <;> omega

theorem Images.block (images : Images done l blocks) {b : Block} (member : b ∈ blocks) :
    (∃ line, Declared line b.1 b.2) ∧ b.stop ≤ MemoryMap.heapBase.toNat := by
  obtain ⟨line, -, declared⟩ := exists_of_forall₂ images.declared member
  exact ⟨⟨line, declared⟩, (images.inside b member).2.trans images.high⟩

/-- The values of a block stay in its stretch and apart from each other. -/
theorem Images.stores (images : Images done l blocks) {b : Block} (member : b ∈ blocks) :
    Apart b.stores ∧ ∀ s ∈ b.stores, b.1.address.toNat ≤ s.address.toNat ∧ s.stop ≤ b.stop := by
  obtain ⟨⟨line, declared⟩, room⟩ := images.block member
  have top : MemoryMap.heapBase.toNat = 0x10040000 := rfl
  have size : b.stop = b.1.address.toNat + extent b.1.kind (repeated b.2) :=
    congrArg (b.1.address.toNat + ·) declared.size
  rw [size] at room ⊢
  exact ⟨storesFrom_apart (by omega), fun s stored => storesFrom_inside (by omega) stored⟩

theorem Images.below (images : Images done l blocks) {s : Store}
    (member : s ∈ blocks.flatMap Block.stores) : s.stop ≤ l.dataPc.toNat := by
  obtain ⟨b, inside, stored⟩ := List.mem_flatMap.mp member
  exact ((images.stores inside).2 s stored).2.trans (images.inside b inside).2

theorem Images.declare (images : Images done l blocks) {d : Declaration}
    {made : List (Nat × Element)} (declares : Declares l line d made)
    (declarations : l'.declarations = d :: l.declarations)
    (data : l'.data = writeKnown l.data d.address (laid made))
    (fixups : l'.fixups = (made.flatMap (elementFixups d.address d.tag)).reverse ++ l.fixups)
    (dataPc : l'.dataPc = d.address + BitVec.ofNat 32 d.size) :
    Images (done ++ [line]) l' (blocks ++ [(d, made.map fun (_, e) => (e.value, e.count))]) := by
  obtain ⟨declared, same, bytes, wanted⟩ := declares.declared
  have top : MemoryMap.heapBase.toNat = 0x10040000 := rfl
  have room := declares.room
  have here : d.address.toNat = l.dataPc.toNat := congrArg BitVec.toNat declares.address
  have forward : l'.dataPc.toNat = d.address.toNat + d.size := by
    rw [dataPc, toNat_add_ofNat (by omega)]
  have stores : Block.stores (d, made.map fun (_, e) => (e.value, e.count)) =
      storesFrom d.kind d.tag d.address (slots made) := congrArg _ same
  have low := images.low
  constructor
  · rw [declarations, List.reverse_cons, images.declarations, List.map_append]
    rfl
  · have here : line.isDeclaration = true := by simp [SourceLine.isDeclaration, declares.role]
    rw [List.filter_append, List.filter_cons_of_pos here, List.filter_nil]
    exact forall₂_concat images.declared declared
  · omega
  · omega
  · intro b member
    rcases List.mem_append.mp member with old | new
    · have bounds := images.inside b old
      omega
    · obtain rfl := List.mem_singleton.mp new
      simp only [Block.stop]
      omega
  · refine List.pairwise_append.mpr ⟨images.ordered, List.pairwise_singleton _ _, ?_⟩
    intro b old c new
    obtain rfl := List.mem_singleton.mp new
    have bounds := (images.inside b old).2
    dsimp only
    omega
  · rw [fixups, List.reverse_append, List.reverse_reverse, images.fixups, List.flatMap_append,
      List.filterMap_append, List.flatMap_singleton, stores, wanted]
  · intro x v
    have length : (laid made).length = d.size := declares.size.symm
    have extent_eq : d.size = extent d.kind (slots made) := same ▸ declared.size
    have new : (∃ s ∈ storesFrom d.kind d.tag d.address (slots made), s.Puts noLabels x v) ↔
        ∃ i, (laid made)[i]? = some (some v) ∧ x.toNat = d.address.toNat + i :=
      bytes ▸ storesFrom_puts (by omega)
    rw [data, writeKnown_iff (by omega), images.data, List.flatMap_append, List.flatMap_singleton,
      stores, ← new]
    simp only [List.mem_append, or_and_right, exists_or]
    rw [or_comm (a := ∃ s, s ∈ List.flatMap Block.stores blocks ∧ _)]
    -- nothing older is overwritten, for all of it lies in front of the new stretch
    refine or_congr_right (and_iff_right_of_imp ?_)
    rintro ⟨s, member, puts⟩ i b found place
    have below := images.below member
    have inside := puts.inside
    omega

/-- Only a declaration changes the data, and every line leaves the segment behind all blocks. -/
theorem Step.images (step : Step l line l') (unaddressed : line.IsUnaddressed)
    (images : Images done l blocks) : ∃ blocks', Images (done ++ [line]) l' blocks' := by
  cases step with
  | idle role =>
    have other : line.isDeclaration = false := by simp [SourceLine.isDeclaration, role]
    have still : Images done (l.awaiting line.labels) blocks :=
      images.move rfl rfl rfl (Nat.le_refl _) images.high
    exact ⟨blocks, still.pass other⟩
  | @enter b segment textPc dataPc role binds stay =>
    have other : line.isDeclaration = false := by simp [SourceLine.isDeclaration, role]
    have same : dataPc = l.dataPc := (stay (unaddressed _ role)).2
    refine ⟨blocks, (images.move ?_ ?_ ?_ ?_ ?_).pass other⟩
    · rw [binds.rest]; rfl
    · rw [binds.rest]; rfl
    · rw [binds.rest]; rfl
    · rw [same]
    · rw [same]
      exact images.high
  | @align b dataPc role _ binds moved =>
    have other : line.isDeclaration = false := by simp [SourceLine.isDeclaration, role]
    obtain ⟨n, small, rfl⟩ := moved
    obtain ⟨forward, high⟩ := alignUp_forward small images.high
    have aligned : Images done { l.awaiting line.labels with
        dataPc := alignUp l.dataPc (Nat.pow 2 n) } blocks :=
      images.move rfl rfl rfl forward high
    exact ⟨blocks, (binds.images aligned).pass other⟩
  | @declaration b d made warnings _ binds declares =>
    refine ⟨_, images.declare declares ?_ ?_ ?_ rfl⟩
    all_goals rw [binds.rest]; rfl
  | @instruction b sized role _ binds _ _ =>
    have other : line.isDeclaration = false := by simp [SourceLine.isDeclaration, role]
    have still : Images done (l.awaiting line.labels) blocks :=
      images.move rfl rfl rfl (Nat.le_refl _) images.high
    have bound := (binds.images still).pass other
    exact ⟨blocks, bound.move rfl rfl rfl (Nat.le_refl _) bound.high⟩

theorem Steps.images (steps : Steps l lines l') (unaddressed : ∀ line ∈ lines, line.IsUnaddressed)
    (images : Images done l blocks) : ∃ blocks', Images (done ++ lines) l' blocks' := by
  induction steps generalizing done blocks with
  | nil =>
    rw [List.append_nil]
    exact ⟨blocks, images⟩
  | cons step _ ih =>
    obtain ⟨here, later⟩ := List.forall_mem_cons.mp unaddressed
    obtain ⟨next, images⟩ := step.images here images
    rw [List.append_cons]
    exact ih later images

theorem ofLines_images (placed : ofLines lines = .ok l)
    (unaddressed : ∀ line ∈ lines, line.IsUnaddressed) : ∃ blocks, Images lines l blocks := by
  obtain ⟨last, steps, binds⟩ := steps_of_ofLines placed
  obtain ⟨blocks, images⟩ := steps.images unaddressed images_start
  exact ⟨blocks, binds.images images⟩

/-- No two values of a data segment overlap. -/
theorem Images.apart (images : Images done l blocks) : Apart (blocks.flatMap Block.stores) := by
  refine List.pairwise_flatMap.mpr ⟨fun b member => (images.stores member).1,
    images.ordered.imp_of_mem ?_⟩
  intro b c first second order s early t late
  have front := ((images.stores first).2 s early).2
  have back := ((images.stores second).2 t late).1
  exact (front.trans order).trans back

end Layout

end MipsLab
