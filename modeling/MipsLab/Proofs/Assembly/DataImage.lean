import MipsLab.Proofs.Assembly.DataLayout

/-! What is read from the data of an assembled program. Every element of a declaration reads back as
what its operand denotes, and nothing is initialized besides the elements. -/
namespace MipsLab

/-- Only spaces leave bytes unwritten. -/
theorem Denotes.unwritten_iff {kind : DataKind} {token : String} {v : DataValue} {count : Nat}
    (denotes : Denotes kind token v count) {labels : Labels} {byte : Option Byte}
    (member : byte ∈ v.image labels kind) : byte = none ↔ kind = .space := by
  cases denotes with
  | int integral =>
    have other : kind ≠ .space := by rcases integral with rfl | rfl | rfl <;> decide
    rw [DataValue.image, if_neg other] at member
    obtain ⟨b, -, rfl⟩ := List.mem_map.mp member
    simp [other]
  | label =>
    rw [DataValue.image] at member
    split at member
    · obtain ⟨b, -, rfl⟩ := List.mem_map.mp member
      simp
    · rw [List.eq_of_mem_replicate member]
      simp
  | float floating =>
    have other : kind ≠ .space := by rcases floating with rfl | rfl <;> decide
    obtain ⟨b, -, rfl⟩ := List.mem_map.mp member
    simp [other]
  | text string =>
    have other : kind ≠ .space := by rcases string with rfl | rfl <;> decide
    rcases List.mem_append.mp member with char | ending
    · obtain ⟨c, -, rfl⟩ := List.mem_map.mp char
      simp [other]
    · split at ending
      · rw [List.mem_singleton.mp ending]
        simp [other]
      · exact absurd ending List.not_mem_nil
  | space =>
    rw [DataValue.image, if_pos rfl] at member
    simp [List.eq_of_mem_replicate member]

namespace Declared

variable {line : SourceLine} {d : Declaration} {entries : List (DataValue × Nat)}

theorem denotes (declared : Declared line d entries) {v : DataValue}
    (member : v ∈ repeated entries) : ∃ token count, Denotes d.kind token v count := by
  obtain ⟨⟨w, count⟩, inside, copies⟩ := List.mem_flatMap.mp member
  obtain ⟨token, -, denotes⟩ := exists_of_forall₂ declared.operands inside
  obtain rfl := List.eq_of_mem_replicate copies
  exact ⟨token, count, denotes⟩

/-- The values of a declaration fill its stretch, unless it is a space. -/
theorem puts_iff (declared : Declared line d entries)
    (room : d.address.toNat + d.size < 0x100000000) {labels : Labels} {x : Word} :
    (∃ v, ∃ s ∈ Block.stores (d, entries), s.Puts labels x v) ↔
      d.kind ≠ .space ∧ d.address.toNat ≤ x.toNat ∧ x.toNat < d.address.toNat + d.size := by
  have size := declared.size
  have puts (v : Byte) : (∃ s ∈ Block.stores (d, entries), s.Puts labels x v) ↔
      ∃ i, ((repeated entries).flatMap (·.image labels d.kind))[i]? = some (some v) ∧
        x.toNat = d.address.toNat + i := Layout.storesFrom_puts (size ▸ room)
  have length : ((repeated entries).flatMap (·.image labels d.kind)).length = d.size := by
    rw [size, List.length_flatMap, Layout.extent]
    simp only [DataValue.length_image]
  have unwritten {byte : Option Byte}
      (member : byte ∈ (repeated entries).flatMap (·.image labels d.kind)) :
      byte = none ↔ d.kind = .space := by
    obtain ⟨w, inside, member⟩ := List.mem_flatMap.mp member
    obtain ⟨token, count, denotes⟩ := declared.denotes inside
    exact denotes.unwritten_iff member
  -- whether an address has a byte is asked of all values of the declaration as one list
  simp only [puts]
  constructor
  · rintro ⟨v, i, found, place⟩
    obtain ⟨bound, -⟩ := List.getElem?_eq_some_iff.mp found
    refine ⟨fun space => ?_, by omega, by omega⟩
    have none := (unwritten (List.mem_of_getElem? found)).mpr space
    cases none
  · rintro ⟨other, above, below⟩
    have bound : x.toNat - d.address.toNat <
        ((repeated entries).flatMap (·.image labels d.kind)).length := by omega
    have written := (unwritten (List.getElem_mem bound)).not.mpr other
    obtain ⟨v, same⟩ := Option.ne_none_iff_exists'.mp written
    exact ⟨v, x.toNat - d.address.toNat, by rw [List.getElem?_eq_getElem bound, same], by omega⟩

end Declared

namespace Program

variable {p : Program} {stores : List Store} {s : Store}

/-- The bytes from an address on, if all of them are initialized. -/
def bytesAt (p : Program) (a : Word) : Nat → Option (List Byte)
  | 0 => some []
  | n + 1 => do
    let b ← p.data[a]?
    let rest ← p.bytesAt (a + 1) n
    return b :: rest

/-- The value of a declaration of some kind is read at an address. -/
def Reads (p : Program) (kind : DataKind) (a : Word) : DataValue → Prop
  | .int v => ∃ bytes, p.bytesAt a kind.align = some bytes ∧
      (ofLittleEndian bytes : Int) = v % 256 ^ kind.align
  | .label name offset => ∃ bytes target, p.bytesAt a kind.align = some bytes ∧
      p.symbols[name]? = some target ∧
      (ofLittleEndian bytes : Int) = (target.toNat + offset) % 256 ^ kind.align
  | .float bits =>
      p.bytesAt a kind.align = some (littleEndian kind.align (DataValue.pattern kind bits))
  | .text s =>
      let bytes := s.toList.map Text.charByte ++ if kind = .asciiz then [0] else []
      p.bytesAt a bytes.length = some bytes

/-- The data are these values with the labels of the program, and nothing else. -/
def Keeps (p : Program) (stores : List Store) : Prop :=
  ∀ (x : Word) v, p.data[x]? = some v ↔ ∃ s ∈ stores, s.Puts p.symbols.labels x v

theorem bytesAt_of_found {a : Word} {bytes : List Byte}
    (found : ∀ i b, bytes[i]? = some b → p.data[a + BitVec.ofNat 32 i]? = some b) :
    p.bytesAt a bytes.length = some bytes := by
  induction bytes generalizing a with
  | nil => rfl
  | cons first bytes ih =>
    have here : p.data[a]? = some first := by simpa using found 0 first rfl
    have later : p.bytesAt (a + 1) bytes.length = some bytes := by
      refine ih fun i b at_ => ?_
      rw [← add_ofNat_succ]
      exact found (i + 1) b at_
    rw [List.length_cons, bytesAt, here, later]
    rfl

theorem Keeps.bytesAt (keeps : p.Keeps stores) (member : s ∈ stores) (room : s.stop < 0x100000000)
    {bytes : List Byte} (image : s.value.image p.symbols.labels s.kind = bytes.map some) :
    p.bytesAt s.address bytes.length = some bytes := by
  have length : bytes.length = s.value.size s.kind := by
    rw [← DataValue.length_image p.symbols.labels, image, List.length_map]
  refine bytesAt_of_found fun i b found => (keeps _ _).mpr ⟨s, member, i, ?_, ?_⟩
  · rw [Store.bytes, image, List.getElem?_map, found]
    rfl
  · obtain ⟨bound, -⟩ := List.getElem?_eq_some_iff.mp found
    rw [Store.stop] at room
    exact toNat_add_ofNat (by omega)

theorem ofLittleEndian_word {n : Nat} (small : n = 1 ∨ n = 2 ∨ n = 4) (v : Int) :
    (ofLittleEndian (littleEndian n (Selection.word v).toNat) : Int) = v % 256 ^ n := by
  rw [ofLittleEndian_littleEndian, Selection.word, BitVec.toNat_ofInt]
  rcases small with rfl | rfl | rfl <;> simp only [Nat.pow_eq, Nat.reducePow] <;> omega

theorem Keeps.reads (keeps : p.Keeps stores) {a : Word} {kind : DataKind} {v : DataValue}
    {tag : SourceTag} (member : ⟨a, kind, v, tag⟩ ∈ stores)
    (room : a.toNat + v.size kind < 0x100000000)
    (known : ∀ name offset, v = .label name offset → p.symbols.labels name ≠ none)
    {token : String} {count : Nat} (denotes : Denotes kind token v count)
    (other : kind ≠ .space) : p.Reads kind a v := by
  cases denotes with
  | @int _ _ _ v _ integral =>
    have small : kind.align = 1 ∨ kind.align = 2 ∨ kind.align = 4 := by
      rcases integral with rfl | rfl | rfl <;> simp [DataKind.align]
    have image : DataValue.image p.symbols.labels kind (.int v) =
        (littleEndian kind.align (Selection.word v).toNat).map some := if_neg other
    have found := keeps.bytesAt member room image
    rw [length_littleEndian] at found
    exact ⟨_, found, ofLittleEndian_word small v⟩
  | @label _ name _ offset =>
    obtain ⟨target, found⟩ := Option.ne_none_iff_exists'.mp (known name offset rfl)
    have sum : target + Selection.word offset = Selection.word (target.toNat + offset) := by
      rw [Selection.word, Selection.word, BitVec.ofInt_add, BitVec.ofInt_natCast,
        BitVec.ofNat_toNat, BitVec.setWidth_eq]
    have image : DataValue.image p.symbols.labels .word (.label name offset) =
        (littleEndian 4 (Selection.word (target.toNat + offset)).toNat).map some := by
      rw [DataValue.image, found, ← sum]
    have read := keeps.bytesAt member room image
    rw [length_littleEndian] at read
    exact ⟨_, target, read, found, ofLittleEndian_word (.inr (.inr rfl)) _⟩
  | @float _ _ _ bits =>
    have image : DataValue.image p.symbols.labels kind (.float bits) =
        (littleEndian kind.align (DataValue.pattern kind bits)).map some := rfl
    have found := keeps.bytesAt member room image
    rw [length_littleEndian] at found
    exact found
  | text =>
    refine keeps.bytesAt member room ?_
    rw [DataValue.image, List.map_append, List.map_map]
    split <;> rfl
  | space => exact absurd rfl other

/-- Each value of a declaration is read at the end of the values before it. -/
def Carries (p : Program) (d : Declaration) (entries : List (DataValue × Nat)) : Prop :=
  ∀ j v, (repeated entries)[j]? = some v →
    p.Reads d.kind
      (d.address + BitVec.ofNat 32 (Layout.extent d.kind ((repeated entries).take j))) v

/-- What the data of a program are that was assembled from these lines. -/
structure Imaged (p : Program) (lines : List SourceLine) : Prop where
  /-- Each declaration line has its own declaration, whose values are read in order. -/
  declared : List.Forall₂ (fun line d => ∃ entries, Declared line d entries ∧
    (d.kind ≠ .space → p.Carries d entries)) (lines.filter (·.isDeclaration)) p.declarations
  inside : ∀ d ∈ p.declarations, MemoryMap.dataBase.toNat ≤ d.address.toNat ∧
    d.address.toNat + d.size ≤ MemoryMap.heapBase.toNat
  /-- The stretches of the declarations are disjoint and lie in the order of the lines. -/
  ordered : p.declarations.Pairwise fun c d => c.address.toNat + c.size ≤ d.address.toNat
  initialized : ∀ x : Word, (∃ v, p.data[x]? = some v) ↔ ∃ d ∈ p.declarations,
    d.kind ≠ .space ∧ d.address.toNat ≤ x.toNat ∧ x.toNat < d.address.toNat + d.size

theorem imaged_of_keeps {l : Layout} {lines : List SourceLine} {blocks : List Block}
    (images : Layout.Images lines l blocks) (declarations : p.declarations = blocks.map (·.1))
    (keeps : p.Keeps (blocks.flatMap Block.stores))
    (known : ∀ s ∈ blocks.flatMap Block.stores, ∀ name offset, s.value = .label name offset →
      p.symbols.labels name ≠ none) : p.Imaged lines := by
  have top : MemoryMap.heapBase.toNat = 0x10040000 := rfl
  have room {b : Block} (member : b ∈ blocks) :
      MemoryMap.dataBase.toNat ≤ b.1.address.toNat ∧
        b.1.address.toNat + b.1.size ≤ MemoryMap.heapBase.toNat :=
    ⟨(images.inside b member).1, (images.block member).2⟩
  have carries {b : Block} {line : SourceLine} (member : b ∈ blocks)
      (declared : Declared line b.1 b.2) (other : b.1.kind ≠ .space) : p.Carries b.1 b.2 := by
    intro j v found
    have stored : ⟨_, b.1.kind, v, b.1.tag⟩ ∈ b.stores := Layout.mem_storesFrom found
    have inside := List.mem_flatMap.mpr ⟨b, member, stored⟩
    have below := images.below inside
    have high := images.high
    obtain ⟨token, count, denotes⟩ := declared.denotes (List.mem_of_getElem? found)
    exact keeps.reads inside (below.trans_lt (by omega)) (known _ inside) denotes other
  have written {b : Block} (member : b ∈ blocks) {x : Word} :
      (∃ v, ∃ s ∈ b.stores, s.Puts p.symbols.labels x v) ↔ b.1.kind ≠ .space ∧
        b.1.address.toNat ≤ x.toNat ∧ x.toNat < b.1.address.toNat + b.1.size := by
    obtain ⟨⟨line, declared⟩, high⟩ := images.block member
    rw [Block.stop] at high
    exact declared.puts_iff (by omega)
  refine ⟨?_, ?_, ?_, fun x => ⟨?_, ?_⟩⟩
  · have filled := (List.forall₂_and_left _ _).mpr ⟨fun _ member => member, images.declared.flip⟩
    rw [declarations, List.forall₂_map_right_iff]
    exact filled.flip.imp fun line b both => ⟨b.2, both.2, carries both.1 both.2⟩
  · rw [declarations]
    exact List.forall_mem_map.mpr fun b member => room member
  · rw [declarations, List.pairwise_map]
    exact images.ordered
  · rintro ⟨v, found⟩
    obtain ⟨s, member, puts⟩ := (keeps x v).mp found
    obtain ⟨b, inside, stored⟩ := List.mem_flatMap.mp member
    rw [declarations]
    exact ⟨b.1, List.mem_map_of_mem inside, (written inside).mp ⟨v, s, stored, puts⟩⟩
  · rintro ⟨d, member, covered⟩
    rw [declarations] at member
    obtain ⟨b, inside, rfl⟩ := List.mem_map.mp member
    obtain ⟨v, s, stored, puts⟩ := (written inside).mpr covered
    exact ⟨v, (keeps x v).mpr ⟨s, List.mem_flatMap.mpr ⟨b, inside, stored⟩, puts⟩⟩

end Program

theorem Assembler.bind_data {startAtMain : Bool} {lines : List SourceLine} {names : PathNames}
    {l : Layout} {p : Program} (done : Assembler.bind startAtMain lines names l = .ok p) :
    l.fixups.reverse.foldlM (patch p.symbols.labels) l.data = .ok p.data := by
  obtain ⟨is, -, done⟩ := except_bind_ok done
  obtain ⟨data, patched, done⟩ := except_bind_ok done
  cases done
  exact patched

theorem imaged_of_bind {startAtMain : Bool} {lines : List SourceLine} {names : PathNames}
    {l : Layout} {p : Program} (placed : Layout.ofLines lines = .ok l)
    (bound : Assembler.bind startAtMain lines names l = .ok p)
    (unaddressed : ∀ line ∈ lines, line.IsUnaddressed) : p.Imaged lines := by
  obtain ⟨-, -, declarations, -⟩ := Assembler.bind_fields bound
  obtain ⟨blocks, images⟩ := Layout.ofLines_images placed unaddressed
  have patched := Assembler.bind_data bound
  rw [images.fixups] at patched
  have halfway : Assembler.Halfway p.symbols.labels [] (blocks.flatMap Block.stores) l.data := by
    intro x v
    rw [images.data]
    simp
  have room : ∀ s ∈ blocks.flatMap Block.stores, s.stop < 0x100000000 := fun s member =>
    ((images.below member).trans images.high).trans_lt (by decide)
  obtain ⟨known, final⟩ := Assembler.foldlM_patch halfway images.apart room patched
  refine Program.imaged_of_keeps images (declarations.trans images.declarations) ?_ known
  intro x v
  rw [final]
  simp

/-- Lines that assemble and move no segment have exactly the data that their declarations ask
for. -/
theorem assembleLines_imaged (settings : Settings) (lines : List SourceLine) (names : PathNames)
    (assembled : Assembled) (done : assembleLines settings lines names = .ok assembled)
    (unaddressed : ∀ line ∈ lines, line.IsUnaddressed) : assembled.program.Imaged lines := by
  obtain ⟨l, placed, done⟩ := except_bind_ok done
  obtain ⟨p, bound, done⟩ := except_bind_ok done
  cases done
  exact imaged_of_bind placed bound unaddressed

/-- A word that is repeated, the address behind it, and smaller values with room left between. -/
def dataSample : List SourceLine :=
  let texts := [".data", "pair: .word -2:2, pair+8", ".byte 255:3", ".align 1", ".space 2",
    "text: .asciiz \"A\u7684\"", ".text", "li $v0, 10", "syscall"]
  texts.zipIdx.map fun (text, n) => ⟨text.toList, ⟨"sample", n + 1⟩⟩

theorem assembleLines_imaged_sample : ∃ assembled,
    assembleLines {} dataSample (.new [] fun _ => none) = .ok assembled ∧
      assembled.program.Imaged dataSample ∧
      assembled.program.bytesAt MemoryMap.dataBase 15 =
        some [254, 255, 255, 255, 254, 255, 255, 255, 8, 0, 1, 16, 255, 255, 255] ∧
      assembled.program.bytesAt (MemoryMap.dataBase + 18) 3 = some [65, 63, 0] := by
  have unaddressed : ∀ line ∈ dataSample, line.IsUnaddressed := by decide +kernel
  have read : (assembleLines {} dataSample (.new [] fun _ => none)).map (fun assembled =>
      (assembled.program.bytesAt MemoryMap.dataBase 15,
        assembled.program.bytesAt (MemoryMap.dataBase + 18) 3)) =
      .ok (some [254, 255, 255, 255, 254, 255, 255, 255, 8, 0, 1, 16, 255, 255, 255],
        some [65, 63, 0]) := by decide +kernel
  cases done : assembleLines {} dataSample (.new [] fun _ => none) with
  | error e =>
    rw [done] at read
    cases read
  | ok assembled =>
    rw [done] at read
    obtain ⟨front, back⟩ := Prod.ext_iff.mp (Except.ok.inj read)
    exact ⟨assembled, rfl, assembleLines_imaged {} dataSample _ assembled done unaddressed, front,
      back⟩

end MipsLab
