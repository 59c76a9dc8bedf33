import MipsLab.Proofs.Assembly.Overlay
import MipsLab.Proofs.Machine.FlatMemory

/-! Where units may lie when lines move segments. A segment goes on from its origin, the last
address that a line gave it. Only the upper ends of the segments are checked, so whether everything
lies within them depends on the origins alone. -/
namespace MipsLab

open Std (ExtTreeMap)

def Segment.base : Segment → Word
  | .text => MemoryMap.textBase
  | .data => MemoryMap.dataBase

/-- Where a line puts a segment. -/
def SourceLine.origin? (segment : Segment) (line : SourceLine) : Option Word :=
  if line.role = .enter segment then
    match line.statement.args with
    | [token] => (Literal.int? token.toList).map Selection.word
    | _ => none
  else none

/-- The address from which a segment goes on behind these lines. -/
def originAfter (segment : Segment) (lines : List SourceLine) : Word :=
  ((lines.filterMap (·.origin? segment)).getLast?).getD segment.base

theorem originAfter_concat (segment : Segment) (lines : List SourceLine) (line : SourceLine) :
    originAfter segment (lines ++ [line]) =
      (line.origin? segment).getD (originAfter segment lines) := by
  rw [originAfter, List.filterMap_append]
  cases moved : line.origin? segment with
  | none =>
    rw [List.filterMap_cons_none moved, List.filterMap_nil, List.append_nil]
    rfl
  | some origin =>
    rw [List.filterMap_cons_some moved, List.filterMap_nil, List.getLast?_concat]
    rfl

theorem originAfter_cases (segment : Segment) (lines : List SourceLine) :
    originAfter segment lines = segment.base ∨
      ∃ line ∈ lines, line.origin? segment = some (originAfter segment lines) := by
  unfold originAfter
  cases last : (lines.filterMap (·.origin? segment)).getLast? with
  | none => exact .inl rfl
  | some origin =>
    obtain ⟨line, member, moved⟩ := List.mem_filterMap.mp (List.mem_of_getLast? last)
    exact .inr ⟨line, member, moved⟩

namespace Layout

variable {l l' : Layout} {line : SourceLine} {before lines : List SourceLine}

theorem filled_of_role (busy : line.role ≠ .idle) : ¬ (Text.trim line.text).isEmpty = true :=
  fun blank => busy (by rw [SourceLine.role, SourceLine.statement, if_pos blank]; rfl)

theorem enter_of_line {segment : Segment} (role : line.role = .enter segment)
    (done : l.line line = .ok l') :
    (l.awaiting line.labels).enter line.statement.name segment line.statement.args = .ok l' := by
  have stated := statement_of_line (filled_of_role (by simp [role])) done
  unfold Layout.statement at stated
  dsimp only at stated
  unfold SourceLine.role Statement.role at role
  split at stated
  · rename_i bare
    rw [bare] at role
    cases role
  · rename_i head given
    have named : line.statement.name = head := by rw [Statement.name, given]; rfl
    rw [given] at role
    dsimp only at role
    split at stated
    · rename_i dotted
      rw [if_pos dotted] at role
      split at stated <;> rename_i found <;> rw [found] at role <;> cases role
      rw [named]
      exact stated
    · rename_i plain
      rw [if_neg plain] at role
      cases role

/-- A line that opens a segment puts it where it says, and leaves the other where it is. -/
theorem origin_of_line {segment : Segment} (role : line.role = .enter segment)
    (done : l.line line = .ok l') : l'.textPc = (line.origin? .text).getD l.textPc ∧
      l'.dataPc = (line.origin? .data).getD l.dataPc := by
  obtain ⟨b, bound, entered⟩ := except_bind_ok (enter_of_line role done)
  have binds := binds_of_bindLabels bound
  have same : b.textPc = l.textPc ∧ b.dataPc = l.dataPc := by
    rw [binds.rest]
    exact ⟨rfl, rfl⟩
  unfold SourceLine.origin?
  rw [role]
  split at entered
  · rename_i none
    cases entered
    simpa [none] using same
  · rename_i address given
    split at entered
    · cases entered
    · rename_i v read
      split at entered
      · cases segment <;> cases entered <;> simp [given, read, same]
      · cases entered
  · cases entered

theorem origin?_of_role (role : ∀ segment, line.role ≠ .enter segment) (segment : Segment) :
    line.origin? segment = none := if_neg (role segment)

/-- The highest address that no alignment moves past the end of the address space. -/
def highest : Word := 0xFFFFFFF8

/-- An address lies behind an origin, unless an alignment has gone around from there. -/
def Behind (origin a : Word) : Prop :=
  highest.toNat < origin.toNat ∨ origin.toNat ≤ a.toNat ∧ a.toNat ≤ highest.toNat

theorem behind_self (a : Word) : Behind a a := by
  rw [Behind]
  omega

theorem Behind.align {origin a : Word} (behind : Behind origin a) {n : Nat} (small : n ≤ 3) :
    Behind origin (alignUp a (Nat.pow 2 n)) := by
  refine behind.imp_right fun ⟨above, below⟩ => ?_
  have top : highest.toNat = 0xFFFFFFF8 := rfl
  rw [top] at below ⊢
  rw [alignUp, BitVec.toNat_ofNat]
  interval_cases n <;> simp only [Nat.pow_eq, Nat.reducePow] <;> omega

/-- Where the segments stand after these lines, and where the units of each of them lie. -/
structure Based (done : List SourceLine) (l : Layout) : Prop where
  text : ∃ k, l.textPc.toNat = (originAfter .text done).toNat + 4 * k
  data : Behind (originAfter .data done) l.dataPc
  placed : ∀ p ∈ l.placed, ∃ before, before <+: done ∧
    ∃ k, p.address.toNat = (originAfter .text before).toNat + 4 * k
  declared : ∀ d ∈ l.declarations, ∃ before, before <+: done ∧
    Behind (originAfter .data before) d.address

theorem based_start : Based [] start where
  text := ⟨0, rfl⟩
  data := .inr ⟨Nat.le_refl _, by decide⟩
  placed := fun _ member => absurd member List.not_mem_nil
  declared := fun _ member => absurd member List.not_mem_nil

theorem Based.later {done : List SourceLine} (based : Based done l) (line : SourceLine) :
    (∀ p ∈ l.placed, ∃ before, before <+: done ++ [line] ∧
      ∃ k, p.address.toNat = (originAfter .text before).toNat + 4 * k) ∧
    ∀ d ∈ l.declarations, ∃ before, before <+: done ++ [line] ∧
      Behind (originAfter .data before) d.address := by
  constructor
  · intro p member
    obtain ⟨before, early, found⟩ := based.placed p member
    exact ⟨before, early.trans (List.prefix_append _ _), found⟩
  · intro d member
    obtain ⟨before, early, found⟩ := based.declared d member
    exact ⟨before, early.trans (List.prefix_append _ _), found⟩

theorem Based.enter {done : List SourceLine} (based : Based done l) {segment : Segment}
    (role : line.role = .enter segment) (placing : l.line line = .ok l') :
    Based (done ++ [line]) l' := by
  obtain ⟨textPc, dataPc⟩ := origin_of_line role placing
  obtain ⟨placed, declared⟩ := based.later line
  refine ⟨?_, ?_, ?_, ?_⟩
  · rw [originAfter_concat, textPc]
    cases line.origin? .text with
    | none => exact based.text
    | some origin => exact ⟨0, rfl⟩
  · rw [originAfter_concat, dataPc]
    cases line.origin? .data with
    | none => exact based.data
    | some origin => exact behind_self origin
  · rcases (step_of_line placing).placed with ⟨-, same⟩ | ⟨instruction, -⟩
    · rwa [same]
    · simp [SourceLine.isInstruction, role] at instruction
  · rcases (step_of_line placing).declarations with ⟨-, same⟩ | ⟨declaration, -⟩
    · rwa [same]
    · simp [SourceLine.isDeclaration, role] at declaration

theorem Step.based {done : List SourceLine} (step : Step l line l') (based : Based done l)
    (stays : ∀ segment, line.role ≠ .enter segment) : Based (done ++ [line]) l' := by
  have origin (segment : Segment) :
      originAfter segment (done ++ [line]) = originAfter segment done := by
    rw [originAfter_concat, origin?_of_role stays]
    rfl
  have text := based.text
  have data := based.data
  obtain ⟨placed, declared⟩ := based.later line
  rw [← origin] at text data
  cases step with
  | idle => exact ⟨text, data, placed, declared⟩
  | enter role => exact absurd role (stays _)
  | align _ _ binds moved =>
    obtain ⟨n, small, rfl⟩ := moved
    rw [binds.rest]
    exact ⟨text, data.align small, placed, declared⟩
  | @declaration b d made warnings _ binds declares =>
    have room := declares.room
    have top : MemoryMap.heapBase.toNat = 0x10040000 := rfl
    have high : highest.toNat = 0xFFFFFFF8 := rfl
    have here := declares.address
    have next : (d.address + BitVec.ofNat 32 d.size).toNat = d.address.toNat + d.size :=
      toNat_add_ofNat (by omega)
    rw [binds.rest]
    refine ⟨text, ?_, placed, List.forall_mem_cons.mpr ⟨⟨done, List.prefix_append _ _, ?_⟩,
      declared⟩⟩
    · rw [← here] at data
      refine data.imp_right fun ⟨above, _⟩ => ?_
      dsimp only
      omega
    · rw [here]
      exact based.data
  | @instruction b sized _ _ binds sizing room =>
    have limit : MemoryMap.textLimit.toNat < 2 ^ 32 := MemoryMap.textLimit.isLt
    have next : (l.textPc + BitVec.ofNat 32 (4 * sized.instrs.length)).toNat =
        l.textPc.toNat + 4 * sized.instrs.length := toNat_add_ofNat (by omega)
    rw [binds.rest]
    refine ⟨?_, data, List.forall_mem_cons.mpr ⟨⟨done, List.prefix_append _ _, based.text⟩, placed⟩,
      declared⟩
    obtain ⟨k, found⟩ := text
    refine ⟨k + sized.instrs.length, ?_⟩
    dsimp only
    omega

theorem based_of_line {done : List SourceLine} (placing : l.line line = .ok l')
    (based : Based done l) : Based (done ++ [line]) l' := by
  -- `Step` does not say where a line puts its segment, so there the line itself is asked
  by_cases enters : ∃ segment, line.role = .enter segment
  · obtain ⟨segment, role⟩ := enters
    exact based.enter role placing
  · exact (step_of_line placing).based based (not_exists.mp enters)

theorem based_of_foldlM {done : List SourceLine} (run : lines.foldlM Layout.line l = .ok l')
    (based : Based done l) : Based (done ++ lines) l' := by
  induction lines generalizing l done with
  | nil =>
    cases run
    rwa [List.append_nil]
  | cons line lines ih =>
    rw [List.foldlM_cons] at run
    obtain ⟨next, placing, run⟩ := except_bind_ok run
    rw [List.append_cons]
    exact ih run (based_of_line placing based)

theorem ofLines_based (placing : ofLines lines = .ok l) : Based lines l := by
  obtain ⟨last, run, placing⟩ := except_bind_ok placing
  have based := based_of_foldlM run based_start
  rw [(binds_of_bindLabels (except_mapError_ok placing)).rest]
  exact ⟨based.text, based.data, based.placed, based.declared⟩

end Layout

/-- Where the text and the data of a program lie that was assembled from these lines. -/
structure Program.Contained (p : Program) (lines : List SourceLine) : Prop where
  /-- Every instruction ends within the text segment, whole instructions behind an origin. -/
  text : ∀ (a : Word) entry, p.text[a]? = some entry →
    a.toNat + 4 ≤ MemoryMap.textLimit.toNat ∧
      ∃ before k, before <+: lines ∧ a.toNat = (originAfter .text before).toNat + 4 * k
  /-- Every byte lies below the heap and behind an origin, unless an alignment went around. -/
  data : ∀ (x : Word) v, p.data[x]? = some v → x.toNat < MemoryMap.heapBase.toNat ∧
    ∃ before, before <+: lines ∧ (Layout.highest.toNat < (originAfter .data before).toNat ∨
      (originAfter .data before).toNat ≤ x.toNat)

theorem contained_of_bind {startAtMain : Bool} {lines : List SourceLine} {names : PathNames}
    {l : Layout} {p : Program} (placed : Layout.ofLines lines = .ok l)
    (bound : Assembler.bind startAtMain lines names l = .ok p) : p.Contained lines := by
  have based := Layout.ofLines_based placed
  obtain ⟨blocks, overlaid⟩ := overlaid_of_bind placed bound
  constructor
  · intro a entry found
    obtain ⟨i, member, inside, rfl⟩ := ((overlaid.text a entry).mp found).covers
    obtain ⟨n, at_⟩ := List.mem_iff_getElem?.mp inside
    have ends := overlaid.ends i member
    obtain ⟨place, less⟩ := ends.toNat_address at_
    obtain ⟨q, stands, address, -⟩ := exists_placed_of_bind placed bound member
    obtain ⟨before, early, k, behind⟩ := based.placed q stands
    rw [SourceInstruction.Ends] at ends
    rw [address] at behind
    exact ⟨by omega, before, k + n, early, by omega⟩
  · intro x v found
    obtain ⟨s, member, puts⟩ := ((overlaid.data x v).mp found).covers
    have stored : s ∈ blocks.flatMap Block.stores := by
      rcases List.mem_append.mp member with plain | wants
      · exact (List.mem_filter.mp plain).1
      · exact (List.mem_filter.mp wants).1
    obtain ⟨b, inside, stored⟩ := List.mem_flatMap.mp stored
    obtain ⟨line, declared⟩ := overlaid.declared_of_mem inside
    have room := overlaid.room b inside
    have lies := Block.inside declared room stored
    have here := puts.inside
    have listed : b.1 ∈ l.declarations := by
      rw [← List.mem_reverse, ← (Assembler.bind_fields bound).2.2.1, overlaid.declarations]
      exact List.mem_map_of_mem inside
    obtain ⟨before, early, behind⟩ := based.declared b.1 listed
    refine ⟨by omega, before, early, behind.imp_right fun ahead => ?_⟩
    have above := ahead.1
    omega

namespace Program.Contained

variable {p : Program} {lines : List SourceLine}

/-- Text lies in the text segment if every line that moves the segment puts it there, at a multiple
of four. -/
theorem inText (contained : p.Contained lines)
    (origins : ∀ line ∈ lines, ∀ origin : Word, line.origin? .text = some origin →
      MemoryMap.textBase.toNat ≤ origin.toNat ∧ 4 ∣ origin.toNat) {a : Word} {entry : TextEntry}
    (found : p.text[a]? = some entry) : 4 ∣ a.toNat ∧ MemoryMap.textBase.toNat ≤ a.toNat ∧
      a.toNat < MemoryMap.textLimit.toNat := by
  obtain ⟨ends, before, k, early, place⟩ := contained.text a entry found
  have good : MemoryMap.textBase.toNat ≤ (originAfter .text before).toNat ∧
      4 ∣ (originAfter .text before).toNat := by
    rcases originAfter_cases .text before with base | ⟨line, member, moved⟩
    · rw [base]
      decide
    · exact origins line (early.subset member) _ moved
  omega

/-- Data lies in the data segment, where a program can load it, if every line that moves the segment
puts it there. -/
theorem inData (contained : p.Contained lines)
    (origins : ∀ line ∈ lines, ∀ origin : Word, line.origin? .data = some origin →
      MemoryMap.dataSegmentBase.toNat ≤ origin.toNat ∧ origin.toNat ≤ Layout.highest.toNat)
    {x : Word} {v : Byte} (found : p.data[x]? = some v) :
    MemoryMap.dataSegmentBase.toNat ≤ x.toNat ∧ x.toNat < MemoryMap.heapBase.toNat ∧
      ∀ garbage, (Memory.load p.data garbage).readByte x = .ok v := by
  obtain ⟨below, before, early, behind⟩ := contained.data x v found
  have good : MemoryMap.dataSegmentBase.toNat ≤ (originAfter .data before).toNat ∧
      (originAfter .data before).toNat ≤ Layout.highest.toNat := by
    rcases originAfter_cases .data before with base | ⟨line, member, moved⟩
    · rw [base]
      decide
    · exact origins line (early.subset member) _ moved
  have above : MemoryMap.dataSegmentBase.toNat ≤ x.toNat := by omega
  refine ⟨above, below, fun garbage => ?_⟩
  have mapped : MemoryMap.Mapped x := by
    have start : MemoryMap.dataSegmentBase.toNat = 0x10000000 := rfl
    have top : MemoryMap.heapBase.toNat = 0x10040000 := rfl
    rw [MemoryMap.mapped_iff]
    omega
  have passes : Memory.check x Width.byte.bytes = .ok () := by
    rw [Width.bytes, Memory.check_byte, if_pos mapped]
  have value : (Memory.load p.data garbage).peekValue x .byte = v.toNat := by
    simp [Memory.peekValue, Memory.peekBytes, Memory.peek, Memory.load, Width.bytes, found,
      ofLittleEndian]
  rw [Memory.readByte, Memory.read, passes]
  change Except.ok (BitVec.ofNat 8 ((Memory.load p.data garbage).peekValue x .byte)) = _
  rw [value, BitVec.ofNat_toNat, BitVec.setWidth_eq]

end Program.Contained

/-- Lines that assemble leave text and data behind the origins of their segments and below the ends
of these; if no line gives an origin outside its segment, all of it lies inside. -/
theorem assembleLines_contained (settings : Settings) (lines : List SourceLine) (names : PathNames)
    (assembled : Assembled) (done : assembleLines settings lines names = .ok assembled) :
    assembled.program.Contained lines ∧
      ((∀ line ∈ lines, ∀ origin : Word, line.origin? .text = some origin →
          MemoryMap.textBase.toNat ≤ origin.toNat ∧ 4 ∣ origin.toNat) →
        ∀ (a : Word) entry, assembled.program.text[a]? = some entry → 4 ∣ a.toNat ∧
          MemoryMap.textBase.toNat ≤ a.toNat ∧ a.toNat < MemoryMap.textLimit.toNat) ∧
      ((∀ line ∈ lines, ∀ origin : Word, line.origin? .data = some origin →
          MemoryMap.dataSegmentBase.toNat ≤ origin.toNat ∧
            origin.toNat ≤ Layout.highest.toNat) →
        ∀ (x : Word) v, assembled.program.data[x]? = some v →
          MemoryMap.dataSegmentBase.toNat ≤ x.toNat ∧ x.toNat < MemoryMap.heapBase.toNat ∧
            ∀ garbage, (Memory.load assembled.program.data garbage).readByte x = .ok v) := by
  obtain ⟨l, placed, done⟩ := except_bind_ok done
  obtain ⟨p, bound, done⟩ := except_bind_ok done
  cases done
  have contained := contained_of_bind placed bound
  exact ⟨contained, fun origins _ _ found => contained.inText origins found,
    fun origins _ _ found => contained.inData origins found⟩

def movedSample : List SourceLine :=
  let texts := [".data 0x10000000", ".byte 5", ".align 2", ".word 7", ".text 0x00400100", "nop"]
  texts.zipIdx.map fun (text, n) => ⟨text.toList, ⟨"sample", n + 1⟩⟩

theorem assembleLines_contained_sample : ∃ assembled,
    assembleLines {} movedSample (.new [] fun _ => none) = .ok assembled ∧
      assembled.program.Contained movedSample ∧
      (∃ entry, assembled.program.text[(0x00400100 : Word)]? = some entry) ∧
      (Memory.load assembled.program.data false).readByte 0x10000004 = .ok 7 := by
  have origins : ∀ line ∈ movedSample, (line.origin? .data).all (fun origin =>
      MemoryMap.dataSegmentBase.toNat ≤ origin.toNat ∧
        origin.toNat ≤ Layout.highest.toNat) = true := by decide +kernel
  have read : (assembleLines {} movedSample (.new [] fun _ => none)).map (fun assembled =>
      ((assembled.program.text[(0x00400100 : Word)]?).isSome,
        assembled.program.data[(0x10000004 : Word)]?)) = .ok (true, some 7) := by decide +kernel
  obtain ⟨assembled, done, found⟩ := except_map_ok read
  obtain ⟨text, data⟩ := Prod.ext_iff.mp found
  obtain ⟨contained, -, loaded⟩ := assembleLines_contained {} movedSample _ assembled done
  refine ⟨assembled, done, contained, Option.isSome_iff_exists.mp text, ?_⟩
  refine (loaded (fun line member origin moved => ?_) _ _ data).2.2 false
  have inside := origins line member
  rw [moved] at inside
  simpa using inside

/-- Both segments are moved out of themselves: an instruction lies below the text segment and
between two of its places, and the bytes of a word lie below the data segment. -/
def strayedSample : List SourceLine :=
  let texts := [".text 0x003ffffe", "nop", ".data 0", ".word 7"]
  texts.zipIdx.map fun (text, n) => ⟨text.toList, ⟨"sample", n + 1⟩⟩

theorem contained_strayedSample : ∃ assembled,
    assembleLines {} strayedSample (.new [] fun _ => none) = .ok assembled ∧
      (∃ (a : Word) (entry : TextEntry), assembled.program.text[a]? = some entry ∧
        ¬ 4 ∣ a.toNat ∧ a.toNat < MemoryMap.textBase.toNat) ∧
      ∃ (x : Word) (v : Byte), assembled.program.data[x]? = some v ∧
        x.toNat < MemoryMap.dataSegmentBase.toNat ∧
        (Memory.load assembled.program.data false).readByte x = .error (.addressOutOfRange x) := by
  have read : (assembleLines {} strayedSample (.new [] fun _ => none)).map (fun assembled =>
      ((assembled.program.text[(0x003ffffe : Word)]?).isSome,
        assembled.program.data[(0 : Word)]?)) = .ok (true, some 7) := by decide +kernel
  obtain ⟨assembled, done, seen⟩ := except_map_ok read
  obtain ⟨text, data⟩ := Prod.ext_iff.mp seen
  obtain ⟨entry, found⟩ := Option.isSome_iff_exists.mp text
  exact ⟨assembled, done, ⟨_, entry, found, by decide, by decide⟩, 0, 7, data, by decide, rfl⟩

end MipsLab
