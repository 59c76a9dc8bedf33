import MipsLab.Proofs.Assembly.Segments
import MipsLab.Proofs.Text.Numerals

/-! Assembling with checked arithmetic. Every number on the way is first computed exactly and must
then fit its type: addresses, sizes and counts of bytes are words, and the integers of a source are
signed words of 64 bits. Where the numbers fit, a checked function does what its plain one does. -/
namespace MipsLab

open Std (ExtTreeMap)

/-- Why checked work has no result. -/
inductive Stop (ε : Type) where
  | refused (e : ε)
  | overflow
  deriving DecidableEq

namespace Checked

variable {ε α β : Type}

/-- Work without arithmetic. -/
def refusing (x : Except ε α) : Except (Stop ε) α := x.mapError .refused

def locate (tag : SourceTag) : Stop AssemblyError → Stop LocatedError
  | .refused e => .refused ⟨tag, e⟩
  | .overflow => .overflow

/-- A number that must be a word. -/
def word (n : Nat) : Except (Stop ε) Word :=
  if n < 0x100000000 then .ok (BitVec.ofNat 32 n) else .error .overflow

def words (ns : List Nat) : Except (Stop ε) Unit :=
  if ∀ n ∈ ns, n < 0x100000000 then .ok () else .error .overflow

abbrev Fits64 (v : Int) : Prop := -0x8000000000000000 ≤ v ∧ v < 0x8000000000000000

/-- The negative of a signed word of 64 bits. -/
def negated (v : Int) : Except (Stop ε) Int :=
  if Fits64 (-v) then .ok (-v) else .error .overflow

/-- Reads an integer: a magnitude that fits, and its negative after a minus sign. -/
def int (token : List Char) : Except (Stop Unit) Int :=
  match token with
  | '-' :: body =>
    match Literal.magnitude? body with
    | some n => negated n
    | none => .error (.refused ())
  | token =>
    match Literal.int? token with
    | some v => .ok v
    | none => .error (.refused ())

def selectSubi (unsigned : Bool) (ops : List Operand) : Except (Stop AssemblyError) Expansion :=
  match ops with
  | [.gpr rd, .gpr rs, .int v] => do
    let _ ← negated v
    refusing (Selection.selectSubi unsigned [.gpr rd, .gpr rs, .int v])
  | _ => refusing (Selection.selectSubi unsigned ops)

def expand (name : String) (args : List String) (labels : Labels) :
    Except (Stop AssemblyError) Expansion := do
  let ops ← refusing (operands args)
  match Mnemonic.ofName? name.toLower with
  | none => .error (.refused (.unknownInstruction name.toLower))
  | some (.subi unsigned) => selectSubi unsigned ops
  | some m => refusing (Selection.select m ops labels)

def instruction (l : Layout) (name : String) (args : List String) (line : SourceLine) :
    Except (Stop AssemblyError) Layout := do
  if l.segment ≠ .text then .error (.refused (.wrongSegment name l.segment))
  else
    let l ← refusing l.bindLabels
    let e ← expand name args unplaced
    let size ← word (4 * e.instrs.length)
    if l.textPc.toNat + size.toNat ≤ MemoryMap.textLimit.toNat then
      let source := String.ofList (statementText line.text)
      return { l with
        textPc := l.textPc + size
        placed := ⟨l.textPc, name, args, line.tag, source⟩ :: l.placed }
    else .error (.refused (.segmentOverflow .text))

/-- The next multiple of a unit, as a number. -/
def roundedUp (address : Word) (unit : Nat) : Nat := (address.toNat + (unit - 1)) / unit * unit

def align (l : Layout) (head : String) (args : List String) : Except (Stop AssemblyError) Layout :=
  if l.segment ≠ .data then .error (.refused (.wrongSegment head l.segment))
  else
    match args with
    | [token] =>
      match Literal.int? token.toList with
      | none => .error (.refused (.malformedImmediate token))
      | some n =>
        if 0 ≤ n ∧ n ≤ 3 then do
          let dataPc ← word (roundedUp l.dataPc (Nat.pow 2 n.toNat))
          refusing { l with dataPc }.bindLabels
        else .error (.refused (.invalidAlignment n))
    | _ => .error (.refused (.wrongOperands head "an exponent in 0..=3"))

/-- The elements of a list of integers. The place of each copy is computed, the first before the
integer is checked. -/
def integerElements (head : String) (kind : DataKind) (address : Word) :
    (used : Nat) → List String → Except (Stop AssemblyError) (List (Nat × Element))
  | _, [] => .ok []
  | used, token :: rest => do
    words [address.toNat + used]
    let element ← refusing (Layout.numberElement head kind address used token)
    words ((List.range element.count).map fun i => address.toNat + (used + i * kind.align))
    let others ← integerElements head kind address (used + element.count * kind.align) rest
    return (used, element) :: others

def elements (head : String) (kind : DataKind) (address : Word) (args : List String) :
    Except (Stop AssemblyError) (List (Nat × Element)) :=
  match kind with
  | .word | .half | .byte => integerElements head kind address 0 args
  | _ => refusing (Layout.elements head kind address args)

/-- Where the bytes of a stretch lie that are written. -/
def places (address : Word) (bytes : List (Option Byte)) : List Nat :=
  (bytes.zipIdx.filter (·.1.isSome)).map (address.toNat + ·.2)

def emit (l : Layout) (head : String) (kind : DataKind) (args : List String) (tag : SourceTag) :
    Except (Stop AssemblyError) Layout := do
  if l.segment ≠ .data then .error (.refused (.wrongSegment head l.segment))
  else if args.isEmpty then .error (.refused (.wrongOperands head "at least one value"))
  else if l.dataPc.toNat % kind.align ≠ 0 then
    .error (.refused (.misaligned head l.dataPc kind.align))
  else
    let label := l.waiting.getLast?
    let l ← refusing l.bindLabels
    let address := l.dataPc
    let made ← elements head kind address args
    let bytes := Layout.laid made
    let size ← word bytes.length
    if address.toNat + size.toNat ≤ MemoryMap.heapBase.toNat then
      words (places address bytes)
      let declaration : Declaration :=
        ⟨label, kind, made.map (·.2.value), address, size.toNat, tag⟩
      return { l with
        dataPc := address + size
        data := Layout.writeKnown l.data address bytes
        declarations := declaration :: l.declarations
        fixups := (made.flatMap (Layout.elementFixups address tag)).reverse ++ l.fixups
        warnings := (made.flatMap (Layout.elementWarnings head tag)).reverse ++ l.warnings }
    else .error (.refused (.segmentOverflow .data))

def statement (l : Layout) (s : Statement) (line : SourceLine) :
    Except (Stop AssemblyError) Layout :=
  let l := { l with waiting := l.waiting ++ s.labels }
  match s.head with
  | none => .ok l
  | some head =>
    if head.toList.head? = some '.' then
      match Directive.ofName? head with
      | none => .error (.refused (.unknownDirective head))
      | some (.enter segment) => refusing (l.enter head segment s.args)
      | some .align => align l head s.args
      | some (.emit kind) => emit l head kind s.args line.tag
      | some .eqv | some .includeFile | some .globl => .ok l
    else instruction l head s.args line

def line (l : Layout) (line : SourceLine) : Except (Stop LocatedError) Layout :=
  if (Text.trim line.text).isEmpty then .ok l
  else
    let placed : Except (Stop AssemblyError) Layout := do
      let s ← refusing ((lex line.text).mapError AssemblyError.ofLex)
      statement l s line
    placed.mapError (locate line.tag)

def ofLines (lines : List SourceLine) : Except (Stop LocatedError) Layout := do
  let l ← lines.foldlM line Layout.start
  let tag := (lines.getLast?.map SourceLine.tag).getD ⟨"", 0⟩
  refusing (l.bindLabels.mapError (⟨tag, ·⟩))

def bindLine (labels : Labels) (placed : PlacedLine) :
    Except (Stop LocatedError) SourceInstruction := do
  let e ← (expand placed.name placed.args labels).mapError (locate placed.tag)
  words ((List.range e.instrs.length).map fun i => placed.address.toNat + 4 * i)
  return ⟨placed.address, placed.source, e, placed.tag⟩

def patch (labels : Labels) (data : ExtTreeMap Word Byte) (fixup : Fixup) :
    Except (Stop LocatedError) (ExtTreeMap Word Byte) := do
  let data ← refusing (Assembler.patch labels data fixup)
  words ((List.range 4).map (fixup.address.toNat + ·))
  return data

def bind (startAtMain : Bool) (lines : List SourceLine) (names : PathNames) (l : Layout) :
    Except (Stop LocatedError) Program := do
  let labels := l.symbols.labels
  let placed := l.placed.reverse
  let instructions ← placed.mapM (bindLine labels)
  let text := (placed.zip instructions).foldl
    (fun text (p, i) => Assembler.insertEntries text (Assembler.entries p i.expansion)) ∅
  let data ← l.fixups.reverse.foldlM (patch labels) l.data
  return { text, data, symbols := l.symbols, declarations := l.declarations.reverse, instructions,
           names, linked := lines, entry := Assembler.entryPoint startAtMain l.symbols }

def assembleLines (settings : Settings) (lines : List SourceLine) (names : PathNames) :
    Except (Stop LocatedError) Assembled := do
  let l ← ofLines lines
  let program ← bind settings.startAtMain lines names l
  return ⟨program, if settings.warnings then l.warnings.reverse else []⟩

def textEnd (p : Program) : Except (Stop ε) Word :=
  match p.text.maxKey? with
  | some last => word (last.toNat + 4)
  | none => .ok MemoryMap.textBase

@[simp] theorem refusing_ok (a : α) : refusing (.ok a : Except ε α) = .ok a := rfl

theorem refusing_bind (x : Except ε α) (f : α → Except ε β) :
    refusing (x >>= f) = refusing x >>= fun a => refusing (f a) := by
  cases x <;> rfl

/-- Work is the same if it goes on in the same way with every result it has. -/
theorem refusing_bind_congr {x : Except ε α} {f g : α → Except (Stop ε) β}
    (same : ∀ a, x = .ok a → f a = g a) : refusing x >>= f = refusing x >>= g := by
  cases x with
  | error e => rfl
  | ok a => exact same a rfl

theorem word_of_lt {n : Nat} (fits : n < 0x100000000) :
    (word n : Except (Stop ε) Word) = .ok (BitVec.ofNat 32 n) := if_pos fits

theorem words_of_lt {ns : List Nat} (fits : ∀ n ∈ ns, n < 0x100000000) :
    (words ns : Except (Stop ε) Unit) = .ok () := if_pos fits

section Integers

variable {token body : List Char} {v : Int} {n : Nat}

theorem fits64_int? (read : Literal.int? token = some v) : Fits64 v ∧ Fits64 (-v) := by
  have below : v.natAbs < 0x8000000000000000 := Literal.natAbs_lt_of_int? read
  omega

theorem int?_of_ofToken (read : Operand.ofToken token = .ok (.int v)) :
    Literal.int? token = some v := by
  unfold Operand.ofToken at read
  split at read
  · split at read
    · cases read
    · split at read <;> cases read
  · split at read
    · split at read
      · cases read
      · split at read
        · cases read
        · split at read <;> cases read
    · split at read
      · next found =>
        cases read
        exact found
      · split at read <;> cases read

theorem fits64_operands {args : List String} {ops : List Operand} (read : operands args = .ok ops)
    (member : .int v ∈ ops) : Fits64 (-v) := by
  induction args generalizing ops with
  | nil =>
    cases read
    exact absurd member List.not_mem_nil
  | cons token args ih =>
    rw [operands, List.mapM_cons] at read
    obtain ⟨op, first, read⟩ := except_bind_ok read
    obtain ⟨others, rest, read⟩ := except_bind_ok read
    cases read
    rcases List.mem_cons.mp member with rfl | later
    · exact (fits64_int? (int?_of_ofToken (except_mapError_ok first))).2
    · exact ih rest later

end Integers

theorem selectSubi_eq (unsigned : Bool) {ops : List Operand}
    (fits : ∀ v, .int v ∈ ops → Fits64 (-v)) :
    selectSubi unsigned ops = refusing (Selection.selectSubi unsigned ops) := by
  unfold selectSubi
  split
  · next rd rs v =>
    have small : Fits64 (-v) := fits v (by simp)
    rw [negated, if_pos small]
    rfl
  · rfl

theorem expand_eq (name : String) (args : List String) (labels : Labels) :
    expand name args labels = refusing (MipsLab.expand name args labels) := by
  rw [expand, MipsLab.expand, refusing_bind]
  refine refusing_bind_congr fun ops read => ?_
  split
  · next none => rw [none]; rfl
  · next unsigned found =>
    rw [found]
    exact selectSubi_eq unsigned fun v member => fits64_operands read member
  · next m _ found => rw [found]

theorem instruction_eq (l : Layout) (name : String) (args : List String) (line : SourceLine) :
    instruction l name args line = refusing (l.instruction name args line) := by
  unfold instruction Layout.instruction
  split
  · rfl
  · rw [refusing_bind]
    refine refusing_bind_congr fun b _ => ?_
    rw [expand_eq, refusing_bind]
    refine refusing_bind_congr fun e expanded => ?_
    have short := length_expand_le expanded
    have size : (BitVec.ofNat 32 (4 * e.instrs.length)).toNat = 4 * e.instrs.length := by
      rw [BitVec.toNat_ofNat]
      omega
    rw [word_of_lt (by omega)]
    change (if b.textPc.toNat + (BitVec.ofNat 32 (4 * e.instrs.length)).toNat ≤ _ then _ else _) = _
    rw [size]
    by_cases room : b.textPc.toNat + 4 * e.instrs.length ≤ MemoryMap.textLimit.toNat
    · simp only [if_pos room]
      rfl
    · simp only [if_neg room]
      rfl

theorem align_eq (l : Layout) (head : String) (args : List String)
    (fits : ∀ (token : String) (n : Nat), l.segment = .data → args = [token] →
      Literal.int? token.toList = some (n : Int) → n ≤ 3 →
      roundedUp l.dataPc (Nat.pow 2 n) < 0x100000000) :
    align l head args = refusing (l.align head args) := by
  unfold align Layout.align
  by_cases elsewhere : l.segment ≠ .data
  · rw [if_pos elsewhere, if_pos elsewhere]
    rfl
  rw [if_neg elsewhere, if_neg elsewhere]
  rcases args with _ | ⟨token, _ | ⟨other, rest⟩⟩
  · rfl
  · dsimp only
    cases read : Literal.int? token.toList with
    | none => rfl
    | some n =>
      dsimp only
      by_cases allowed : 0 ≤ n ∧ n ≤ 3
      · obtain ⟨n, rfl⟩ := Int.eq_ofNat_of_zero_le allowed.1
        have near := fits token n (not_not.mp elsewhere) rfl read (by omega)
        rw [if_pos allowed, if_pos allowed, Int.toNat_natCast, word_of_lt near]
        rfl
      · rw [if_neg allowed, if_neg allowed]
        rfl
  · rfl

section Elements

variable {head : String} {kind : DataKind} {address : Word} {used : Nat} {token : String}
  {e : Element} {args : List String} {made : List (Nat × Element)}

theorem align_pos (kind : DataKind) : 0 < kind.align := by cases kind <;> decide

theorem integerElements_eq (number : kind.IsNumber)
    (below : address.toNat + used < 0x100000000) :
    integerElements head kind address used args =
      refusing (Layout.numberElements head kind address used args) := by
  induction args generalizing used with
  | nil => rfl
  | cons token args ih =>
    have first : (words [address.toNat + used] : Except (Stop AssemblyError) Unit) = .ok () :=
      words_of_lt (by simpa using below)
    rw [integerElements, Layout.numberElements, first, refusing_bind]
    change refusing _ >>= _ = _
    refine refusing_bind_congr fun e found => ?_
    have room := Layout.numberElement_room number found
    have top : MemoryMap.heapBase.toNat = 0x10040000 := rfl
    have copies : ∀ n ∈ (List.range e.count).map fun i => address.toNat + (used + i * kind.align),
        n < 0x100000000 := by
      intro n member
      obtain ⟨i, less, rfl⟩ := List.mem_map.mp member
      have within := Nat.mul_le_mul_right kind.align (List.mem_range.mp less)
      rw [Nat.succ_mul] at within
      have one := align_pos kind
      omega
    rw [words_of_lt copies]
    change integerElements _ _ _ _ _ >>= _ = _
    rw [ih (by omega), refusing_bind]
    rfl

theorem elements_eq (head : String) (kind : DataKind) (address : Word) (args : List String) :
    elements head kind address args = refusing (Layout.elements head kind address args) := by
  cases kind with
  | word | half | byte => exact integerElements_eq (by simp [DataKind.IsNumber]) address.isLt
  | _ => rfl

theorem lt_of_mem_places {bytes : List (Option Byte)} {n : Nat}
    (member : n ∈ places address bytes) : n < address.toNat + bytes.length := by
  obtain ⟨⟨b, i⟩, placed, rfl⟩ := List.mem_map.mp member
  have at_ := List.mem_zipIdx_iff_getElem?.mp (List.mem_filter.mp placed).1
  obtain ⟨bound, -⟩ := List.getElem?_eq_some_iff.mp at_
  dsimp only
  omega

theorem emit_eq (l : Layout) (tag : SourceTag)
    (fits : ∀ b made, l.segment = .data → l.bindLabels = .ok b →
      Layout.elements head kind b.dataPc args = .ok made →
      (Layout.laid made).length < 0x100000000) :
    emit l head kind args tag = refusing (l.emit head kind args tag) := by
  unfold emit Layout.emit
  by_cases elsewhere : l.segment ≠ .data
  · rw [if_pos elsewhere, if_pos elsewhere]
    rfl
  rw [if_neg elsewhere, if_neg elsewhere]
  by_cases empty : args.isEmpty = true
  · rw [if_pos empty, if_pos empty]
    rfl
  rw [if_neg empty, if_neg empty]
  by_cases misaligned : l.dataPc.toNat % kind.align ≠ 0
  · rw [if_pos misaligned, if_pos misaligned]
    rfl
  rw [if_neg misaligned, if_neg misaligned]
  dsimp only
  rw [refusing_bind]
  refine refusing_bind_congr fun b bound => ?_
  rw [elements_eq, refusing_bind]
  refine refusing_bind_congr fun made found => ?_
  have less := fits b made (not_not.mp elsewhere) bound found
  have size : (BitVec.ofNat 32 (Layout.laid made).length).toNat = (Layout.laid made).length := by
    rw [BitVec.toNat_ofNat]
    omega
  rw [word_of_lt less]
  change (if b.dataPc.toNat + (BitVec.ofNat 32 (Layout.laid made).length).toNat ≤ _ then _ else _) =
    refusing (if b.dataPc.toNat + (Layout.laid made).length ≤ _ then _ else _)
  rw [size]
  by_cases room : b.dataPc.toNat + (Layout.laid made).length ≤ MemoryMap.heapBase.toNat
  · have top : MemoryMap.heapBase.toNat = 0x10040000 := rfl
    have inside : ∀ n ∈ places b.dataPc (Layout.laid made), n < 0x100000000 := fun n member =>
      (lt_of_mem_places member).trans_le (by omega)
    rw [if_pos room, if_pos room, words_of_lt inside]
    rfl
  · rw [if_neg room, if_neg room]
    rfl

end Elements

end Checked

end MipsLab
