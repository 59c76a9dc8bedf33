import MipsLab.Assembly.Program
import MipsLab.Source.Error

/-! The first pass of the assembler: every line gets its place. Labels wait until the next unit of
their segment is placed, instructions are measured with unplaced labels, and data is laid out with
zeros where the address of a label is wanted. -/
namespace MipsLab

open Std (ExtTreeMap)

structure PlacedLine where
  address : Word
  name : String
  args : List String
  tag : SourceTag
  source : String
  deriving DecidableEq

/-- A word of data that wants the address of a label. -/
structure Fixup where
  address : Word
  name : String
  offset : Int
  tag : SourceTag
  deriving DecidableEq

/-- How far the first pass has come. Lists hold the last item first. -/
structure Layout where
  segment : Segment
  textPc : Word
  dataPc : Word
  symbols : SymbolTable
  /-- Labels that wait for a place, in order. -/
  waiting : List String
  placed : List PlacedLine
  declarations : List Declaration
  data : ExtTreeMap Word Byte
  fixups : List Fixup
  warnings : List Warning

/-- The bytes of one element of a data declaration, and the label whose address belongs there. -/
structure Element where
  value : DataValue
  bytes : List (Option Byte)
  label : Option (String × Int)
  truncated : Option Int
  count : Nat

namespace Layout

def start : Layout :=
  { segment := .text, textPc := MemoryMap.textBase, dataPc := MemoryMap.dataBase, symbols := ∅,
    waiting := [], placed := [], declarations := [], data := ∅, fixups := [], warnings := [] }

def pc (l : Layout) : Word :=
  match l.segment with
  | .text => l.textPc
  | .data => l.dataPc

def bindLabels (l : Layout) : Except AssemblyError Layout := do
  let symbols ← l.waiting.foldlM (fun symbols name =>
    match SymbolTable.define? symbols name l.pc with
    | some bound => .ok bound
    | none => .error (.duplicateLabel name)) l.symbols
  return { l with symbols, waiting := [] }

def enter (l : Layout) (head : String) (segment : Segment) (args : List String) :
    Except AssemblyError Layout := do
  let l ← l.bindLabels
  match args with
  | [] => return { l with segment }
  | [address] =>
    match Literal.int? address.toList with
    | none => .error (.malformedImmediate address)
    | some v =>
      if 0 ≤ v ∧ v < 0x100000000 then
        match segment with
        | .text => return { l with segment, textPc := Selection.word v }
        | .data => return { l with segment, dataPc := Selection.word v }
      else .error (.malformedImmediate address)
  | _ => .error (.wrongOperands head "an optional address")

def instruction (l : Layout) (name : String) (args : List String) (line : SourceLine) :
    Except AssemblyError Layout := do
  if l.segment ≠ .text then .error (.wrongSegment name l.segment)
  else
    let l ← l.bindLabels
    let e ← expand name args unplaced
    let size := 4 * e.instrs.length
    if l.textPc.toNat + size ≤ MemoryMap.textLimit.toNat then
      let source := String.ofList (statementText line.text)
      return { l with
        textPc := l.textPc + BitVec.ofNat 32 size
        placed := ⟨l.textPc, name, args, line.tag, source⟩ :: l.placed }
    else .error (.segmentOverflow .text)

def alignUp (address : Word) (unit : Nat) : Word :=
  BitVec.ofNat 32 ((address.toNat + (unit - 1)) / unit * unit)

def align (l : Layout) (head : String) (args : List String) : Except AssemblyError Layout :=
  if l.segment ≠ .data then .error (.wrongSegment head l.segment)
  else
    match args with
    | [token] =>
      match Literal.int? token.toList with
      | none => .error (.malformedImmediate token)
      | some n =>
        if 0 ≤ n ∧ n ≤ 3 then
          { l with dataPc := alignUp l.dataPc (Nat.pow 2 n.toNat) }.bindLabels
        else .error (.invalidAlignment n)
    | _ => .error (.wrongOperands head "an exponent in 0..=3")

/-- Splits `value:count`; without a count the value stands once. -/
def repetition (token : List Char) : Except AssemblyError (List Char × Nat) :=
  match Text.cutLast (· = ':') token with
  | some (value, _, digits) =>
    if !digits.isEmpty && digits.all Char.isDigit then
      match Literal.int? digits with
      | some n => .ok (value, n.toNat)
      | none => .error (.malformedImmediate (String.ofList digits))
    else .ok (token, 1)
  | none => .ok (token, 1)

/-- The element that an integer makes in a declaration, and the error if it is too large. -/
def integerElement (head : String) (kind : DataKind) (v : Int) (count : Nat) :
    Except AssemblyError Element :=
  let bytes := (littleEndian kind.align (Selection.word v).toNat).map some
  let fits := match kind with
    | .word => true
    | .half => decide (-0x8000 ≤ v ∧ v < 0x10000)
    | _ => decide (-0x80 ≤ v ∧ v < 0x100)
  if kind = .word ∧ 0 < count ∧ ¬ Selection.fitsWord v then .error (.immediateOutOfRange head v)
  else .ok ⟨.int v, bytes, none, if fits then none else some v, count⟩

def labelElement? (kind : DataKind) (token : List Char) (count : Nat) : Option Element :=
  match kind, Operand.ofToken token with
  | .word, .ok (.label name offset) =>
    some ⟨.label name offset, List.replicate 4 (some 0), some (name, offset), none, count⟩
  | _, _ => none

/-- The element that an operand of an integer or float declaration makes. `used` bytes of the
declaration are laid out in front of it. -/
def numberElement (head : String) (kind : DataKind) (address : Word) (used : Nat)
    (token : String) : Except AssemblyError Element := do
  let (text, count) ← repetition token.toList
  let reserve (make : Except AssemblyError Element) : Except AssemblyError Element :=
    if used + count * kind.align ≤ MemoryMap.heapBase.toNat - address.toNat then make
    else .error (.segmentOverflow .data)
  let malformed := AssemblyError.malformedImmediate (String.ofList text)
  match kind with
  | .float | .double =>
    match Literal.float? text with
    | none => .error malformed
    | some bits =>
      let stored := if kind = .float
        then Ieee.convert Ieee.double Ieee.single bits.toNat else bits.toNat
      reserve (.ok ⟨.float bits, (littleEndian kind.align stored).map some, none, none, count⟩)
  | _ =>
    match Literal.int? text with
    | some v => reserve (integerElement head kind v count)
    | none =>
      match labelElement? kind text count with
      | some element => reserve (.ok element)
      | none => .error malformed

def textElement (kind : DataKind) (token : String) : Except AssemblyError Element :=
  match Literal.string? token.toList with
  | none => .error .malformedString
  | some s =>
    let ending : List (Option Byte) := if kind = .asciiz then [some 0] else []
    .ok ⟨.text s, s.toList.map (fun c => some (Text.charByte c)) ++ ending, none, none, 1⟩

/-- The bytes that a `.space` declaration leaves unwritten. -/
def spaceElement (head : String) (address : Word) (args : List String) :
    Except AssemblyError Element :=
  match args with
  | [token] =>
    match Literal.int? token.toList with
    | none => .error (.malformedImmediate token)
    | some n =>
      if n < 0 then .error (.immediateOutOfRange head n)
      else if n.toNat ≤ MemoryMap.heapBase.toNat - address.toNat then
        .ok ⟨.int n, List.replicate n.toNat none, none, none, 1⟩
      else .error (.segmentOverflow .data)
  | _ => .error (.wrongOperands head "a byte count")

/-- The elements of a number list, each with the offset of its first byte. -/
def numberElements (head : String) (kind : DataKind) (address : Word) :
    (used : Nat) → List String → Except AssemblyError (List (Nat × Element))
  | _, [] => .ok []
  | used, token :: rest => do
    let element ← numberElement head kind address used token
    let others ← numberElements head kind address (used + element.count * kind.align) rest
    return (used, element) :: others

def elements (head : String) (kind : DataKind) (address : Word) (args : List String) :
    Except AssemblyError (List (Nat × Element)) :=
  match kind with
  | .word | .half | .byte | .float | .double => numberElements head kind address 0 args
  | .ascii | .asciiz => do
    let made ← args.mapM (textElement kind)
    return made.map (0, ·)
  | .space => do
    let element ← spaceElement head address args
    return [(0, element)]

def writeKnown (data : ExtTreeMap Word Byte) (address : Word) :
    List (Option Byte) → ExtTreeMap Word Byte
  | [] => data
  | some b :: rest => writeKnown (data.insert address b) (address + 1) rest
  | none :: rest => writeKnown data (address + 1) rest

def elementFixups (address : Word) (tag : SourceTag) (placed : Nat × Element) : List Fixup :=
  let (used, element) := placed
  match element.label with
  | some (name, offset) =>
    (List.range element.count).map fun i =>
      ⟨address + BitVec.ofNat 32 (used + 4 * i), name, offset, tag⟩
  | none => []

def elementWarnings (head : String) (tag : SourceTag) (placed : Nat × Element) : List Warning :=
  match placed.2.truncated with
  | some v => List.replicate placed.2.count (.truncated tag head v)
  | none => []

def emit (l : Layout) (head : String) (kind : DataKind) (args : List String) (tag : SourceTag) :
    Except AssemblyError Layout := do
  if l.segment ≠ .data then .error (.wrongSegment head l.segment)
  else if args.isEmpty then .error (.wrongOperands head "at least one value")
  else if l.dataPc.toNat % kind.align ≠ 0 then
    .error (.misaligned head l.dataPc kind.align)
  else
    let label := l.waiting.getLast?
    let l ← l.bindLabels
    let address := l.dataPc
    let made ← elements head kind address args
    let bytes := made.flatMap fun (_, e) => (List.replicate e.count e.bytes).flatten
    if address.toNat + bytes.length ≤ MemoryMap.heapBase.toNat then
      let declaration : Declaration :=
        ⟨label, kind, made.map (·.2.value), address, bytes.length, tag⟩
      return { l with
        dataPc := address + BitVec.ofNat 32 bytes.length
        data := writeKnown l.data address bytes
        declarations := declaration :: l.declarations
        fixups := (made.flatMap (elementFixups address tag)).reverse ++ l.fixups
        warnings := (made.flatMap (elementWarnings head tag)).reverse ++ l.warnings }
    else .error (.segmentOverflow .data)

def statement (l : Layout) (s : Statement) (line : SourceLine) : Except AssemblyError Layout :=
  let l := { l with waiting := l.waiting ++ s.labels }
  match s.head with
  | none => .ok l
  | some head =>
    if head.toList.head? = some '.' then
      match Directive.ofName? head with
      | none => .error (.unknownDirective head)
      | some (.enter segment) => l.enter head segment s.args
      | some .align => l.align head s.args
      | some (.emit kind) => l.emit head kind s.args line.tag
      | some .eqv | some .includeFile | some .globl => .ok l
    else l.instruction head s.args line

def line (l : Layout) (line : SourceLine) : Except LocatedError Layout :=
  if (Text.trim line.text).isEmpty then .ok l
  else
    let placed := do
      let s ← (lex line.text).mapError AssemblyError.ofLex
      l.statement s line
    placed.mapError (⟨line.tag, ·⟩)

/-- Places all lines; labels at the very end get the address where the last unit ends. -/
def ofLines (lines : List SourceLine) : Except LocatedError Layout := do
  let l ← lines.foldlM Layout.line start
  let tag := (lines.getLast?.map SourceLine.tag).getD ⟨"", 0⟩
  (l.bindLabels).mapError (⟨tag, ·⟩)

end Layout

end MipsLab
