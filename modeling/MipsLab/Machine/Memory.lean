import Std.Data.ExtTreeMap
import MipsLab.Assembly.MemoryMap
import MipsLab.Machine.Fault

/-! Byte-addressed memory. A byte that was never written reads as zero, or as filler when garbage
is asked for. Checked accesses must be aligned and stay in the data range or the terminal;
unchecked ones serve the loader and the undoing of stores. -/
namespace MipsLab

open Std (ExtTreeMap)

inductive Width where
  | byte | half | word | double
  deriving DecidableEq, Inhabited

def Width.bytes : Width → Nat
  | .byte => 1
  | .half => 2
  | .word => 4
  | .double => 8

structure Memory where
  bytes : ExtTreeMap Word Byte
  garbage : Bool
  heapTop : Word
  deriving DecidableEq

/-- A byte as it was found: what it read as, and whether it had been written. -/
structure Cell where
  address : Word
  value : Byte
  written : Bool
  deriving DecidableEq

namespace Memory

def maxString : Nat := 65536

/-- The length of a buffer whose size is given in a register: at most `maxString`, and nothing for
a negative size. -/
def bufferLength (size : Word) : Nat := min size.toInt.toNat maxString

/-- The filler at an address; it is never zero. -/
def filler (address : Word) : Byte :=
  let mixed := (address * 0x9E3779B1).rotateLeft 13 ^^^ 0xA5A5A5A5
  let byte : Byte := mixed.extractLsb' 24 8
  if byte = 0 then 0xA5 else byte

def empty (garbage : Bool) : Memory := ⟨∅, garbage, MemoryMap.heapBase⟩

def load (data : ExtTreeMap Word Byte) (garbage : Bool) : Memory :=
  ⟨data, garbage, MemoryMap.heapBase⟩

def peek (m : Memory) (a : Word) : Byte :=
  (m.bytes[a]?).getD (if m.garbage then filler a else 0)

def isWritten (m : Memory) (a : Word) : Bool := m.bytes.contains a

/-- The `n` bytes from `a` on; addresses wrap. -/
def peekBytes (m : Memory) (a : Word) (n : Nat) : List Byte :=
  (List.range n).map fun i => m.peek (a + BitVec.ofNat 32 i)

def peekValue (m : Memory) (a : Word) (w : Width) : Nat := ofLittleEndian (m.peekBytes a w.bytes)

def poke (m : Memory) (a : Word) (b : Byte) : Memory := { m with bytes := m.bytes.insert a b }

def forget (m : Memory) (a : Word) : Memory := { m with bytes := m.bytes.erase a }

def pokeBytes (m : Memory) (a : Word) : List Byte → Memory
  | [] => m
  | b :: rest => (m.poke a b).pokeBytes (a + 1) rest

def pokeValue (m : Memory) (a : Word) (w : Width) (value : Nat) : Memory :=
  m.pokeBytes a (littleEndian w.bytes value)

def accessible (a : Word) : Bool :=
  (MemoryMap.dataSegmentBase ≤ a && a ≤ MemoryMap.userLimit) ||
    (MemoryMap.terminalBase ≤ a &&
      (a - MemoryMap.terminalBase).toNat < MemoryMap.terminalBytes)

/-- Alignment is checked before the range, and the range at both ends. -/
def check (a : Word) (width : Nat) : Except Fault Unit :=
  if a.toNat % width ≠ 0 then .error (.misalignedAccess a width)
  else if a.toNat + (width - 1) < 0x100000000 ∧ accessible a ∧
      accessible (a + BitVec.ofNat 32 (width - 1)) then .ok ()
  else .error (.addressOutOfRange a)

def read (m : Memory) (a : Word) (w : Width) : Except Fault Nat := do
  check a w.bytes
  return m.peekValue a w

def write (m : Memory) (a : Word) (w : Width) (value : Nat) : Except Fault Memory := do
  check a w.bytes
  return m.pokeValue a w value

def readWord (m : Memory) (a : Word) : Except Fault Word :=
  (m.read a .word).map (BitVec.ofNat 32)

def readHalf (m : Memory) (a : Word) : Except Fault (BitVec 16) :=
  (m.read a .half).map (BitVec.ofNat 16)

def readByte (m : Memory) (a : Word) : Except Fault Byte :=
  (m.read a .byte).map (BitVec.ofNat 8)

def readDouble (m : Memory) (a : Word) : Except Fault (BitVec 64) :=
  (m.read a .double).map (BitVec.ofNat 64)

/-- Reads bytes from `a` on, behind those that were read before them, which come last first. -/
def readBytesFrom (m : Memory) (before : List Byte) : (n : Nat) → Word → Except Fault (List Byte)
  | 0, _ => .ok before.reverse
  | n + 1, a => do
    let b ← m.readByte a
    m.readBytesFrom (b :: before) n (a + 1)

/-- The `n` bytes from `a` on, or the fault of the first one that is out of range. -/
def readBytes (m : Memory) (a : Word) (n : Nat) : Except Fault (List Byte) :=
  m.readBytesFrom [] n a

/-- Writes all bytes, or none if one of them is out of range. -/
def writeBytes (m : Memory) (a : Word) (bytes : List Byte) : Except Fault Memory := do
  (List.range bytes.length).forM fun i => check (a + BitVec.ofNat 32 i) 1
  return m.pokeBytes a bytes

/-- The bytes from `a` to the first zero, at most `limit` of them. -/
def readStringTo (m : Memory) : (limit : Nat) → Word → Except Fault (List Byte)
  | 0, _ => .ok []
  | limit + 1, a => do
    let b ← m.readByte a
    if b = 0 then return []
    else
      let rest ← m.readStringTo limit (a + 1)
      return b :: rest

def readString (m : Memory) (a : Word) : Except Fault (List Byte) := m.readStringTo maxString a

/-- Extends the heap by `amount` bytes, rounded up to words, and returns the old end. -/
def extendHeap (m : Memory) (amount : Word) : Except Fault (Word × Memory) :=
  if amount.slt 0 then .error (.invalidInput ("sbrk amount " ++ toString amount.toInt))
  else
    let next := m.heapTop.toNat + (amount.toNat + 3) / 4 * 4
    if next ≤ MemoryMap.stackTop.toNat then
      .ok (m.heapTop, { m with heapTop := BitVec.ofNat 32 next })
    else .error (.addressOutOfRange m.heapTop)

def snapshot (m : Memory) (a : Word) (n : Nat) : List Cell :=
  (List.range n).map fun i =>
    let at_ := a + BitVec.ofNat 32 i
    ⟨at_, m.peek at_, m.isWritten at_⟩

def restoreCell (m : Memory) (c : Cell) : Memory :=
  if c.written then m.poke c.address c.value else m.forget c.address

def restore (m : Memory) (cells : List Cell) : Memory := cells.foldl restoreCell m

/-- The text stored at a label, one character for each byte; nothing for an unknown label. -/
def labelText (m : Memory) (labels : String → Option Word) (label : String) :
    Except Fault (Option String) :=
  match labels label with
  | none => .ok none
  | some a => (m.readString a).map fun bytes => some (Text.byteText bytes)

end Memory

end MipsLab
