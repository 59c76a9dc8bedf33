import MipsLab.Assembly.MemoryMap
import MipsLab.Machine.Fault

/-! The register file. Registers that do not exist, and integer register zero, read as zero and
ignore writes. -/
namespace MipsLab

structure Registers where
  gpr : Vector Word 32
  fpr : Vector Word 32
  flags : Vector Bool 8
  pc : Word
  hi : Word
  lo : Word
  deriving DecidableEq

namespace Registers

def read (r : Registers) (i : Nat) : Word := if i = 0 then 0 else r.gpr[i]?.getD 0

def write (r : Registers) (i : Nat) (value : Word) : Registers :=
  if i = 0 then r else { r with gpr := r.gpr.setIfInBounds i value }

def readFloat (r : Registers) (i : Nat) : Word := r.fpr[i]?.getD 0

def writeFloat (r : Registers) (i : Nat) (value : Word) : Registers :=
  { r with fpr := r.fpr.setIfInBounds i value }

/-- A double is held in an even register, with its low word, and the next one. -/
def checkPair (i : Nat) : Except Fault Unit :=
  if i % 2 = 0 ∧ i < 32 then .ok () else .error (.invalidRegister (Register.floatText i))

def readDouble (r : Registers) (i : Nat) : Except Fault (BitVec 64) := do
  checkPair i
  return r.readFloat (i + 1) ++ r.readFloat i

def writePair (r : Registers) (i : Nat) (low high : Word) : Registers :=
  (r.writeFloat i low).writeFloat (i + 1) high

def writeDouble (r : Registers) (i : Nat) (value : BitVec 64) : Except Fault Registers := do
  checkPair i
  return r.writePair i (value.setWidth 32) (value.extractLsb' 32 32)

def flag (r : Registers) (i : Nat) : Bool := r.flags[i]?.getD false

def setFlag (r : Registers) (i : Nat) (value : Bool) : Registers :=
  { r with flags := r.flags.setIfInBounds i value }

/-- The filler that register number `i` starts with; it is never zero. -/
def filler (i : Nat) : Word :=
  ((BitVec.ofNat 32 (i + 1) * 0x9E3779B9).rotateLeft 7 ^^^ 0xDEADBEEF) ||| 1

/-- The reset state. With `garbage`, registers hold filler instead of zero, except the zero
register, the stack pointer and the global pointer. -/
def reset (entry : Word) (garbage : Bool) : Registers :=
  let fill (i : Nat) : Word := if garbage then filler i else 0
  let bare : Registers :=
    { gpr := Vector.ofFn fun i => if i = Register.zero then 0 else fill i
      fpr := Vector.ofFn fun i => fill (i + 32)
      flags := Vector.replicate 8 false
      pc := entry, hi := fill 64, lo := fill 65 }
  (bare.write Register.sp MemoryMap.stackTop).write Register.gp MemoryMap.globalPointer

def dump (r : Registers) : String :=
  let shown (i : Nat) :=
    "$" ++ String.ofList (Text.padRight ' ' 4 ((Register.names[i]?.getD "").toList)) ++ " = " ++
      hexWord (r.read i)
  String.join ((List.range 16).map fun i => shown (2 * i) ++ "  " ++ shown (2 * i + 1) ++ "\n")

end Registers

end MipsLab
