import MipsLab.Run.Basic

/-! Program arguments. The texts lie below the top of user memory, each with a zero byte behind
it, and below them their addresses with a zero word behind. `$a0` holds their number, `$a1` and
`$sp` the address of the first address. -/
namespace MipsLab

namespace Memory

/-- Stores texts downwards from the top of user memory: the lowest address used, the address of
each text, and the memory. -/
def storeTexts (m : Memory) : List String → Word × List Word × Memory
  | [] => (MemoryMap.userLimit, [], m)
  | text :: rest =>
    let (top, addresses, m) := m.storeTexts rest
    let bytes := Text.utf8Bytes text ++ [0]
    let a := top - BitVec.ofNat 32 bytes.length
    (a, a :: addresses, m.pokeBytes a bytes)

def storeWords (m : Memory) (a : Word) : List Word → Memory
  | [] => m
  | w :: rest => (m.pokeValue a .word w.toNat).storeWords (a + 4) rest

end Memory

namespace Machine

def setArguments (m : Machine) (args : List String) : Machine :=
  let (low, addresses, mem) := m.mem.storeTexts args
  let table := addresses ++ [0]
  let start := (low &&& ~~~3) - BitVec.ofNat 32 (4 * table.length)
  let stored : Machine := { m with mem := mem.storeWords start table }
  ((stored.setReg Register.a0 (BitVec.ofNat 32 args.length)).setReg Register.a1 start).setReg
    Register.sp start

end Machine

/-- Gives the program its arguments; without any, nothing changes. -/
def Run.setArguments (r : Run) (args : List String) : Run :=
  if args.isEmpty then r else { r with machine := r.machine.setArguments args }

end MipsLab
