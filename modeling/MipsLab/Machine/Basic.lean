import MipsLab.Machine.Alu
import MipsLab.Machine.Fpu
import MipsLab.Machine.Memory
import MipsLab.Machine.Registers

/-! The machine: a register file and a memory, and the work that instructions do on it in place. -/
namespace MipsLab

structure Machine where
  regs : Registers
  mem : Memory
  deriving DecidableEq

inductive Control where
  | next
  | jump (address : Word)
  /-- A service waits for input; the instruction has not been executed. -/
  | await
  | exit (code : Word)
  deriving DecidableEq, Inhabited

/-- Work on a state in place. A fault leaves the state as it is when the fault is raised: what was
written before stays written. -/
abbrev Exec := EStateM Fault

namespace Exec

variable {σ α : Type}

def require : Except Fault α → Exec σ α
  | .ok a => pure a
  | .error f => throw f

def update (change : σ → Except Fault σ) : Exec σ Unit := do
  let s ← get
  let next ← require (change s)
  set next

def onlyIf (condition : Prop) [Decidable condition] (work : Exec σ Unit) : Exec σ Unit :=
  if condition then work else pure ()

end Exec

namespace Machine

def setReg (m : Machine) (r : Reg) (value : Word) : Machine :=
  { m with regs := m.regs.write r value }

def setFloat (m : Machine) (r : FReg) (value : Word) : Machine :=
  { m with regs := m.regs.writeFloat r value }

def setDouble (m : Machine) (r : FReg) (value : BitVec 64) : Except Fault Machine :=
  (m.regs.writeDouble r value).map fun regs => { m with regs }

def hiLo (m : Machine) : Alu.HiLo := ⟨m.regs.hi, m.regs.lo⟩

def setHiLo (m : Machine) (value : Alu.HiLo) : Machine :=
  { m with regs := { m.regs with hi := value.hi, lo := value.lo } }

def setFlag (m : Machine) (f : Flag) (value : Bool) : Machine :=
  { m with regs := m.regs.setFlag f value }

def setPc (m : Machine) (pc : Word) : Machine := { m with regs := { m.regs with pc } }

def store (m : Machine) (a : Word) (w : Width) (value : Nat) : Except Fault Machine :=
  (m.mem.write a w value).map fun mem => { m with mem }

def storeBytes (m : Machine) (a : Word) (bytes : List Byte) : Except Fault Machine :=
  (m.mem.writeBytes a bytes).map fun mem => { m with mem }

end Machine

end MipsLab
