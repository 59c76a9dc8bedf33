import MipsLab.Machine.Execute

/-! Change records. Before an instruction is executed, a record is taken of everything that it may
overwrite; putting that back and returning to the instruction undoes it. -/
namespace MipsLab

/-- The state that an instruction may overwrite, as it was before. -/
inductive Prior where
  | register (r : Reg) (value : Word)
  | float (r : FReg) (value : Word)
  | double (r : FReg) (low high : Word)
  | memory (cells : List Cell)
  | flag (f : Flag) (value : Bool)
  | hiLo (value : Alu.HiLo)
  | control
  /-- A system call may write `$v0`, the first two float registers, a buffer and the heap. -/
  | syscall (v0 f0 f1 : Word) (cells : List Cell) (heapTop : Word)
  deriving DecidableEq

structure Change where
  pc : Word
  prior : Prior
  deriving DecidableEq

def MemOp.width : MemOp → Width
  | .sb | .lb | .lbu => .byte
  | .sh | .lh | .lhu => .half
  | .ldc1 | .sdc1 => .double
  | .lw | .sw | .lwc1 | .swc1 => .word

namespace Prior

def ofReg (m : Machine) (r : Reg) : Prior := register r (m.regs.read r)

def ofFloat (m : Machine) (r : FReg) : Prior := float r (m.regs.readFloat r)

def ofDouble (m : Machine) (r : FReg) : Except Fault Prior := do
  Registers.checkPair r
  return double r (m.regs.readFloat r) (m.regs.readFloat (r + 1))

def ofPrecision (m : Machine) (fmt : Precision) (r : FReg) : Except Fault Prior :=
  match fmt with
  | .single => .ok (ofFloat m r)
  | .double => ofDouble m r

/-- The buffer that the coming system call may write. -/
def buffer (m : Machine) : List Cell :=
  let size (r : Reg) : Nat := Memory.bufferLength (m.regs.read r)
  let v0 := m.regs.read Register.v0
  if v0 = 8 then m.mem.snapshot (m.regs.read Register.a0) (size Register.a1)
  else if v0 = 14 then m.mem.snapshot (m.regs.read Register.a1) (size Register.a2)
  else []

def ofSyscall (m : Machine) : Prior :=
  syscall (m.regs.read Register.v0) (m.regs.readFloat 0) (m.regs.readFloat 1) (buffer m)
    m.mem.heapTop

/-- What an instruction may overwrite. A double in an odd register cannot be recorded; the
instruction would fail in the same way. -/
def of (m : Machine) : Instruction → Except Fault Prior
  | .reg _ rd _ _ | .count _ rd _ | .moveOnFlag _ rd _ _ => .ok (ofReg m rd)
  | .imm _ rt _ _ | .lui rt _ => .ok (ofReg m rt)
  | .hiLo .. | .hiLoMove .mthi _ | .hiLoMove .mtlo _ => .ok (hiLo m.hiLo)
  | .hiLoMove .mfhi r | .hiLoMove .mflo r => .ok (ofReg m r)
  | .jump true _ => .ok (ofReg m Register.ra)
  | .jumpReg (some r) _ => .ok (ofReg m r)
  | .branch op .. => .ok (if op.links then ofReg m Register.ra else control)
  | .jump false _ | .jumpReg none _ | .branchFlag .. | .nop | .breakpoint _ => .ok control
  | .floatArith _ fmt fd _ _ | .floatUnary _ fmt fd _ | .floatMoveIf _ fmt fd _ _
  | .floatMoveOnFlag _ fmt fd _ _ => ofPrecision m fmt fd
  | .floatToWord _ _ fd _ => .ok (ofFloat m fd)
  | .convert .double _ fd _ => ofDouble m fd
  | .convert .single _ fd _ | .convert .word _ fd _ => .ok (ofFloat m fd)
  | .compare _ _ f _ _ => .ok (flag f (m.regs.flag f))
  | .moveWord true _ fs => .ok (ofFloat m fs)
  | .moveWord false rt _ => .ok (ofReg m rt)
  | .mem op data base offset =>
    if op.isStore then
      .ok (memory (m.mem.snapshot (m.effectiveAddress base offset) op.width.bytes))
    else
      match op with
      | .lwc1 => .ok (ofFloat m data)
      | .ldc1 => ofDouble m data
      | _ => .ok (ofReg m data)
  | .syscall => .ok (ofSyscall m)

def restore (m : Machine) : Prior → Machine
  | register r value => m.setReg r value
  | float r value => m.setFloat r value
  | double r low high => { m with regs := m.regs.writePair r low high }
  | memory cells => { m with mem := m.mem.restore cells }
  | flag f value => m.setFlag f value
  | hiLo value => m.setHiLo value
  | control => m
  | syscall v0 f0 f1 cells heapTop =>
    let regs := ((m.regs.write Register.v0 v0).writeFloat 0 f0).writeFloat 1 f1
    { regs, mem := { m.mem.restore cells with heapTop } }

end Prior

namespace Change

def capture (m : Machine) (pc : Word) (i : Instruction) : Except Fault Change :=
  (Prior.of m i).map (⟨pc, ·⟩)

def revert (c : Change) (m : Machine) : Machine := (c.prior.restore m).setPc c.pc

end Change

end MipsLab
