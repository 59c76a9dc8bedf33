import MipsLab.Machine.Execute
import MipsLab.Proofs.Exec.Contract

/-! Execution with guarded registers. Registers and flags are read and written by number, and the
plain machine reads zero where there is none with such a number and writes nothing there. Guarded
work stops at such an access instead. No instruction gets that far: the guarded machine does what
the plain one does. -/
namespace MipsLab

/-- Why guarded work has no result: a fault of the program, or an access to a register or flag that
does not exist. -/
inductive Halt where
  | fault (f : Fault)
  | missing (number : Nat)

abbrev Guarded := EStateM Halt

namespace Guarded

open Exec (require update)

variable {α β : Type} {m : Machine}

/-- Plain work among guarded work. -/
def plain (work : Exec Machine α) : Guarded Machine α := fun m =>
  match work m with
  | .ok a t => .ok a t
  | .error f t => .error (.fault f) t

/-- Goes on if there are more than `number` registers or flags. -/
def guard (number size : Nat) : Guarded Machine Unit :=
  if number < size then pure () else throw (.missing number)

def read (i : Nat) : Guarded Machine Word := do
  guard i 32
  return (← get).regs.read i

def write (i : Nat) (value : Word) : Guarded Machine Unit := do
  guard i 32
  modify fun m => { m with regs := m.regs.write i value }

def readFloat (i : Nat) : Guarded Machine Word := do
  guard i 32
  return (← get).regs.readFloat i

def writeFloat (i : Nat) (value : Word) : Guarded Machine Unit := do
  guard i 32
  modify fun m => { m with regs := m.regs.writeFloat i value }

/-- A pair is checked before its registers are accessed. -/
def readDouble (i : Nat) : Guarded Machine (BitVec 64) := do
  plain (require (Registers.checkPair i))
  let low ← readFloat i
  let high ← readFloat (i + 1)
  return high ++ low

def writeDouble (i : Nat) (value : BitVec 64) : Guarded Machine Unit := do
  plain (require (Registers.checkPair i))
  writeFloat i (value.setWidth 32)
  writeFloat (i + 1) (value.extractLsb' 32 32)

def flag (i : Nat) : Guarded Machine Bool := do
  guard i 8
  return (← get).regs.flag i

def setFlag (i : Nat) (value : Bool) : Guarded Machine Unit := do
  guard i 8
  modify fun m => { m with regs := m.regs.setFlag i value }

/-- What plain work becomes in the state that it starts in. -/
def Follows (guarded : Guarded Machine α) (work : Exec Machine α) (m : Machine) : Prop :=
  guarded m = plain work m

section Rules

theorem follows_plain (work : Exec Machine α) : Follows (plain work) work m := rfl

theorem follows_pure (a : α) : Follows (pure a) (pure a) m := rfl

theorem follows_get {guarded : Guarded Machine α} {next : Machine → Exec Machine α}
    (follows : Follows guarded (next m) m) : Follows guarded (get >>= next) m := follows

theorem follows_fetch {next : Machine → Guarded Machine α} {work : Exec Machine α}
    (follows : Follows (next m) work m) : Follows (get >>= next) work m := follows

theorem follows_modify (change : Machine → Machine) :
    Follows (modify change) (modify change) m := rfl

/-- What is changed may depend on the state: only the change of this state counts. -/
theorem follows_change {guarded : Guarded Machine Unit} {change other : Machine → Machine}
    (follows : Follows guarded (modify change) m) (same : change m = other m) :
    Follows guarded (modify other) m := by
  have changed : plain (modify change) m = plain (modify other) m :=
    congrArg (EStateM.Result.ok ()) same
  exact Eq.trans follows changed

theorem follows_bind {first : Guarded Machine β} {work : Exec Machine β}
    {next : β → Guarded Machine α} {later : β → Exec Machine α} (follows : Follows first work m)
    (rest : ∀ b t, Follows (next b) (later b) t) : Follows (first >>= next) (work >>= later) m := by
  unfold Follows plain at follows ⊢
  simp only [bind, EStateM.bind, follows]
  cases work m with
  | ok b t => exact rest b t
  | error f t => rfl

/-- A check leaves the state as it is. -/
theorem follows_require {first : Guarded Machine β} {x : Except Fault β}
    {next : β → Guarded Machine α} {later : β → Exec Machine α}
    (follows : Follows first (require x) m) (rest : ∀ b, Follows (next b) (later b) m) :
    Follows (first >>= next) (require x >>= later) m := by
  unfold Follows at follows ⊢
  simp only [bind, EStateM.bind, follows]
  cases x with
  | error f => rfl
  | ok b => exact rest b

theorem follows_require_bind {first : Guarded Machine β} {x : Except Fault β}
    {next : β → Guarded Machine α} {later : β → Except Fault α}
    (follows : Follows first (require x) m) (rest : ∀ b, Follows (next b) (require (later b)) m) :
    Follows (first >>= next) (require (x >>= later)) m := by
  unfold Follows at follows ⊢
  simp only [bind, EStateM.bind, follows]
  cases x with
  | error f => rfl
  | ok b => exact rest b

theorem guard_bind {number size : Nat} (below : number < size) (next : Guarded Machine α) :
    (do guard number size; next) = next := by
  rw [guard, if_pos below]
  rfl

theorem follows_read (r : Reg) {next : Word → Guarded Machine α} {work : Exec Machine α}
    (follows : Follows (next (m.regs.read r)) work m) : Follows (read r >>= next) work m := by
  rw [read, guard_bind r.isLt]
  exact follows

theorem follows_readFloat (r : FReg) {next : Word → Guarded Machine α} {work : Exec Machine α}
    (follows : Follows (next (m.regs.readFloat r)) work m) :
    Follows (readFloat r >>= next) work m := by
  rw [readFloat, guard_bind r.isLt]
  exact follows

theorem follows_flag (f : Flag) {next : Bool → Guarded Machine α} {work : Exec Machine α}
    (follows : Follows (next (m.regs.flag f)) work m) : Follows (flag f >>= next) work m := by
  rw [flag, guard_bind f.isLt]
  exact follows

theorem follows_write (r : Reg) (value : Word) :
    Follows (write r value) (modify (·.setReg r value)) m := by
  rw [write, guard_bind r.isLt]
  rfl

theorem follows_writeFloat (r : FReg) (value : Word) :
    Follows (writeFloat r value) (modify (·.setFloat r value)) m := by
  rw [writeFloat, guard_bind r.isLt]
  rfl

theorem follows_setFlag (f : Flag) (value : Bool) :
    Follows (setFlag f value) (modify (·.setFlag f value)) m := by
  rw [setFlag, guard_bind f.isLt]
  rfl

/-- An even register has a neighbour, so that behind the check both exist. -/
theorem checkPair_cases (i : Nat) :
    (Registers.checkPair i = .ok () ∧ i < 32 ∧ i + 1 < 32) ∨
      Registers.checkPair i = .error (.invalidRegister (Register.floatText i)) := by
  by_cases paired : i % 2 = 0 ∧ i < 32
  · exact .inl ⟨if_pos paired, paired.2, by omega⟩
  · exact .inr (if_neg paired)

theorem follows_readDouble (i : Nat) :
    Follows (readDouble i) (require (m.regs.readDouble i)) m := by
  obtain ⟨checked, low, high⟩ | refused := checkPair_cases i
  · rw [readDouble, Registers.readDouble, checked, readFloat, guard_bind low, readFloat,
      guard_bind high]
    rfl
  · rw [readDouble, Registers.readDouble, refused]
    rfl

theorem follows_writeDouble (r : FReg) (value : BitVec 64) :
    Follows (writeDouble r value) (Exec.update (·.setDouble r value)) m := by
  obtain ⟨checked, low, high⟩ | refused := checkPair_cases r
  · rw [writeDouble, checked, writeFloat, guard_bind low, writeFloat, guard_bind high]
    simp only [Follows, plain, Exec.update, Exec.get_bind, Machine.setDouble,
      Registers.writeDouble, checked]
    rfl
  · rw [writeDouble, refused]
    simp only [Follows, plain, Exec.update, Exec.get_bind, Machine.setDouble,
      Registers.writeDouble, refused]
    rfl

end Rules

def onlyIf (condition : Prop) [Decidable condition] (work : Guarded Machine Unit) :
    Guarded Machine Unit :=
  if condition then work else pure ()

def executeReg (op : RegOp) (rd rs rt : Nat) : Guarded Machine Unit := do
  let a ← read rs
  let b ← read rt
  let value ← plain (require (Alu.reg op a b))
  let written : Bool := match op with
    | .movn => b != 0
    | .movz => b == 0
    | _ => true
  onlyIf written (write rd value)

def executeHiLoMove (op : HiLoMove) (r : Nat) : Guarded Machine Unit := do
  match op with
  | .mfhi => write r (← get).regs.hi
  | .mflo => write r (← get).regs.lo
  | .mthi =>
    let value ← read r
    modify fun m => m.setHiLo { m.hiLo with hi := value }
  | .mtlo =>
    let value ← read r
    modify fun m => m.setHiLo { m.hiLo with lo := value }

def asDouble (format : NumberFormat) (r : Nat) : Guarded Machine Nat := do
  match format with
  | .word => return Ieee.ofInt Ieee.double (← readFloat r).toInt
  | .single => return Ieee.convert Ieee.single Ieee.double (← readFloat r).toNat
  | .double => return (← readDouble r).toNat

def executeArith (op : FloatOp) (fmt : Precision) (fd fs ft : Nat) : Guarded Machine Unit := do
  match fmt with
  | .single =>
    let a ← readFloat fs
    let b ← readFloat ft
    writeFloat fd (BitVec.ofNat 32 (Fpu.arith Ieee.single op a.toNat b.toNat))
  | .double =>
    let a ← readDouble fs
    let b ← readDouble ft
    writeDouble fd (BitVec.ofNat 64 (Fpu.arith Ieee.double op a.toNat b.toNat))

def executeUnary (op : FloatUnary) (fmt : Precision) (fd fs : Nat) : Guarded Machine Unit := do
  match fmt with
  | .single =>
    let a ← readFloat fs
    writeFloat fd (BitVec.ofNat 32 (Fpu.unary Ieee.single op a.toNat))
  | .double =>
    let a ← readDouble fs
    writeDouble fd (BitVec.ofNat 64 (Fpu.unary Ieee.double op a.toNat))

def executeConvert (target source : NumberFormat) (fd fs : Nat) : Guarded Machine Unit := do
  let x ← asDouble source fs
  match target with
  | .word => writeFloat fd (Fpu.toWord Ieee.double .round x)
  | .single => writeFloat fd (BitVec.ofNat 32 (Ieee.convert Ieee.double Ieee.single x))
  | .double => writeDouble fd (BitVec.ofNat 64 x)

def compareFloats (cond : Cond) (fmt : Precision) (fs ft : Nat) : Guarded Machine Bool := do
  match fmt with
  | .single =>
    let a ← readFloat fs
    let b ← readFloat ft
    return Fpu.compare Ieee.single cond a.toNat b.toNat
  | .double =>
    let a ← readDouble fs
    let b ← readDouble ft
    return Fpu.compare Ieee.double cond a.toNat b.toNat

def moveFloat (fmt : Precision) (fd fs : Nat) : Guarded Machine Unit := do
  match fmt with
  | .single => writeFloat fd (← readFloat fs)
  | .double => writeDouble fd (← readDouble fs)

def executeMem (op : MemOp) (data : Nat) (a : Word) : Guarded Machine Unit := do
  let m ← get
  match op with
  | .lw => write data (← plain (require (m.mem.readWord a)))
  | .lh => write data ((← plain (require (m.mem.readHalf a))).signExtend 32)
  | .lhu => write data ((← plain (require (m.mem.readHalf a))).setWidth 32)
  | .lb => write data ((← plain (require (m.mem.readByte a))).signExtend 32)
  | .lbu => write data ((← plain (require (m.mem.readByte a))).setWidth 32)
  | .sw =>
    let value ← read data
    plain (update (·.store a .word value.toNat))
  | .sh =>
    let value ← read data
    plain (update (·.store a .half value.toNat))
  | .sb =>
    let value ← read data
    plain (update (·.store a .byte value.toNat))
  | .lwc1 => writeFloat data (← plain (require (m.mem.readWord a)))
  | .swc1 =>
    let value ← readFloat data
    plain (update (·.store a .word value.toNat))
  | .ldc1 =>
    plain (require (Registers.checkPair data))
    writeDouble data (← plain (require (m.mem.readDouble a)))
  | .sdc1 =>
    let bits ← readDouble data
    plain (update (·.store a .double bits.toNat))

def writeLink (pc : Word) (link : Option Nat) : Guarded Machine Unit :=
  match link with
  | some r => write r (pc + 4)
  | none => pure ()

/-- Executes the instruction at `pc` as the machine does, with every register and flag guarded. -/
def execute (pc : Word) : Instruction → Guarded Machine Control
  | .reg op rd rs rt => do
    executeReg op rd rs rt
    return .next
  | .imm op rt rs value => do
    let result ← plain (require (Alu.imm op (← read rs) (BitVec.ofInt 32 value)))
    write rt result
    return .next
  | .lui rt upper => do
    write rt (upper.setWidth 32 <<< 16)
    return .next
  | .hiLo op rs rt => do
    let a ← read rs
    let b ← read rt
    let result ← plain (require (Alu.hiLo op a b (← get).hiLo))
    modify (·.setHiLo result)
    return .next
  | .count op rd rs => do
    write rd (Alu.count op (← read rs))
    return .next
  | .hiLoMove op r => do
    executeHiLoMove op r
    return .next
  | .jump link target => do
    writeLink pc (if link then some Register.ra.val else none)
    return .jump target.address
  | .jumpReg link rs => do
    let address ← read rs
    writeLink pc (link.map Fin.val)
    return .jump address
  | .branch op rs rt target => do
    let a ← read rs
    let b ← read rt
    writeLink pc (if op.links then some Register.ra.val else none)
    return if Alu.taken op a b then .jump target.address else .next
  | .floatArith op fmt fd fs ft => do
    executeArith op fmt fd fs ft
    return .next
  | .floatUnary op fmt fd fs => do
    executeUnary op fmt fd fs
    return .next
  | .floatToWord mode fmt fd fs => do
    let x ← asDouble (match fmt with | .single => .single | .double => .double) fs
    writeFloat fd (Fpu.toWord Ieee.double mode x)
    return .next
  | .convert target source fd fs => do
    executeConvert target source fd fs
    return .next
  | .compare cond fmt f fs ft => do
    setFlag f (← compareFloats cond fmt fs ft)
    return .next
  | .branchFlag expected f target => do
    return if (← flag f) = expected then .jump target.address else .next
  | .moveWord true rt fs => do
    writeFloat fs (← read rt)
    return .next
  | .moveWord false rt fs => do
    write rt (← readFloat fs)
    return .next
  | .floatMoveIf nonzero fmt fd fs rt => do
    let tested ← read rt
    onlyIf ((tested != 0) = nonzero) (moveFloat fmt fd fs)
    return .next
  | .moveOnFlag expected rd rs f => do
    let set ← flag f
    onlyIf (set = expected) (do write rd (← read rs))
    return .next
  | .floatMoveOnFlag expected fmt fd fs f => do
    let set ← flag f
    onlyIf (set = expected) (moveFloat fmt fd fs)
    return .next
  | .mem op data base offset => do
    let b ← read base
    executeMem op data (b + BitVec.ofInt 32 offset)
    return .next
  | .nop | .syscall | .breakpoint _ => return .next

section Execute

theorem follows_onlyIf {condition : Prop} [Decidable condition] {guarded : Guarded Machine Unit}
    {work : Exec Machine Unit} (follows : Follows guarded work m) :
    Follows (onlyIf condition guarded) (Exec.onlyIf condition work) m := by
  unfold onlyIf Exec.onlyIf
  split
  · exact follows
  · exact follows_pure ()

theorem follows_next {guarded : Guarded Machine Unit} {work : Exec Machine Unit}
    (follows : Follows guarded work m) {control : Control} :
    Follows (do guarded; return control) (do work; return control) m :=
  follows_bind follows fun _ _ => follows_pure control

theorem follows_executeReg (op : RegOp) (rd rs rt : Reg) :
    Follows (executeReg op rd rs rt) (Machine.executeReg op rd rs rt) m := by
  refine follows_read rs (follows_read rt (follows_get (follows_require (follows_plain _) ?_)))
  exact fun value => follows_onlyIf (follows_write rd value)

theorem follows_executeHiLoMove (op : HiLoMove) (r : Reg) :
    Follows (executeHiLoMove op r) (Machine.executeHiLoMove op r) m := by
  cases op with
  | mfhi => exact follows_write r m.regs.hi
  | mflo => exact follows_write r m.regs.lo
  | mthi | mtlo => exact follows_read r rfl

theorem follows_asDouble (format : NumberFormat) (r : FReg) :
    Follows (asDouble format r) (require (m.asDouble format r)) m := by
  cases format with
  | word | single => exact follows_readFloat r rfl
  | double =>
    have map : (m.regs.readDouble r).map BitVec.toNat =
        m.regs.readDouble r >>= fun a => .ok a.toNat := by
      cases m.regs.readDouble r <;> rfl
    rw [Machine.asDouble, map]
    exact follows_require_bind (follows_readDouble r) fun _ => rfl

theorem follows_executeArith (op : FloatOp) (fmt : Precision) (fd fs ft : FReg) :
    Follows (executeArith op fmt fd fs ft) (Machine.executeArith op fmt fd fs ft) m := by
  cases fmt with
  | single =>
    refine follows_readFloat fs (follows_readFloat ft ?_)
    exact follows_change (follows_writeFloat fd _) rfl
  | double =>
    exact follows_get (follows_require (follows_readDouble fs) fun _ =>
      follows_require (follows_readDouble ft) fun _ => follows_writeDouble fd _)

theorem follows_executeUnary (op : FloatUnary) (fmt : Precision) (fd fs : FReg) :
    Follows (executeUnary op fmt fd fs) (Machine.executeUnary op fmt fd fs) m := by
  cases fmt with
  | single => exact follows_readFloat fs (follows_change (follows_writeFloat fd _) rfl)
  | double =>
    exact follows_get (follows_require (follows_readDouble fs) fun _ => follows_writeDouble fd _)

theorem follows_executeConvert (target source : NumberFormat) (fd fs : FReg) :
    Follows (executeConvert target source fd fs)
      (Machine.executeConvert target source fd fs) m := by
  refine follows_get (follows_require (follows_asDouble source fs) fun x => ?_)
  cases target with
  | word | single => exact follows_writeFloat fd _
  | double => exact follows_writeDouble fd _

theorem follows_compareFloats (cond : Cond) (fmt : Precision) (fs ft : FReg) :
    Follows (compareFloats cond fmt fs ft) (require (m.compareFloats cond fmt fs ft)) m := by
  cases fmt with
  | single => exact follows_readFloat fs (follows_readFloat ft rfl)
  | double =>
    exact follows_require_bind (follows_readDouble fs) fun _ =>
      follows_require_bind (follows_readDouble ft) fun _ => rfl

theorem follows_moveFloat (fmt : Precision) (fd fs : FReg) :
    Follows (moveFloat fmt fd fs) (Machine.moveFloat fmt fd fs) m := by
  cases fmt with
  | single => exact follows_readFloat fs (follows_change (follows_writeFloat fd _) rfl)
  | double =>
    exact follows_get (follows_require (follows_readDouble fs) fun _ => follows_writeDouble fd _)

theorem follows_executeMem (op : MemOp) (data : Fin 32) (a : Word) :
    Follows (executeMem op data a) (Machine.executeMem op data a) m := by
  refine follows_get (follows_fetch ?_)
  cases op with
  | lw | lh | lhu | lb | lbu =>
    exact follows_require (follows_plain _) fun _ => follows_write data _
  | sw | sh | sb => exact follows_read data (follows_plain _)
  | lwc1 => exact follows_require (follows_plain _) fun _ => follows_writeFloat data _
  | swc1 => exact follows_readFloat data (follows_plain _)
  | ldc1 =>
    exact follows_require (follows_plain _) fun _ =>
      follows_require (follows_plain _) fun _ => follows_writeDouble data _
  | sdc1 => exact follows_require (follows_readDouble data) fun _ => follows_plain _

theorem follows_writeLink (pc : Word) (link : Option Reg) :
    Follows (writeLink pc (link.map Fin.val)) (Machine.writeLink pc link) m := by
  cases link with
  | none => exact follows_pure ()
  | some r => exact follows_write r _

end Execute

/-- No instruction accesses a register or flag that does not exist: with guards, it does what it
does without. -/
theorem execute_eq (pc : Word) (i : Instruction) :
    execute pc i = plain (Machine.execute pc i) := by
  funext m
  change Follows (execute pc i) (Machine.execute pc i) m
  cases i with
  | reg op rd rs rt => exact follows_next (follows_executeReg op rd rs rt)
  | imm op rt rs value =>
    refine follows_read rs (follows_get (follows_require (follows_plain _) fun result => ?_))
    exact follows_next (follows_write rt result)
  | lui rt upper => exact follows_next (follows_write rt _)
  | hiLo op rs rt =>
    refine follows_get (follows_read rs (follows_read rt (follows_fetch ?_)))
    exact follows_require (follows_plain _) fun _ => follows_next (follows_modify _)
  | count op rd rs =>
    exact follows_read rs (follows_next (follows_change (follows_write rd _) rfl))
  | hiLoMove op r => exact follows_next (follows_executeHiLoMove op r)
  | jump link target =>
    cases link with
    | true => exact follows_next (follows_writeLink pc (some Register.ra))
    | false => exact follows_next (follows_writeLink pc none)
  | jumpReg link rs => exact follows_read rs (follows_next (follows_writeLink pc link))
  | branch op rs rt target =>
    refine follows_read rs (follows_read rt (follows_get ?_))
    cases op.links with
    | true => exact follows_next (follows_writeLink pc (some Register.ra))
    | false => exact follows_next (follows_writeLink pc none)
  | floatArith op fmt fd fs ft => exact follows_next (follows_executeArith op fmt fd fs ft)
  | floatUnary op fmt fd fs => exact follows_next (follows_executeUnary op fmt fd fs)
  | floatToWord mode fmt fd fs =>
    exact follows_get (follows_require (follows_asDouble _ fs) fun _ =>
      follows_next (follows_writeFloat fd _))
  | convert target source fd fs => exact follows_next (follows_executeConvert target source fd fs)
  | compare cond fmt f fs ft =>
    exact follows_get (follows_require (follows_compareFloats cond fmt fs ft) fun _ =>
      follows_next (follows_setFlag f _))
  | branchFlag expected f target => exact follows_flag f rfl
  | moveWord toFloat rt fs =>
    cases toFloat with
    | true => exact follows_read rt (follows_next (follows_change (follows_writeFloat fs _) rfl))
    | false => exact follows_readFloat fs (follows_next (follows_change (follows_write rt _) rfl))
  | floatMoveIf nonzero fmt fd fs rt =>
    refine follows_read rt (follows_get (follows_next ?_))
    exact follows_onlyIf (follows_moveFloat fmt fd fs)
  | moveOnFlag expected rd rs f =>
    refine follows_flag f (follows_get (follows_next (follows_onlyIf ?_)))
    exact follows_read rs (follows_write rd _)
  | floatMoveOnFlag expected fmt fd fs f =>
    exact follows_flag f (follows_get (follows_next (follows_onlyIf (follows_moveFloat fmt fd fs))))
  | mem op data base offset =>
    exact follows_read base (follows_get (follows_next (follows_executeMem op data _)))
  | nop | syscall | breakpoint => rfl

end Guarded

end MipsLab
