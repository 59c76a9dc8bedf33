import MipsLab.Proofs.Exec.Contract
import MipsLab.Proofs.Machine.Restore

/-! Straight-line execution. Instructions are executed one behind another, as long as control goes
on to the next one; there is one rule for each kind of instruction that sequences are made of. -/
namespace MipsLab

namespace Registers

theorem read_write (r : Registers) {i j : Nat} (inside : i < 32) (x : Word) :
    (r.write i x).read j = if i = j ∧ j ≠ 0 then x else r.read j := by
  unfold write read
  by_cases none : j = 0
  · simp [none]
  · by_cases first : i = 0
    · have apart : i ≠ j := by omega
      simp [first, none, first ▸ apart]
    · by_cases same : i = j
      · subst same
        simp [first, inside]
      · simp [first, none, same]

theorem write_comm (r : Registers) {i j : Nat} (apart : i ≠ j) (x y : Word) :
    (r.write i x).write j y = (r.write j y).write i x := by
  unfold write
  split
  · rfl
  · split
    · rfl
    · simp only [Vector.setIfInBound_comm x y apart]

end Registers

namespace Machine

open Exec
open Register (zero at1)

variable (m : Machine)

@[simp] theorem read_zero : m.regs.read zero = 0 := rfl

@[simp] theorem setReg_setReg (r : Reg) (x y : Word) :
    (m.setReg r x).setReg r y = m.setReg r y := by
  simp only [setReg, Registers.write_write]

@[simp] theorem setReg_found (r : Reg) : m.setReg r (m.regs.read r) = m := by
  simp only [setReg, Registers.write_found]

theorem setReg_comm {r s : Reg} (apart : r ≠ s) (x y : Word) :
    (m.setReg r x).setReg s y = (m.setReg s y).setReg r x := by
  have values : r.val ≠ s.val := fun same => apart (Fin.ext same)
  simp only [setReg, Registers.write_comm _ values]

theorem read_setReg_self {r : Reg} (real : r ≠ zero) (x : Word) :
    (m.setReg r x).regs.read r = x := by
  have value : r.val ≠ 0 := fun none => real (Fin.ext none)
  rw [setReg, Registers.read_write _ r.isLt, if_pos ⟨rfl, value⟩]

theorem read_setReg_of_ne {r s : Reg} (apart : r ≠ s) (x : Word) :
    (m.setReg s x).regs.read r = m.regs.read r := by
  have values : s.val ≠ r.val := fun same => apart (Fin.ext same.symm)
  rw [setReg, Registers.read_write _ s.isLt, if_neg (fun both => values both.1)]

theorem setReg_read (r : Reg) (x : Word) (f : Word → Word) :
    (m.setReg r x).setReg r (f ((m.setReg r x).regs.read r)) = m.setReg r (f x) := by
  by_cases none : r = zero
  · subst none
    rfl
  · rw [read_setReg_self m none, setReg_setReg]

/-- Executes instructions from `pc` on, until control goes elsewhere. -/
def executeAll (pc : Word) : List Instruction → Exec Machine Control
  | [] => return .next
  | i :: rest => do
    match ← execute pc i with
    | .next => executeAll (pc + 4) rest
    | control => return control

variable {pc : Word} {rest : List Instruction}

theorem executeAll_reg {op : RegOp} (plain : op ≠ .movn ∧ op ≠ .movz) (rd rs rt : Reg) :
    executeAll pc (.reg op rd rs rt :: rest) m =
      match Alu.reg op (m.regs.read rs) (m.regs.read rt) with
      | .ok x => executeAll (pc + 4) rest (m.setReg rd x)
      | .error f => .error f m := by
  have written : executeReg op rd rs rt m =
      match Alu.reg op (m.regs.read rs) (m.regs.read rt) with
      | .ok x => .ok () (m.setReg rd x)
      | .error f => .error f m := by
    simp only [executeReg, bind, EStateM.bind, Exec.get_run]
    cases Alu.reg op (m.regs.read rs) (m.regs.read rt) with
    | error f => rfl
    | ok x =>
      cases op with
      | movn => exact absurd rfl plain.1
      | movz => exact absurd rfl plain.2
      | _ => rfl
  simp only [executeAll, execute, bind, EStateM.bind, written]
  cases Alu.reg op (m.regs.read rs) (m.regs.read rt) <;> rfl

theorem executeAll_imm (op : ImmOp) (rt rs : Reg) (value : Int) :
    executeAll pc (.imm op rt rs value :: rest) m =
      match Alu.imm op (m.regs.read rs) (BitVec.ofInt 32 value) with
      | .ok x => executeAll (pc + 4) rest (m.setReg rt x)
      | .error f => .error f m := by
  simp only [executeAll, execute, bind, EStateM.bind, Exec.get_run]
  cases Alu.imm op (m.regs.read rs) (BitVec.ofInt 32 value) <;> rfl

theorem executeAll_reg_ok {op : RegOp} (plain : op ≠ .movn ∧ op ≠ .movz) {rd rs rt : Reg} {x : Word}
    (value : Alu.reg op (m.regs.read rs) (m.regs.read rt) = .ok x) :
    executeAll pc (.reg op rd rs rt :: rest) m = executeAll (pc + 4) rest (m.setReg rd x) := by
  rw [executeAll_reg m plain, value]

theorem executeAll_imm_ok {op : ImmOp} {rt rs : Reg} {c : Int} {x : Word}
    (value : Alu.imm op (m.regs.read rs) (BitVec.ofInt 32 c) = .ok x) :
    executeAll pc (.imm op rt rs c :: rest) m = executeAll (pc + 4) rest (m.setReg rt x) := by
  rw [executeAll_imm, value]

theorem executeAll_lui (rt : Reg) (upper : BitVec 16) :
    executeAll pc (.lui rt upper :: rest) m =
      executeAll (pc + 4) rest (m.setReg rt (upper.setWidth 32 <<< 16)) := rfl

theorem executeAll_hiLo (op : HiLoOp) (rs rt : Reg) :
    executeAll pc (.hiLo op rs rt :: rest) m =
      match Alu.hiLo op (m.regs.read rs) (m.regs.read rt) m.hiLo with
      | .ok halves => executeAll (pc + 4) rest (m.setHiLo halves)
      | .error f => .error f m := by
  simp only [executeAll, execute, bind, EStateM.bind, Exec.get_run]
  cases Alu.hiLo op (m.regs.read rs) (m.regs.read rt) m.hiLo <;> rfl

/-- A branch that does not link ends a sequence, taken or not. -/
theorem executeAll_branch {op : BranchOp} (plain : op.links = false) (rs rt : Reg)
    (target : Target) :
    executeAll pc [.branch op rs rt target] m =
      .ok (if Alu.taken op (m.regs.read rs) (m.regs.read rt) then .jump target.address else .next)
        m := by
  simp only [executeAll, execute, bind, EStateM.bind, Exec.get_run,
    plain, Bool.false_eq_true, if_false]
  cases Alu.taken op (m.regs.read rs) (m.regs.read rt) <;> rfl

theorem executeAll_mem (op : MemOp) (data : Fin 32) (base : Reg) (offset : Int) :
    executeAll pc [.mem op data base offset] m =
      match executeMem op data (m.effectiveAddress base offset) m with
      | .ok _ k => .ok .next k
      | .error f k => .error f k := by
  simp only [executeAll, execute, bind, EStateM.bind, Exec.get_run]
  cases executeMem op data (m.effectiveAddress base offset) m <;> rfl

theorem setFloat_setReg (r : Reg) (f : FReg) (x y : Word) :
    (m.setReg r x).setFloat f y = (m.setFloat f y).setReg r x := by
  simp only [setReg, setFloat, Registers.writeFloat_write]

theorem setHiLo_setReg (r : Reg) (x : Word) (halves : Alu.HiLo) :
    (m.setReg r x).setHiLo halves = (m.setHiLo halves).setReg r x := by
  unfold setReg setHiLo Registers.write
  split <;> rfl

theorem hiLo_setReg (r : Reg) (x : Word) : (m.setReg r x).hiLo = m.hiLo := by
  unfold setReg hiLo Registers.write
  split <;> rfl

theorem setDouble_setReg (r : Reg) (f : FReg) (x : Word) (y : BitVec 64) :
    (m.setReg r x).setDouble f y = (m.setDouble f y).map (·.setReg r x) := by
  unfold setDouble Registers.writeDouble
  cases Registers.checkPair f with
  | error fault => rfl
  | ok _ =>
    simp only [setReg, bind, Except.bind, pure, Except.pure, Except.map, Registers.writePair,
      Registers.writeFloat_write]

theorem store_setReg (r : Reg) (x a : Word) (w : Width) (value : Nat) :
    (m.setReg r x).store a w value = (m.store a w value).map (·.setReg r x) := by
  unfold store
  change Except.map _ (m.mem.write a w value) = _
  cases m.mem.write a w value <;> rfl

theorem readFloat_setReg (r : Reg) (x : Word) (i : Nat) :
    (m.setReg r x).regs.readFloat i = m.regs.readFloat i := by
  unfold setReg Registers.write
  split <;> rfl

theorem readDouble_setReg (r : Reg) (x : Word) (i : Nat) :
    (m.setReg r x).regs.readDouble i = m.regs.readDouble i := by
  simp only [Registers.readDouble, readFloat_setReg]

theorem framed_storeReg {data r : Reg} (apart : data ≠ r) (a x : Word) (w : Width) :
    Framed (·.setReg r x) m (update (·.store a w ((m.setReg r x).regs.read data).toNat))
      (update (·.store a w (m.regs.read data).toNat)) := by
  refine framed_update ?_
  rw [read_setReg_of_ne m apart, store_setReg]

theorem framed_storeFloat (data r : Fin 32) (a x : Word) :
    Framed (·.setReg r x) m (update (·.store a .word ((m.setReg r x).regs.readFloat data).toNat))
      (update (·.store a .word (m.regs.readFloat data).toNat)) := by
  refine framed_update ?_
  rw [readFloat_setReg, store_setReg]

/-- An access does not depend on a register that it does not name, and leaves it alone. -/
theorem framed_executeMem {op : MemOp} {data : Fin 32} {r : Reg}
    (apart : op.isFloat = false → data ≠ r) (a x : Word) :
    Framed (·.setReg r x) m (executeMem op data a) (executeMem op data a) := by
  refine framed_get ?_
  cases op with
  | lw | lh | lhu | lb | lbu =>
    refine framed_require _ ?_
    intro v
    exact framed_modify (m.setReg_comm (apart rfl).symm x _)
  | lwc1 =>
    refine framed_require _ ?_
    intro v
    exact framed_modify (m.setFloat_setReg r data x v)
  | sw => exact m.framed_storeReg (apart rfl) a x .word
  | sh => exact m.framed_storeReg (apart rfl) a x .half
  | sb => exact m.framed_storeReg (apart rfl) a x .byte
  | swc1 => exact m.framed_storeFloat data r a x
  | ldc1 =>
    refine framed_require _ ?_
    intro _
    refine framed_require _ ?_
    intro bits
    exact framed_update (m.setDouble_setReg r data x bits)
  | sdc1 =>
    dsimp only
    rw [readDouble_setReg]
    refine framed_require _ ?_
    intro bits
    exact framed_update (m.store_setReg r x a .double bits.toNat)

/-- An access that faults has not written anything. -/
theorem executeMem_fault (op : MemOp) (data : Fin 32) (a : Word) :
    (executeMem op data a).Meets m (fun _ _ => True) (· = m) := by
  refine meets_bind (meets_get ?_)
  cases op with
  | lw | lh | lhu | lb | lbu | lwc1 =>
    exact meets_bind (meets_require rfl fun _ _ => meets_modify trivial)
  | sw | sh | sb | swc1 => exact meets_update rfl fun _ _ => trivial
  | ldc1 =>
    refine meets_bind (meets_require rfl fun _ _ => meets_bind (meets_require rfl fun _ _ => ?_))
    exact meets_update rfl fun _ _ => trivial
  | sdc1 => exact meets_bind (meets_require rfl fun _ _ => meets_update rfl fun _ _ => trivial)

end Machine

end MipsLab
