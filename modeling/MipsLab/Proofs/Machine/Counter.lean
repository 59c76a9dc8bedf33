import MipsLab.Proofs.Machine.Sequence

/-! The program counter. Instructions are told where they stand; they neither read the counter in
the register file nor move it, so that it may hold anything while they are executed. -/
namespace MipsLab.Machine

open Exec

variable (m : Machine) (pc x : Word)

theorem setReg_setPc (r : Reg) (value : Word) :
    (m.setPc x).setReg r value = (m.setReg r value).setPc x := by
  simp only [setReg, setPc, Registers.write_pc]

theorem setDouble_setPc (r : FReg) (value : BitVec 64) :
    (m.setPc x).setDouble r value = (m.setDouble r value).map (·.setPc x) := by
  unfold setDouble Registers.writeDouble
  cases Registers.checkPair r <;> rfl

theorem store_setPc (a : Word) (w : Width) (value : Nat) :
    (m.setPc x).store a w value = (m.store a w value).map (·.setPc x) := by
  unfold store
  change Except.map _ (m.mem.write a w value) = _
  cases m.mem.write a w value <;> rfl

/-- Work that takes the program counter for any other register that it does not know. -/
def IgnoresPc {α : Type} (work : Exec Machine α) : Prop :=
  ∀ m x, Framed (fun k : Machine => k.setPc x) m work work

theorem IgnoresPc.next {work : Exec Machine Unit} (ignores : IgnoresPc work) :
    IgnoresPc (do work; return Control.next) := by
  intro m x
  exact framed_bind (ignores m x) fun _ k => framed_pure Control.next

theorem ignoresPc_executeReg (op : RegOp) (rd rs rt : Reg) :
    IgnoresPc (executeReg op rd rs rt) := by
  intro m x
  refine framed_get (framed_require _ ?_)
  intro value
  exact framed_onlyIf (framed_modify (m.setReg_setPc x rd value))

theorem ignoresPc_executeHiLoMove (op : HiLoMove) (r : Reg) :
    IgnoresPc (executeHiLoMove op r) := by
  intro m x
  cases op with
  | mfhi => exact framed_modify (m.setReg_setPc x r m.regs.hi)
  | mflo => exact framed_modify (m.setReg_setPc x r m.regs.lo)
  | mthi | mtlo => exact framed_modify rfl

theorem ignoresPc_executeArith (op : FloatOp) (fmt : Precision) (fd fs ft : FReg) :
    IgnoresPc (executeArith op fmt fd fs ft) := by
  intro m x
  refine framed_get ?_
  cases fmt with
  | single => exact framed_modify rfl
  | double =>
    refine framed_require _ ?_
    intro a
    refine framed_require _ ?_
    intro b
    exact framed_update (m.setDouble_setPc x fd _)

theorem ignoresPc_executeUnary (op : FloatUnary) (fmt : Precision) (fd fs : FReg) :
    IgnoresPc (executeUnary op fmt fd fs) := by
  intro m x
  refine framed_get ?_
  cases fmt with
  | single => exact framed_modify rfl
  | double =>
    refine framed_require _ ?_
    intro a
    exact framed_update (m.setDouble_setPc x fd _)

theorem ignoresPc_executeConvert (target source : NumberFormat) (fd fs : FReg) :
    IgnoresPc (executeConvert target source fd fs) := by
  intro m x
  refine framed_get (framed_require _ ?_)
  intro value
  cases target with
  | word | single => exact framed_modify rfl
  | double => exact framed_update (m.setDouble_setPc x fd _)

theorem ignoresPc_moveFloat (fmt : Precision) (fd fs : FReg) :
    IgnoresPc (moveFloat fmt fd fs) := by
  intro m x
  refine framed_get ?_
  cases fmt with
  | single => exact framed_modify rfl
  | double =>
    refine framed_require _ ?_
    intro bits
    exact framed_update (m.setDouble_setPc x fd bits)

theorem ignoresPc_executeMem (op : MemOp) (data : Fin 32) (a : Word) :
    IgnoresPc (executeMem op data a) := by
  intro m x
  refine framed_get ?_
  cases op with
  | lw | lh | lhu | lb | lbu =>
    refine framed_require _ ?_
    intro v
    exact framed_modify (m.setReg_setPc x data _)
  | lwc1 =>
    refine framed_require _ ?_
    intro v
    exact framed_modify rfl
  | sw | sh | sb | swc1 => exact framed_update (m.store_setPc x a _ _)
  | ldc1 =>
    refine framed_require _ ?_
    intro _
    refine framed_require _ ?_
    intro bits
    exact framed_update (m.setDouble_setPc x data bits)
  | sdc1 =>
    refine framed_require _ ?_
    intro bits
    exact framed_update (m.store_setPc x a .double bits.toNat)

theorem ignoresPc_writeLink (link : Option Reg) : IgnoresPc (writeLink pc link) := by
  intro m x
  cases link with
  | none => exact framed_pure ()
  | some r => exact framed_modify (m.setReg_setPc x r (pc + 4))

/-- No instruction reads the counter or writes it. -/
theorem ignoresPc_execute (i : Instruction) : IgnoresPc (execute pc i) := by
  cases i with
  | reg op rd rs rt => exact (ignoresPc_executeReg op rd rs rt).next
  | imm op rt rs value =>
    intro m x
    refine framed_get (framed_require _ ?_)
    intro result
    exact framed_bind (framed_modify (m.setReg_setPc x rt result)) fun _ _ => framed_pure _
  | lui rt upper =>
    intro m x
    exact framed_bind (framed_modify (m.setReg_setPc x rt _)) fun _ _ => framed_pure _
  | hiLo op rs rt =>
    intro m x
    refine framed_get (framed_require _ ?_)
    intro halves
    exact framed_bind (framed_modify rfl) fun _ _ => framed_pure _
  | count op rd rs =>
    intro m x
    exact framed_bind (framed_modify (m.setReg_setPc x rd _)) fun _ _ => framed_pure _
  | hiLoMove op r => exact (ignoresPc_executeHiLoMove op r).next
  | jump link target =>
    intro m x
    exact framed_bind (ignoresPc_writeLink pc _ m x) fun _ _ => framed_pure _
  | jumpReg link rs =>
    intro m x
    refine framed_get ?_
    exact framed_bind (ignoresPc_writeLink pc link m x) fun _ _ => framed_pure _
  | branch op rs rt target =>
    intro m x
    refine framed_get ?_
    exact framed_bind (ignoresPc_writeLink pc _ m x) fun _ _ => framed_pure _
  | floatArith op fmt fd fs ft => exact (ignoresPc_executeArith op fmt fd fs ft).next
  | floatUnary op fmt fd fs => exact (ignoresPc_executeUnary op fmt fd fs).next
  | floatToWord mode fmt fd fs =>
    intro m x
    refine framed_get (framed_require _ ?_)
    intro value
    exact framed_bind (framed_modify rfl) fun _ _ => framed_pure _
  | convert target source fd fs => exact (ignoresPc_executeConvert target source fd fs).next
  | compare cond fmt flag fs ft =>
    intro m x
    refine framed_get (framed_require _ ?_)
    intro result
    exact framed_bind (framed_modify rfl) fun _ _ => framed_pure _
  | branchFlag expected flag target =>
    intro m x
    exact framed_get (framed_pure _)
  | moveWord toFloat rt fs =>
    intro m x
    cases toFloat with
    | true => exact framed_bind (framed_modify rfl) fun _ _ => framed_pure _
    | false =>
      exact framed_bind (framed_modify (m.setReg_setPc x rt _)) fun _ _ => framed_pure _
  | floatMoveIf nonzero fmt fd fs rt =>
    intro m x
    refine framed_get ?_
    exact framed_bind (framed_onlyIf (ignoresPc_moveFloat fmt fd fs m x)) fun _ _ => framed_pure _
  | moveOnFlag expected rd rs flag =>
    intro m x
    refine framed_get ?_
    exact framed_bind (framed_onlyIf (framed_modify (m.setReg_setPc x rd _)))
      fun _ _ => framed_pure _
  | floatMoveOnFlag expected fmt fd fs flag =>
    intro m x
    refine framed_get ?_
    exact framed_bind (framed_onlyIf (ignoresPc_moveFloat fmt fd fs m x)) fun _ _ => framed_pure _
  | mem op data base offset =>
    intro m x
    refine framed_get ?_
    exact framed_bind (ignoresPc_executeMem op data _ m x) fun _ _ => framed_pure _
  | nop | syscall | breakpoint _ =>
    intro m x
    exact framed_pure _

theorem ignoresPc_executeAll (is : List Instruction) : IgnoresPc (executeAll pc is) := by
  induction is generalizing pc with
  | nil =>
    intro m x
    exact framed_pure _
  | cons i rest ih =>
    intro m x
    refine framed_bind (ignoresPc_execute pc i m x) ?_
    intro control k
    cases control with
    | next => exact ih (pc + 4) k x
    | _ => exact framed_pure _

end MipsLab.Machine
