import MipsLab.Proofs.Exec.Contract
import MipsLab.Proofs.Machine.Restore
import MipsLab.Proofs.Text.Bytes

/-! Records and instructions agree. The record that is taken before an instruction covers whatever
the instruction goes on to write; and an instruction that faults has not written anything yet. -/
namespace MipsLab

namespace Machine

theorem setDouble_ok {m k : Machine} {r : FReg} {value : BitVec 64}
    (written : m.setDouble r value = .ok k) :
    k = { m with regs := m.regs.writePair r (value.setWidth 32) (value.extractLsb' 32 32) } := by
  unfold setDouble Registers.writeDouble at written
  cases checked : Registers.checkPair r with
  | error f => simp [checked, bind, Except.bind, Except.map] at written
  | ok _ => simpa [checked, bind, Except.bind, Except.map, pure, Except.pure, eq_comm] using written

theorem store_ok {m k : Machine} {a : Word} {w : Width} {value : Nat}
    (written : m.store a w value = .ok k) : k = { m with mem := m.mem.pokeValue a w value } := by
  unfold store Memory.write at written
  cases checked : Memory.check a w.bytes with
  | error f => simp [checked, bind, Except.bind, Except.map] at written
  | ok _ => simpa [checked, bind, Except.bind, Except.map, pure, Except.pure, eq_comm] using written

theorem storeBytes_ok {m k : Machine} {a : Word} {bytes : List Byte}
    (written : m.storeBytes a bytes = .ok k) : k = { m with mem := m.mem.pokeBytes a bytes } := by
  unfold storeBytes Memory.writeBytes at written
  cases checked :
    (List.range bytes.length).forM fun i => Memory.check (a + BitVec.ofNat 32 i) 1 with
  | error f => simp [checked, bind, Except.bind, Except.map] at written
  | ok _ => simpa [checked, bind, Except.bind, Except.map, pure, Except.pure, eq_comm] using written

end Machine

namespace Prior

variable {m : Machine}

theorem restore_setReg (m : Machine) (r : Reg) (value : Word) :
    (ofReg m r).restore (m.setReg r value) = m := by
  simp only [ofReg, restore, Machine.setReg, Registers.write_write, Registers.write_found]

theorem restore_ofReg (m : Machine) (r : Reg) : (ofReg m r).restore m = m := by
  simp only [ofReg, restore, Machine.setReg, Registers.write_found]

theorem restore_setFloat (m : Machine) (r : FReg) (value : Word) :
    (ofFloat m r).restore (m.setFloat r value) = m := by
  simp only [ofFloat, restore, Machine.setFloat, Registers.writeFloat_writeFloat,
    Registers.writeFloat_found]

theorem restore_ofFloat (m : Machine) (r : FReg) : (ofFloat m r).restore m = m := by
  simp only [ofFloat, restore, Machine.setFloat, Registers.writeFloat_found]

theorem restore_ofDouble {m : Machine} {r : FReg} {p : Prior} (taken : ofDouble m r = .ok p) :
    p.restore m = m := by
  unfold ofDouble at taken
  cases checked : Registers.checkPair r with
  | error f => simp [checked, bind, Except.bind] at taken
  | ok _ =>
    simp only [checked, bind, Except.bind, pure, Except.pure, Except.ok.injEq] at taken
    subst taken
    simp only [restore, Registers.writePair_found]

theorem restore_ofPrecision {m : Machine} {fmt : Precision} {r : FReg} {p : Prior}
    (taken : ofPrecision m fmt r = .ok p) : p.restore m = m := by
  cases fmt with
  | single =>
    obtain rfl := Except.ok.inj taken
    exact restore_ofFloat m r
  | double => exact restore_ofDouble taken

theorem restore_setDouble {m k : Machine} {r : FReg} {value : BitVec 64} {p : Prior}
    (taken : ofDouble m r = .ok p) (written : m.setDouble r value = .ok k) : p.restore k = m := by
  unfold ofDouble at taken
  cases checked : Registers.checkPair r with
  | error f => simp [checked, bind, Except.bind] at taken
  | ok _ =>
    simp only [checked, bind, Except.bind, pure, Except.pure, Except.ok.injEq] at taken
    subst taken
    rw [Machine.setDouble_ok written]
    simp only [restore, Registers.writePair_writePair, Registers.writePair_found]

/-- The buffer of a system call is a stretch of memory, perhaps an empty one. -/
theorem buffer_eq_snapshot (m : Machine) : ∃ a n, buffer m = m.mem.snapshot a n := by
  unfold buffer
  dsimp only
  split
  · exact ⟨_, _, rfl⟩
  · split
    · exact ⟨_, _, rfl⟩
    · exact ⟨0, 0, rfl⟩

theorem restore_setFlag (m : Machine) (f : Flag) (value : Bool) :
    (flag f (m.regs.flag f)).restore (m.setFlag f value) = m := by
  simp only [restore, Machine.setFlag, Registers.setFlag_setFlag, Registers.setFlag_found]

theorem restore_setHiLo (m : Machine) (value : Alu.HiLo) :
    (hiLo m.hiLo).restore (m.setHiLo value) = m := rfl

theorem restore_store {m k : Machine} {a : Word} {w : Width} {value : Nat}
    (written : m.store a w value = .ok k) :
    (memory (m.mem.snapshot a w.bytes)).restore k = m := by
  have same := Memory.sameOutside_pokeBytes m.mem a (littleEndian w.bytes value)
  rw [length_littleEndian] at same
  rw [Machine.store_ok written]
  simp only [restore, Memory.pokeValue, Memory.restore_snapshot same, Memory.heapTop_pokeBytes]

/-- Putting back for a system call takes `$v0` and the first two float registers from the record,
whatever is there. -/
theorem restore_syscall_setReg (k : Machine) (value : Word) :
    (ofSyscall m).restore (k.setReg Register.v0 value) = (ofSyscall m).restore k := by
  simp only [ofSyscall, restore, Machine.setReg, Registers.write_write]

theorem restore_syscall_setFloat (k : Machine) (value : Word) :
    (ofSyscall m).restore (k.setFloat Register.f0 value) = (ofSyscall m).restore k := by
  simp only [ofSyscall, restore, Machine.setFloat, Register.f0, Fin.isValue, Fin.val_zero,
    ← Registers.writeFloat_write, Registers.writeFloat_writeFloat]

theorem restore_syscall_setDouble {k next : Machine} {value : BitVec 64}
    (written : k.setDouble Register.f0 value = .ok next) :
    (ofSyscall m).restore next = (ofSyscall m).restore k := by
  have apart : (1 : Nat) ≠ 0 := by decide
  rw [Machine.setDouble_ok written]
  simp only [ofSyscall, restore, Registers.writePair, Register.f0, Fin.isValue, Fin.val_zero,
    ← Registers.writeFloat_write, Nat.zero_add, Registers.writeFloat_comm _ apart,
    Registers.writeFloat_writeFloat]

/-- Bytes that were overwritten in the buffer of a system call come back, and so does the end of
the heap. -/
theorem restore_syscall_memory {mem : Memory} {a : Word} {n : Nat}
    (covered : buffer m = m.mem.snapshot a n)
    (same : m.mem.SameOutside mem (Memory.addresses a n)) :
    (ofSyscall m).restore { m with mem } = m := by
  simp only [ofSyscall, restore, covered, Memory.restore_snapshot same, Registers.write_found,
    Registers.writeFloat_found]

theorem restore_syscall (m : Machine) : (ofSyscall m).restore m = m := by
  obtain ⟨a, n, covered⟩ := buffer_eq_snapshot m
  exact restore_syscall_memory covered (.refl m.mem _)

theorem restore_setPc (p : Prior) (m : Machine) (pc : Word) :
    p.restore (m.setPc pc) = (p.restore m).setPc pc := by
  cases p with
  | register r value => simp only [restore, Machine.setReg, Machine.setPc, Registers.write_pc]
  | syscall v0 f0 f1 cells heapTop =>
    simp only [restore, Machine.setPc, Registers.write_pc]
    rfl
  | _ => rfl

/-- Work that can be undone with a record, or else faults on an unchanged machine. -/
def Records (p : Prior) (m : Machine) {α : Type} (work : Exec Machine α) : Prop :=
  work.Meets m (fun _ k => p.restore k = m) (· = m)

def RecordsControl (p : Prior) (m : Machine) (work : Exec Machine Control) : Prop :=
  work.Meets m (fun c k => c ≠ .await ∧ p.restore k = m) (· = m)

open Exec

theorem Records.next {p : Prior} {work : Exec Machine Unit} (kept : p.Records m work) :
    p.RecordsControl m (do work; return .next) :=
  meets_bind (kept.mono (fun _ _ undone => meets_pure ⟨nofun, undone⟩) fun _ same => same)

end Prior

namespace Machine

open Exec Prior

variable (m : Machine) (pc : Word)

theorem records_executeReg (op : RegOp) (rd rs rt : Reg) :
    (ofReg m rd).Records m (executeReg op rd rs rt) := by
  refine meets_bind (meets_get (meets_bind (meets_require rfl fun value _ => ?_)))
  refine meets_onlyIf (fun _ => ?_) (restore_ofReg m rd)
  exact meets_modify (restore_setReg m rd value)

theorem records_executeArith {op : FloatOp} {fmt : Precision} {fd fs ft : FReg} {p : Prior}
    (taken : ofPrecision m fmt fd = .ok p) : p.Records m (executeArith op fmt fd fs ft) := by
  refine meets_bind (meets_get ?_)
  cases fmt with
  | single =>
    obtain rfl := Except.ok.inj taken
    exact meets_modify (restore_setFloat m fd _)
  | double =>
    refine meets_bind (meets_require rfl fun a _ => meets_bind (meets_require rfl fun b _ => ?_))
    exact meets_update rfl fun k written => restore_setDouble taken written

theorem records_executeUnary {op : FloatUnary} {fmt : Precision} {fd fs : FReg} {p : Prior}
    (taken : ofPrecision m fmt fd = .ok p) : p.Records m (executeUnary op fmt fd fs) := by
  refine meets_bind (meets_get ?_)
  cases fmt with
  | single =>
    obtain rfl := Except.ok.inj taken
    exact meets_modify (restore_setFloat m fd _)
  | double =>
    refine meets_bind (meets_require rfl fun a _ => ?_)
    exact meets_update rfl fun k written => restore_setDouble taken written

theorem records_moveFloat {fmt : Precision} {fd fs : FReg} {p : Prior}
    (taken : ofPrecision m fmt fd = .ok p) : p.Records m (moveFloat fmt fd fs) := by
  refine meets_bind (meets_get ?_)
  cases fmt with
  | single =>
    obtain rfl := Except.ok.inj taken
    exact meets_modify (restore_setFloat m fd _)
  | double =>
    refine meets_bind (meets_require rfl fun bits _ => ?_)
    exact meets_update rfl fun k written => restore_setDouble taken written

theorem records_executeConvert {target source : NumberFormat} {fd fs : FReg} {p : Prior}
    (taken : of m (.convert target source fd fs) = .ok p) :
    p.Records m (executeConvert target source fd fs) := by
  refine meets_bind (meets_get (meets_bind (meets_require rfl fun x _ => ?_)))
  cases target with
  | word =>
    obtain rfl := Except.ok.inj taken
    exact meets_modify (restore_setFloat m fd _)
  | single =>
    obtain rfl := Except.ok.inj taken
    exact meets_modify (restore_setFloat m fd _)
  | double => exact meets_update rfl fun k written => restore_setDouble taken written

theorem records_executeHiLoMove {op : HiLoMove} {r : Reg} {p : Prior}
    (taken : of m (.hiLoMove op r) = .ok p) : p.Records m (executeHiLoMove op r) := by
  cases op with
  | mfhi | mflo =>
    obtain rfl := Except.ok.inj taken
    exact meets_modify (restore_setReg m r _)
  | mthi | mtlo =>
    obtain rfl := Except.ok.inj taken
    exact meets_modify (restore_setHiLo m _)

theorem records_writeLink (link : Reg) : (ofReg m link).Records m (writeLink pc (some link)) :=
  meets_modify (restore_setReg m link (pc + 4))

/-- A load records its register, a store the bytes at its address. -/
theorem records_executeMem {op : MemOp} {data : Fin 32} {base : Reg} {offset : Int} {p : Prior}
    (taken : of m (.mem op data base offset) = .ok p) :
    p.Records m (executeMem op data (m.effectiveAddress base offset)) := by
  refine meets_bind (meets_get ?_)
  cases op with
  | lw | lh | lhu | lb | lbu =>
    obtain rfl := Except.ok.inj taken
    exact meets_bind (meets_require rfl fun v _ => meets_modify (restore_setReg m data _))
  | lwc1 =>
    obtain rfl := Except.ok.inj taken
    exact meets_bind (meets_require rfl fun v _ => meets_modify (restore_setFloat m data _))
  | ldc1 =>
    refine meets_bind (meets_require rfl fun _ _ => meets_bind (meets_require rfl fun v _ => ?_))
    exact meets_update rfl fun k written => restore_setDouble taken written
  | sw | sh | sb | swc1 =>
    obtain rfl := Except.ok.inj taken
    exact meets_update rfl fun k written => restore_store written
  | sdc1 =>
    obtain rfl := Except.ok.inj taken
    refine meets_bind (meets_require rfl fun bits _ => ?_)
    exact meets_update rfl fun k written => restore_store written

/-- The record of an instruction undoes it, and a fault finds the machine unchanged. -/
theorem records_execute {i : Instruction} {p : Prior} (taken : of m i = .ok p) :
    p.RecordsControl m (execute pc i) := by
  cases i with
  | reg op rd rs rt =>
    obtain rfl := Except.ok.inj taken
    exact (records_executeReg m op rd rs rt).next
  | imm op rt rs value =>
    obtain rfl := Except.ok.inj taken
    refine meets_bind (meets_get (meets_bind (meets_require rfl fun result _ => ?_)))
    exact Records.next (meets_modify (restore_setReg m rt result))
  | lui rt upper =>
    obtain rfl := Except.ok.inj taken
    exact Records.next (meets_modify (restore_setReg m rt _))
  | hiLo op rs rt =>
    obtain rfl := Except.ok.inj taken
    refine meets_bind (meets_get (meets_bind (meets_require rfl fun result _ => ?_)))
    exact Records.next (meets_modify (restore_setHiLo m result))
  | count op rd rs =>
    obtain rfl := Except.ok.inj taken
    exact Records.next (meets_modify (restore_setReg m rd _))
  | hiLoMove op r => exact (records_executeHiLoMove m taken).next
  | jump link target =>
    cases link with
    | false =>
      obtain rfl := Except.ok.inj taken
      exact meets_pure ⟨nofun, rfl⟩
    | true =>
      obtain rfl := Except.ok.inj taken
      exact meets_bind ((records_writeLink m pc Register.ra).mono
        (fun _ _ undone => meets_pure ⟨nofun, undone⟩) fun _ same => same)
  | jumpReg link rs =>
    cases link with
    | none =>
      obtain rfl := Except.ok.inj taken
      exact meets_bind (meets_get (meets_bind (meets_pure (meets_pure ⟨nofun, rfl⟩))))
    | some r =>
      obtain rfl := Except.ok.inj taken
      exact meets_bind (meets_get (meets_bind ((records_writeLink m pc r).mono
        (fun _ _ undone => meets_pure ⟨nofun, undone⟩) fun _ same => same)))
  | branch op rs rt target =>
    obtain rfl := Except.ok.inj taken
    refine meets_bind (meets_get (meets_bind ?_))
    split
    · refine (records_writeLink m pc Register.ra).mono (fun _ _ undone => ?_) fun _ same => same
      exact meets_pure ⟨by split <;> nofun, undone⟩
    · exact meets_pure (meets_pure ⟨by split <;> nofun, rfl⟩)
  | floatArith op fmt fd fs ft => exact (records_executeArith m taken).next
  | floatUnary op fmt fd fs => exact (records_executeUnary m taken).next
  | floatToWord mode fmt fd fs =>
    obtain rfl := Except.ok.inj taken
    refine meets_bind (meets_get (meets_bind (meets_require rfl fun x _ => ?_)))
    exact Records.next (meets_modify (restore_setFloat m fd _))
  | convert target source fd fs => exact (records_executeConvert m taken).next
  | compare cond fmt f fs ft =>
    obtain rfl := Except.ok.inj taken
    refine meets_bind (meets_get (meets_bind (meets_require rfl fun result _ => ?_)))
    exact Records.next (meets_modify (restore_setFlag m f result))
  | branchFlag expected f target =>
    obtain rfl := Except.ok.inj taken
    exact meets_bind (meets_get (meets_pure ⟨by split <;> nofun, rfl⟩))
  | moveWord toFloat rt fs =>
    cases toFloat with
    | true =>
      obtain rfl := Except.ok.inj taken
      exact Records.next (meets_modify (restore_setFloat m fs _))
    | false =>
      obtain rfl := Except.ok.inj taken
      exact Records.next (meets_modify (restore_setReg m rt _))
  | floatMoveIf nonzero fmt fd fs rt =>
    refine meets_bind (meets_get (Records.next (meets_onlyIf (fun _ => ?_) ?_)))
    · exact records_moveFloat m taken
    · exact restore_ofPrecision taken
  | moveOnFlag expected rd rs f =>
    obtain rfl := Except.ok.inj taken
    refine meets_bind (meets_get (Records.next (meets_onlyIf (fun _ => ?_) ?_)))
    · exact meets_modify (restore_setReg m rd _)
    · exact restore_ofReg m rd
  | floatMoveOnFlag expected fmt fd fs f =>
    refine meets_bind (meets_get (Records.next (meets_onlyIf (fun _ => ?_) ?_)))
    · exact records_moveFloat m taken
    · exact restore_ofPrecision taken
  | mem op data base offset => exact meets_bind (meets_get (records_executeMem m taken).next)
  | nop | breakpoint _ =>
    obtain rfl := Except.ok.inj taken
    exact meets_pure ⟨nofun, rfl⟩
  | syscall =>
    obtain rfl := Except.ok.inj taken
    exact meets_pure ⟨nofun, restore_syscall m⟩

end Machine

end MipsLab
