import MipsLab.Proofs.Assembly.Expansion
import MipsLab.Proofs.Machine.Control
import MipsLab.Proofs.Machine.Counter
import MipsLab.Run.Basic

/-! Straight-line code in a run. Where instructions stand in the text one behind another, stepping
the run executes them as a sequence: it ends with the same machine at the address to which the
sequence leads, or with the same fault. -/
namespace MipsLab

open Exec
open Register (at1)

/-- Instructions stand in the text one behind another, from an address on. -/
def Program.Holds (p : Program) (pc : Word) : List Instruction → Prop
  | [] => True
  | i :: rest =>
    p.isPastEnd pc = false ∧ (∃ entry, p.entryAt? pc = some entry ∧ entry.instr = i) ∧
      p.Holds (pc + 4) rest

/-- Where control is afterwards, if it goes on to `next` by itself. -/
def Control.destination (next : Word) : Control → Word
  | .jump address => address
  | _ => next

theorem Prior.ofDouble_ok {r : FReg} (checked : Registers.checkPair r = .ok ()) (m : Machine) :
    ofDouble m r = .ok (double r (m.regs.readFloat r) (m.regs.readFloat (r + 1))) := by
  rw [ofDouble, checked]
  rfl

theorem Prior.ofDouble_error {r : FReg} {f : Fault} (checked : Registers.checkPair r = .error f)
    (m : Machine) : ofDouble m r = .error f := by
  rw [ofDouble, checked]
  rfl

theorem Machine.executeMem_ldc1_error {data : FReg} {f : Fault}
    (checked : Registers.checkPair data = .error f) (m : Machine) (a : Word) :
    m.executeMem .ldc1 data a = .error f m := by
  rw [executeMem, get_bind]
  dsimp only
  rw [checked]
  rfl

/-- A record that cannot be taken is missing for the reason for which the instruction faults. -/
theorem Prior.of_straight {i : Instruction} (straight : i.isStraight = true) (m : Machine)
    (pc : Word) : (∃ p, Prior.of m i = .ok p) ∨
      ∃ f, Prior.of m i = .error f ∧ Machine.execute pc i m = .error f m := by
  cases i with
  | reg | imm | lui | hiLo | branch => exact .inl ⟨_, rfl⟩
  | hiLoMove op r => cases op <;> exact .inl ⟨_, rfl⟩
  | mem op data base offset =>
    cases op with
    | ldc1 =>
      cases checked : Registers.checkPair data with
      | ok _ => exact .inl ⟨_, ofDouble_ok checked m⟩
      | error f =>
        have raised := m.executeMem_ldc1_error checked (m.effectiveAddress base offset)
        refine .inr ⟨f, ofDouble_error checked m, ?_⟩
        rw [Machine.execute, get_bind]
        exact bind_error raised
    | _ => exact .inl ⟨_, rfl⟩
  | _ => exact absurd straight Bool.false_ne_true

namespace Run

variable {r : Run}

/-- Nothing but its instructions can stop the run. -/
structure Unhindered (r : Run) : Prop where
  running : r.ended = false
  unlimited : r.limit = none

theorem step_eq_executeEntry (free : r.Unhindered) {entry : TextEntry}
    (inside : r.program.isPastEnd r.pc = false) (found : r.program.entryAt? r.pc = some entry) :
    r.step = executeEntry { r with skipCheck := true } r.pc entry := by
  have unlimited : ({ r with skipCheck := true } : Run).reachedLimit? = none := by
    rw [reachedLimit?, free.unlimited]
    rfl
  have fetched : entry? { r with skipCheck := true } = some entry := found
  have here : ({ r with skipCheck := true } : Run).pc = r.pc := rfl
  unfold step tick
  rw [if_neg (by rw [free.running]; exact Bool.false_ne_true), here, inside,
    if_neg Bool.false_ne_true, fetched]
  dsimp only
  rw [if_pos rfl]
  dsimp only
  rw [if_neg Bool.false_ne_true, unlimited]

theorem machine_fail (r : Run) (pc : Word) (f : Fault) : (r.fail pc f).2.machine = r.machine := by
  unfold fail finish
  dsimp only
  split <;> rfl

theorem react_straight {i : Instruction} (straight : i.isStraight = true) {pc : Word} :
    react pc i = Station.onMachine (Machine.execute pc i) := by
  cases i <;> first | rfl | exact absurd straight Bool.false_ne_true

/-- One instruction of straight-line code, executed by the machine or by a step of the run. -/
theorem step_straight (free : r.Unhindered) {i : Instruction} {rest : List Instruction}
    (held : r.program.Holds r.pc (i :: rest)) (straight : i.isStraight = true) :
    match Machine.execute r.pc i r.machine with
    | .ok control k => r.step.1 = .ok .executed ∧ ∃ debugger stats events, r.step.2 = { r with
        machine := k.setPc (control.destination (r.pc + 4)), skipCheck := false,
        debugger, stats, events }
    | .error f k => ∃ tag, r.step.1 = .error ⟨r.pc, tag, f⟩ ∧ r.step.2.machine = k := by
  obtain ⟨inside, ⟨entry, found, rfl⟩, -⟩ := held
  rw [step_eq_executeEntry free inside found]
  unfold executeEntry Change.capture
  dsimp only
  rw [react_straight straight]
  obtain ⟨p, taken⟩ | ⟨f, missed, faults⟩ := Prior.of_straight straight r.machine r.pc
  · rw [taken]
    have moves := Machine.moves_execute r.pc entry.instr r.machine
    simp only [Except.map, Station.onMachine, station]
    cases ran : Machine.execute r.pc entry.instr r.machine with
    | ok control k =>
      obtain rfl | ⟨address, rfl⟩ := moves.of_ok ran
      · exact ⟨rfl, _, _, _, rfl⟩
      · exact ⟨rfl, _, _, _, rfl⟩
    | error f k => exact ⟨_, rfl, machine_fail _ r.pc f⟩
  · rw [missed, faults]
    exact ⟨_, rfl, machine_fail _ r.pc f⟩

def steps : (n : Nat) → Run → Run
  | 0, r => r
  | n + 1, r => r.step.2.steps n

theorem next_address (a : Word) (n : Nat) :
    a + 4 + BitVec.ofNat 32 (4 * n) = a + BitVec.ofNat 32 (4 * (n + 1)) := by
  rw [Nat.mul_succ, BitVec.ofNat_add, BitVec.add_assoc, BitVec.add_comm 4]
  rfl

/-- What a sequence does is what stepping the run through it does, however far that gets. -/
theorem steps_executeAll {is : List Instruction} {r : Run} (free : r.Unhindered)
    (held : r.program.Holds r.pc is) (straight : is.all Instruction.isStraight = true) :
    match Machine.executeAll r.pc is r.machine with
    | .ok control k => ∃ n ≤ is.length, (r.steps n).Unhindered ∧ (r.steps n).machine =
        k.setPc (control.destination (r.pc + BitVec.ofNat 32 (4 * is.length)))
    | .error f k => ∃ n < is.length, ∃ tag,
        (r.steps n).step.1 = .error ⟨(r.steps n).pc, tag, f⟩ ∧
          (r.steps (n + 1)).machine = k.setPc (r.steps n).pc := by
  induction is generalizing r with
  | nil =>
    refine ⟨0, Nat.le_refl 0, free, ?_⟩
    exact congrArg r.machine.setPc (BitVec.add_zero r.pc).symm
  | cons i rest ih =>
    obtain ⟨first, others⟩ := Bool.and_eq_true_iff.mp straight
    have step := step_straight free held first
    have kept := Machine.ignoresPc_execute r.pc i r.machine r.pc
    change Machine.execute r.pc i r.machine = _ at kept
    cases ran : Machine.execute r.pc i r.machine with
    | error f k =>
      rw [ran] at step kept
      have whole : Machine.executeAll r.pc (i :: rest) r.machine = .error f k := bind_error ran
      obtain ⟨tag, fails, machine⟩ := step
      rw [whole]
      refine ⟨0, Nat.succ_pos _, tag, fails, machine.trans ?_⟩
      injection kept
    | ok control k =>
      rw [ran] at step
      obtain ⟨-, debugger, stats, events, moved⟩ := step
      have freed : r.step.2.Unhindered := by
        rw [moved]
        exact ⟨free.running, free.unlimited⟩
      obtain rfl | ⟨address, rfl⟩ := (Machine.moves_execute r.pc i r.machine).of_ok ran
      · have whole : Machine.executeAll r.pc (i :: rest) r.machine =
            Machine.executeAll (r.pc + 4) rest k := bind_ok ran
        have later := ih freed (by rw [moved]; exact held.2.2) others
        have machine : r.step.2.machine = k.setPc (r.pc + 4) := by
          rw [moved]
          rfl
        have place : r.step.2.pc = r.pc + 4 := by
          rw [pc, machine]
          rfl
        have framed := Machine.ignoresPc_executeAll (r.pc + 4) rest k (r.pc + 4)
        rw [place, machine, framed, next_address] at later
        rw [whole]
        cases ended : Machine.executeAll (r.pc + 4) rest k with
        | ok control last =>
          rw [ended] at later
          obtain ⟨n, short, unhindered, reached⟩ := later
          exact ⟨n + 1, Nat.succ_le_succ short, unhindered, reached⟩
        | error f last =>
          rw [ended] at later
          obtain ⟨n, short, tag, fails, reached⟩ := later
          exact ⟨n + 1, Nat.succ_lt_succ short, tag, fails, reached⟩
      · have whole : Machine.executeAll r.pc (i :: rest) r.machine = .ok (.jump address) k :=
          bind_ok ran
        rw [whole]
        refine ⟨1, Nat.succ_pos _, freed, ?_⟩
        change r.step.2.machine = _
        rw [moved]
        rfl

/-- Stepping a run through the expansion of a pseudo-instruction does what the pseudo-instruction
means, and leaves the run behind the expansion, or where the pseudo-instruction branches to. -/
theorem steps_expansion {name : String} {args : List String} {labels : Labels}
    {ops : List Operand} {e : Expansion} (classified : operands args = .ok ops)
    (clear : ∀ o ∈ ops, at1 ∉ o.registers)
    (wide : name.toLower = "la" → ∀ rd offset base, ops = [.gpr rd, .mem none offset base] →
      ¬ Selection.fitsSigned16 offset)
    (expanded : expand name args labels = .ok e) (isPseudo : e.pseudo = true)
    (free : r.Unhindered) (held : r.program.Holds r.pc e.instrs) :
    ∃ operation, meaning? name ops labels = some operation ∧
      match operation r.machine with
      | .ok (k, control) => ∃ n ≤ e.instrs.length, ∃ scratch, (r.steps n).Unhindered ∧
          (r.steps n).machine = (k.setReg at1 scratch).setPc
            (control.destination (r.pc + BitVec.ofNat 32 (4 * e.instrs.length)))
      | .error f => ∃ n < e.instrs.length, ∃ scratch tag,
          (r.steps n).step.1 = .error ⟨(r.steps n).pc, tag, f⟩ ∧
            (r.steps (n + 1)).machine = (r.machine.setReg at1 scratch).setPc (r.steps n).pc := by
  have faithful : Faithful (expand name args labels) (meaning? name ops labels) :=
    faithful_expand classified clear wide
  obtain ⟨operation, means, implements⟩ := faithful e expanded isPseudo
  obtain ⟨scratch, ran⟩ := implements r.pc r.machine
  have stepped := steps_executeAll free held (straight_expand expanded isPseudo)
  rw [ran] at stepped
  refine ⟨operation, means, ?_⟩
  cases ended : operation r.machine with
  | ok done =>
    rw [ended] at stepped
    obtain ⟨n, short, unhindered, reached⟩ := stepped
    exact ⟨n, short, scratch, unhindered, reached⟩
  | error f =>
    rw [ended] at stepped
    obtain ⟨n, short, tag, fails, reached⟩ := stepped
    exact ⟨n, short, scratch, tag, fails, reached⟩

end Run

end MipsLab
