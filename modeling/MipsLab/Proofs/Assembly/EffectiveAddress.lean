import MipsLab.Proofs.Assembly.Expansion

/-! The address of a memory operand, as `la` takes it and as loads and stores use it. Both are the
sum of the base register and the offset modulo 2^32, whether the offset fits into an instruction or
not. But `la` makes the sum with a short offset by an addition of signed numbers, which fails on
overflow; an access, and `la` with a wide offset, never do. -/
namespace MipsLab

open Selection
open Register (zero at1)
open Machine (executeAll)

/-- The access at an address, after which control goes on. -/
def Machine.accessAt (op : MemOp) (data : Fin 32) (a : Word) : Exec Machine Control := do
  executeMem op data a
  return .next

/-- Instructions that only put a value into `$at`, and then make one access. -/
def AccessesAt (is : List Instruction) (op : MemOp) (data : Fin 32) (address : Machine → Word) :
    Prop :=
  ∀ pc m, ∃ scratch, executeAll pc is m = Machine.accessAt op data (address m) (m.setReg at1 scratch)

theorem Machine.executeAll_access (m : Machine) (pc : Word) (op : MemOp) (data : Fin 32) (base : Reg)
    (offset : Int) : executeAll pc [.mem op data base offset] m =
      accessAt op data (m.effectiveAddress base offset) m := by
  simp only [executeAll, execute, accessAt, bind, EStateM.bind, Exec.get_run]
  cases executeMem op data (m.effectiveAddress base offset) m <;> rfl

theorem Loads.accessesAt {load : List Instruction} {source : Reg} {value address : Machine → Word}
    {offset : Int} (loads : Loads load source value) (op : MemOp) (data : Fin 32)
    (sum : ∀ m, value m + BitVec.ofInt 32 offset = address m) :
    AccessesAt (load ++ [.mem op data source offset]) op data address := by
  intro pc m
  obtain ⟨scratch, next, ran, held⟩ := loads pc m [.mem op data source offset]
  have place : (m.setReg at1 scratch).effectiveAddress source offset = address m := by
    rw [Machine.effectiveAddress, held, sum]
  refine ⟨scratch, ?_⟩
  rw [ran, Machine.executeAll_access, place]

theorem accessesAt_wideAccess (op : MemOp) (data : Fin 32) {base : Reg} (offset : Int)
    (apart : base ≠ at1) : AccessesAt (wideAccess op data (word offset) (some base)) op data
      (·.effectiveAddress base offset) := by
  apply (loads_upper_add (upperHalf (word offset + 0x8000)) apart).accessesAt
  intro m
  rw [BitVec.add_assoc, BitVec.add_comm (m.regs.read base), ← BitVec.add_assoc, add_halves,
    BitVec.add_comm, Machine.effectiveAddress, word]

/-- The register that a load or a store names, as an operand. -/
def MemOp.operand (op : MemOp) (data : Fin 32) : Operand :=
  if op.isFloat then .fpr data else .gpr data

section Operands

variable {register place : String} {base : Reg} {offset : Int} (labels : Labels)

theorem expand_access {op : MemOp} {data : Fin 32}
    (classified : operands [register, place] = .ok [op.operand data, .mem none offset base])
    (fits : fitsWord offset) (apart : base ≠ at1) :
    ∃ e, expand op.name [register, place] labels = .ok e ∧
      AccessesAt e.instrs op data (·.effectiveAddress base offset) := by
  have found : Mnemonic.ofName? op.name.toLower = some (.mem op) := by
    cases op <;> decide +kernel
  have selected : selectMem (.mem op) op [op.operand data, .mem none offset base] labels =
      selectAccess (.mem op) op data (.mem none offset base) labels := by
    cases op <;> simp [selectMem, MemOp.operand, MemOp.isFloat]
  rw [expand_eq_select classified found, select, selected]
  by_cases short : fitsSigned16 offset
  · refine ⟨⟨[.mem op data base offset], false⟩, ?_, ?_⟩
    · simp [selectAccess, short, basic]
    · exact (loads_register apart).accessesAt op data fun _ => rfl
  · refine ⟨⟨wideAccess op data (word offset) (some base), true⟩, ?_, ?_⟩
    · simp [selectAccess, short, fits, pseudo]
    · exact accessesAt_wideAccess op data offset apart

/-- The offset fits into an instruction, and its sum with the base is no signed word. -/
def Machine.SumOverflows (m : Machine) (base : Reg) (offset : Int) : Prop :=
  fitsSigned16 offset ∧ ¬ (-0x80000000 ≤ (m.regs.read base).toInt + offset ∧
    (m.regs.read base).toInt + offset < 0x80000000)

theorem saddOverflow_word {a : Word} {v : Int} (fits : fitsSigned16 v) :
    a.saddOverflow (word v) = true ↔ ¬ (-0x80000000 ≤ a.toInt + v ∧ a.toInt + v < 0x80000000) := by
  obtain ⟨low, high⟩ := fits
  have plain : (word v).toInt = v := toInt_word (by omega) (by omega)
  simp only [BitVec.saddOverflow, plain, Bool.or_eq_true, decide_eq_true_eq]
  omega

/-- Instructions that put the address of a memory operand into a register, by way of `$at` at most,
unless the sum overflows: then they fail, and nothing has changed. -/
def TakesAddress (is : List Instruction) (rd base : Reg) (offset : Int) : Prop :=
  ∀ pc m, (m.SumOverflows base offset → executeAll pc is m = .error .arithmeticOverflow m) ∧
    (¬ m.SumOverflows base offset → ∃ scratch, executeAll pc is m =
      .ok .next ((m.setReg at1 scratch).setReg rd (m.effectiveAddress base offset)))

theorem takesAddress_short {rd : Reg} (short : fitsSigned16 offset) :
    TakesAddress [.imm .addi rd base offset] rd base offset := by
  intro pc m
  have exact := saddOverflow_word (a := m.regs.read base) short
  rw [Machine.executeAll_imm, Alu.imm, Alu.addSigned, ← word]
  constructor
  · rintro ⟨-, apart⟩
    rw [if_pos (exact.mpr apart)]
  · intro inside
    rw [if_neg fun beyond => inside ⟨short, exact.mp beyond⟩]
    refine ⟨m.regs.read at1, ?_⟩
    rw [Machine.setReg_found]
    rfl

theorem takesAddress_wide {rd : Reg} (wide : ¬ fitsSigned16 offset) (apart : base ≠ at1) :
    TakesAddress (loadAddress at1 (word offset) ++ [.reg .addu rd at1 base]) rd base offset := by
  intro pc m
  refine ⟨fun beyond => absurd beyond.1 wide, fun _ => ?_⟩
  obtain ⟨scratch, next, ran, held⟩ := loads_address (word offset) pc m [.reg .addu rd at1 base]
  have sum : Alu.reg .addu ((m.setReg at1 scratch).regs.read at1)
      ((m.setReg at1 scratch).regs.read base) = .ok (m.effectiveAddress base offset) := by
    rw [held, m.read_setReg_of_ne apart, Alu.reg, BitVec.add_comm]
    rfl
  have plain : RegOp.addu ≠ .movn ∧ RegOp.addu ≠ .movz := by decide
  exact ⟨scratch, ran.trans (Machine.executeAll_reg_ok _ plain sum)⟩

theorem expand_la {rd : Reg}
    (classified : operands [register, place] = .ok [.gpr rd, .mem none offset base])
    (fits : fitsWord offset) (apart : base ≠ at1) :
    ∃ e, expand "la" [register, place] labels = .ok e ∧ TakesAddress e.instrs rd base offset := by
  have found : Mnemonic.ofName? "la".toLower = some .la := by decide +kernel
  rw [expand_eq_select classified found, select]
  by_cases short : fitsSigned16 offset
  · exact ⟨⟨_, true⟩, by simp [selectLa, short, pseudo], takesAddress_short short⟩
  · exact ⟨⟨_, true⟩, by simp [selectLa, short, fits, pseudo], takesAddress_wide short apart⟩

/-- Loads and stores go to the base register plus the offset modulo 2^32, and `la` with the same
memory operand leaves this address in its register, for whatever base and offset. The exception is
a short offset whose sum with the base is no signed word: `la` fails then, the access does not. -/
theorem la_takes_accessed {target : String} {rd : Reg} {op : MemOp} {data : Fin 32}
    (taken : operands [target, place] = .ok [.gpr rd, .mem none offset base])
    (accessed : operands [register, place] = .ok [op.operand data, .mem none offset base])
    (fits : fitsWord offset) (apart : base ≠ at1) (real : rd ≠ zero) :
    ∃ la access, expand "la" [target, place] labels = .ok la ∧
      expand op.name [register, place] labels = .ok access ∧ ∀ pc m,
        (∃ scratch, executeAll pc access.instrs m =
          Machine.accessAt op data (m.regs.read base + word offset) (m.setReg at1 scratch)) ∧
        (m.SumOverflows base offset →
          executeAll pc la.instrs m = .error .arithmeticOverflow m) ∧
        (¬ m.SumOverflows base offset → ∃ scratch left,
          executeAll pc la.instrs m = .ok .next left ∧
          left = (m.setReg at1 scratch).setReg rd (m.regs.read base + word offset) ∧
          left.regs.read rd = m.regs.read base + word offset) := by
  obtain ⟨la, selected, takes⟩ := expand_la labels taken fits apart
  obtain ⟨access, chosen, accesses⟩ := expand_access labels accessed fits apart
  refine ⟨la, access, selected, chosen, fun pc m => ⟨accesses pc m, (takes pc m).1, ?_⟩⟩
  intro inside
  obtain ⟨scratch, ran⟩ := (takes pc m).2 inside
  exact ⟨scratch, _, ran, rfl, Machine.read_setReg_self _ real _⟩

end Operands

/-- A machine with the largest signed word in `$t1`. -/
def largestBase : Machine :=
  ⟨(Registers.reset MemoryMap.textBase false).write 9 0x7FFFFFFF, .load ∅ false⟩

/-- A wide offset wraps around. -/
theorem la_takes_accessed_wide : ∃ la, expand "la" ["$t0", "0xFFFF8000($t1)"] unplaced = .ok la ∧
    ∃ left, executeAll 0x400000 la.instrs largestBase = .ok .next left ∧
      left.regs.read 8 = 0x7FFF7FFF := by
  have taken : operands ["$t0", "0xFFFF8000($t1)"] =
      .ok [.gpr 8, .mem none 0xFFFF8000 9] := by rfl
  have accessed : operands ["$t2", "0xFFFF8000($t1)"] =
      .ok [MemOp.lb.operand 10, .mem none 0xFFFF8000 9] := by rfl
  obtain ⟨la, access, selected, -, runs⟩ := la_takes_accessed unplaced taken accessed
    (by decide) (by decide) (by decide)
  have inside : ¬ largestBase.SumOverflows 9 0xFFFF8000 := fun beyond => absurd beyond.1 (by decide)
  obtain ⟨scratch, left, ran, -, holds⟩ := (runs 0x400000 largestBase).2.2 inside
  exact ⟨la, selected, left, ran, holds⟩

/-- The address behind the largest signed word can be accessed with a short offset, but not be
taken with it. -/
theorem la_overflows :
    (expand "la" ["$t0", "1($t1)"] unplaced).toOption = some ⟨[.imm .addi 8 9 1], true⟩ ∧
    (expand "lb" ["$t2", "1($t1)"] unplaced).toOption = some ⟨[.mem .lb 10 9 1], false⟩ ∧
    largestBase.regs.read 9 + word 1 = 0x80000000 ∧
    largestBase.effectiveAddress 9 1 = 0x80000000 ∧
    executeAll 0x400000 [.imm .addi 8 9 1] largestBase = .error .arithmeticOverflow largestBase :=
  ⟨by decide +kernel, by decide +kernel, rfl, rfl, rfl⟩

end MipsLab
