import MipsLab.Proofs.Assembly.Words
import MipsLab.Proofs.Machine.Sequence

/-! Sequences that carry out an operation. A sequence first brings a value into a register, which
is `$at` unless the value is in one already, and then works on registers; what it leaves in `$at`
is the only trace of that. -/
namespace MipsLab

open Selection Meaning
open Register (zero at1)
open Machine (executeAll)

theorem at1_ne_zero : at1 ≠ zero := by decide

namespace Machine

variable (m : Machine) (pc : Word) (rest : List Instruction)

theorem executeAll_loadAddress (rd : Reg) (a : Word) : ∃ scratch next,
    executeAll pc (loadAddress rd a ++ rest) m =
      executeAll next rest ((m.setReg at1 scratch).setReg rd a) := by
  refine ⟨(upperHalf a).setWidth 32 <<< 16, pc + 4 + 4, ?_⟩
  have value : Alu.imm .ori ((upperHalf a).setWidth 32 <<< 16)
      (BitVec.ofInt 32 (lowerHalf a).toNat) = .ok a := by
    rw [Alu.imm, lowerHalf_low, or_halves]
  rw [loadAddress, List.cons_append, List.singleton_append, executeAll_lui, executeAll_imm,
    read_setReg_self m at1_ne_zero, value]

/-- The instructions that load a constant have no other effect than on `$at`. -/
theorem executeAll_loadConstant {name : Mnemonic} {rd : Reg} {v : Int} {load : List Instruction}
    (loaded : loadConstant name rd v = .ok load) : ∃ scratch next,
    executeAll pc (load ++ rest) m =
      executeAll next rest ((m.setReg at1 scratch).setReg rd (word v)) := by
  unfold loadConstant at loaded
  split at loaded
  · exact absurd loaded nofun
  · split at loaded
    · next fits =>
      obtain rfl := Except.ok.inj loaded
      have value : Alu.imm .ori (m.regs.read zero) (BitVec.ofInt 32 v) = .ok (word v) := by
        rw [show BitVec.ofInt 32 v = word v from rfl, imm_operation fun _ => fits]
        simp [ImmOp.operation]
      refine ⟨m.regs.read at1, pc + 4, ?_⟩
      rw [List.singleton_append, executeAll_imm, value, setReg_found]
    · split at loaded
      · obtain rfl := Except.ok.inj loaded
        have value : Alu.imm .addiu (m.regs.read zero) (BitVec.ofInt 32 v) = .ok (word v) := by
          simp [Alu.imm, word]
        refine ⟨m.regs.read at1, pc + 4, ?_⟩
        rw [List.singleton_append, executeAll_imm, value, setReg_found]
      · obtain rfl := Except.ok.inj loaded
        exact executeAll_loadAddress m pc rest rd (word v)

end Machine

/-- How an operation ends when `$at` has been used for intermediate values. -/
def Meaning.leaves (scratch : Word) (m : Machine) :
    Except Fault (Machine × Control) → EStateM.Result Fault Machine Control
  | .ok (k, control) => .ok control (k.setReg at1 scratch)
  | .error f => .error f (m.setReg at1 scratch)

/-- From wherever they are executed, on whatever machine, instructions end as the operation does. -/
def Implements (is : List Instruction) (operation : Meaning) : Prop :=
  ∀ pc m, ∃ scratch, executeAll pc is m = leaves scratch m (operation m)

/-- Instructions that only change `$at`, so that afterwards a register holds a value. -/
def Loads (load : List Instruction) (rt : Reg) (value : Machine → Word) : Prop :=
  ∀ pc m rest, ∃ scratch next,
    executeAll pc (load ++ rest) m = executeAll next rest (m.setReg at1 scratch) ∧
      (m.setReg at1 scratch).regs.read rt = value m

theorem loads_register {r : Reg} (apart : r ≠ at1) : Loads [] r fun m => m.regs.read r := by
  intro pc m rest
  refine ⟨m.regs.read at1, pc, ?_, m.read_setReg_of_ne apart _⟩
  rw [Machine.setReg_found, List.nil_append]

theorem loads_constant {name : Mnemonic} {v : Int} {load : List Instruction}
    (loaded : loadConstant name at1 v = .ok load) : Loads load at1 fun _ => word v := by
  intro pc m rest
  obtain ⟨scratch, next, ran⟩ := Machine.executeAll_loadConstant m pc rest loaded
  rw [Machine.setReg_setReg] at ran
  exact ⟨word v, next, ran, m.read_setReg_self at1_ne_zero _⟩

theorem loads_address (a : Word) : Loads (loadAddress at1 a) at1 fun _ => a := by
  intro pc m rest
  obtain ⟨scratch, next, ran⟩ := Machine.executeAll_loadAddress m pc rest at1 a
  rw [Machine.setReg_setReg] at ran
  exact ⟨a, next, ran, m.read_setReg_self at1_ne_zero _⟩

theorem loads_rightHand {name : Mnemonic} {right : Operand} {load : List Instruction} {rt : Reg}
    (held : rightHand name right = .ok (load, rt)) (clear : at1 ∉ right.registers) :
    ∃ value, right.value? = some value ∧ Loads load rt value := by
  cases right with
  | gpr r =>
    obtain ⟨rfl, rfl⟩ := Prod.mk.inj (Except.ok.inj held)
    exact ⟨_, rfl, loads_register (Ne.symm (List.ne_of_not_mem_cons clear))⟩
  | int v =>
    cases loaded : loadConstant name at1 v with
    | error e => simp [rightHand, loaded, bind, Except.bind] at held
    | ok is =>
      simp only [rightHand, loaded, bind, Except.bind, pure, Except.pure, Except.ok.injEq,
        Prod.mk.injEq] at held
      obtain ⟨rfl, rfl⟩ := held
      exact ⟨_, rfl, loads_constant loaded⟩
  | _ => exact absurd held nofun

theorem Loads.implements {load tail : List Instruction} {rt : Reg} {value : Machine → Word}
    {operation : Meaning} (loads : Loads load rt value)
    (ends : ∀ pc m scratch, (m.setReg at1 scratch).regs.read rt = value m →
      ∃ last, executeAll pc tail (m.setReg at1 scratch) = leaves last m (operation m)) :
    Implements (load ++ tail) operation := by
  intro pc m
  obtain ⟨scratch, next, ran, held⟩ := loads pc m tail
  rw [ran]
  exact ends next m scratch held

/-- Instructions that assign a register after a load. They may use every register but `$at` as it
was before the load. -/
theorem Loads.implements_assign {load tail : List Instruction} {rt rd : Reg}
    {value : Machine → Word} {result : Machine → Except Fault Word}
    (loads : Loads load rt value) (apart : rd ≠ at1)
    (ends : ∀ pc m k, k.regs.read rt = value m → (∀ r, r ≠ at1 → k.regs.read r = m.regs.read r) →
      executeAll pc tail k = match result m with
        | .ok x => .ok .next (k.setReg rd x)
        | .error f => .error f k) :
    Implements (load ++ tail) (assign rd result) := by
  apply loads.implements
  intro pc m scratch held
  refine ⟨scratch, ?_⟩
  rw [ends pc m _ held fun r other => m.read_setReg_of_ne other scratch, Meaning.assign]
  cases result m with
  | error f => rfl
  | ok x => exact congrArg (EStateM.Result.ok Control.next) (m.setReg_comm apart.symm scratch x)

theorem Loads.implements_reg {load : List Instruction} {rt rd rs : Reg} {value : Machine → Word}
    {op : RegOp} (loads : Loads load rt value) (plain : op ≠ .movn ∧ op ≠ .movz)
    (rdApart : rd ≠ at1) (rsApart : rs ≠ at1) :
    Implements (load ++ [.reg op rd rs rt])
      (assign rd fun m => Alu.reg op (m.regs.read rs) (value m)) := by
  apply loads.implements_assign rdApart
  intro pc m k held kept
  rw [Machine.executeAll_reg _ plain, kept rs rsApart, held]
  cases Alu.reg op (m.regs.read rs) (value m) <;> rfl

theorem executeAll_reg_imm {op : RegOp} {form : ImmOp} {rd rs rt : Reg} {c : Int} {pc : Word}
    {m : Machine} {x : Word} (next : Word → Word)
    (first : Alu.reg op (m.regs.read rs) (m.regs.read rt) = .ok x)
    (second : ∀ w, Alu.imm form w (BitVec.ofInt 32 c) = .ok (next w))
    (plain : op ≠ .movn ∧ op ≠ .movz) :
    executeAll pc [.reg op rd rs rt, .imm form rd rd c] m = .ok .next (m.setReg rd (next x)) := by
  rw [m.executeAll_reg_ok plain first, Machine.executeAll_imm_ok _ (second _), m.setReg_read]
  rfl

theorem executeAll_reg_reg {op again : RegOp} {rd rs rt a b : Reg} {pc : Word} {m : Machine}
    {x : Word} (next : Word → Word)
    (first : Alu.reg op (m.regs.read rs) (m.regs.read rt) = .ok x)
    (second : ∀ k, k = m.setReg rd x →
      Alu.reg again (k.regs.read a) (k.regs.read b) = .ok (next (k.regs.read rd)))
    (plain : op ≠ .movn ∧ op ≠ .movz) (plainAgain : again ≠ .movn ∧ again ≠ .movz) :
    executeAll pc [.reg op rd rs rt, .reg again rd a b] m = .ok .next (m.setReg rd (next x)) := by
  rw [m.executeAll_reg_ok plain first, Machine.executeAll_reg_ok _ plainAgain (second _ rfl),
    m.setReg_read]
  rfl

theorem Loads.implements_branch {load : List Instruction} {rt rs : Reg} {value : Machine → Word}
    {op : BranchOp} {target : Target} (loads : Loads load rt value) (apart : rs ≠ at1)
    (plain : op.links = false) (condition : Word → Word → Bool)
    (taken : ∀ a b, Alu.taken op a b = condition a b) :
    Implements (load ++ [.branch op rs rt target])
      (branch (fun m => condition (m.regs.read rs) (value m)) target.address) := by
  apply loads.implements
  intro pc m scratch held
  refine ⟨scratch, ?_⟩
  rw [Machine.executeAll_branch _ plain, m.read_setReg_of_ne apart, held, taken]
  rfl

theorem Loads.implements_divide {load : List Instruction} {rt rd rs : Reg} {value : Machine → Word}
    {move : HiLoMove} (loads : Loads load rt value) (rdApart : rd ≠ at1) (rsApart : rs ≠ at1)
    (unsigned : Bool) (part : Alu.HiLo → Word)
    (moves : ∀ pc m, executeAll pc [.hiLoMove move rd] m = .ok .next (m.setReg rd (part m.hiLo))) :
    Implements (load ++ [.hiLo (if unsigned then .divu else .div) rs rt, .hiLoMove move rd])
      (divide unsigned part rd rs value) := by
  apply loads.implements
  intro pc m scratch held
  refine ⟨scratch, ?_⟩
  rw [Machine.executeAll_hiLo, m.read_setReg_of_ne rsApart, held, m.hiLo_setReg, Meaning.divide]
  cases Alu.hiLo (if unsigned then .divu else .div) (m.regs.read rs) (value m) m.hiLo with
  | error f => rfl
  | ok halves =>
    dsimp only
    rw [moves, m.setHiLo_setReg, Machine.setReg_comm _ rdApart.symm, Machine.hiLo_setReg]
    rfl

theorem Loads.implements_access {load : List Instruction} {value address : Machine → Word}
    {op : MemOp} {data : Fin 32} {rt : Reg} {offset : Int} (loads : Loads load rt value)
    (apart : op.isFloat = false → data ≠ at1)
    (sum : ∀ m, value m + BitVec.ofInt 32 offset = address m) :
    Implements (load ++ [.mem op data rt offset]) (access op data address) := by
  apply loads.implements
  intro pc m scratch held
  refine ⟨scratch, ?_⟩
  have place : (m.setReg at1 scratch).effectiveAddress rt offset = address m := by
    rw [Machine.effectiveAddress, held, sum]
  have framed := m.framed_executeMem apart (address m) scratch
  rw [Machine.executeAll_mem, place, framed, Meaning.access]
  cases outcome : m.executeMem op data (address m) with
  | ok _ k => rfl
  | error f k =>
    obtain rfl := (m.executeMem_fault op data (address m)).of_error outcome
    rfl

theorem implements_imm {form : ImmOp} {rd rs : Reg} {c : Int} {result : Word → Except Fault Word}
    (rdApart : rd ≠ at1) (rsApart : rs ≠ at1)
    (value : ∀ a, Alu.imm form a (BitVec.ofInt 32 c) = result a) :
    Implements [.imm form rd rs c] (assign rd fun m => result (m.regs.read rs)) := by
  apply (loads_register rsApart).implements_assign rdApart
  intro pc m k held _
  rw [Machine.executeAll_imm, value, held]
  cases result (m.regs.read rs) <;> rfl

theorem implements_constant {name : Mnemonic} {rd : Reg} {v : Int} {load : List Instruction}
    (apart : rd ≠ at1) (loaded : loadConstant name rd v = .ok load) :
    Implements load (assign rd fun _ => .ok (word v)) := by
  intro pc m
  obtain ⟨scratch, next, ran⟩ := Machine.executeAll_loadConstant m pc [] loaded
  rw [List.append_nil, m.setReg_comm apart.symm] at ran
  exact ⟨scratch, ran⟩

theorem implements_address {rd : Reg} (apart : rd ≠ at1) (a : Word) :
    Implements (loadAddress rd a) (assign rd fun _ => .ok a) := by
  intro pc m
  obtain ⟨scratch, next, ran⟩ := Machine.executeAll_loadAddress m pc [] rd a
  rw [List.append_nil, m.setReg_comm apart.symm] at ran
  exact ⟨scratch, ran⟩

theorem loads_upper (upper : BitVec 16) :
    Loads [.lui at1 upper] at1 fun _ => upper.setWidth 32 <<< 16 := by
  intro pc m rest
  exact ⟨_, pc + 4, rfl, m.read_setReg_self at1_ne_zero _⟩

theorem loads_upper_add (upper : BitVec 16) {base : Reg} (apart : base ≠ at1) :
    Loads [.lui at1 upper, .reg .addu at1 at1 base] at1
      fun m => upper.setWidth 32 <<< 16 + m.regs.read base := by
  intro pc m rest
  have plain : RegOp.addu ≠ .movn ∧ RegOp.addu ≠ .movz := ⟨nofun, nofun⟩
  refine ⟨upper.setWidth 32 <<< 16 + m.regs.read base, pc + 4 + 4, ?_,
    m.read_setReg_self at1_ne_zero _⟩
  rw [List.cons_append, List.singleton_append, Machine.executeAll_lui,
    Machine.executeAll_reg_ok _ plain rfl, m.read_setReg_self at1_ne_zero,
    m.read_setReg_of_ne apart, Machine.setReg_setReg]

theorem implements_wideAccess {op : MemOp} {data : Fin 32} (a : Word)
    (apart : op.isFloat = false → data ≠ at1) :
    Implements (wideAccess op data a none) (access op data fun _ => a) :=
  (loads_upper _).implements_access apart fun _ => add_halves a

theorem implements_wideAccess_base {op : MemOp} {data : Fin 32} (a : Word) {base : Reg}
    (apart : op.isFloat = false → data ≠ at1) (baseApart : base ≠ at1) :
    Implements (wideAccess op data a (some base))
      (access op data fun m => a + m.regs.read base) := by
  refine (loads_upper_add _ baseApart).implements_access apart ?_
  intro m
  rw [BitVec.add_assoc, BitVec.add_comm (m.regs.read base), ← BitVec.add_assoc, add_halves]

theorem implements_sum {rd base : Reg} (a : Word) (rdApart : rd ≠ at1) (baseApart : base ≠ at1) :
    Implements (loadAddress at1 a ++ [.reg .addu rd at1 base])
      (assign rd fun m => .ok (a + m.regs.read base)) := by
  have plain : RegOp.addu ≠ .movn ∧ RegOp.addu ≠ .movz := ⟨nofun, nofun⟩
  apply (loads_address a).implements_assign rdApart
  intro pc m k held kept
  rw [k.executeAll_reg_ok plain rfl, held, kept base baseApart]
  rfl

/-- A comparison into `$at`, and a branch on whether it holds, or on whether it does not. -/
theorem Loads.implements_compare {load : List Instruction} {rt rs a b : Reg}
    {value : Machine → Word} {unsigned : Bool} {target : Target} (loads : Loads load rt value)
    (apart : rs ≠ at1) (whenSet : Bool) (holds : Word → Word → Bool)
    (compared : ∀ k : Machine,
      decide (number unsigned (k.regs.read a) < number unsigned (k.regs.read b)) =
        (holds (k.regs.read rs) (k.regs.read rt) == whenSet)) :
    Implements (load ++ [.reg (lessThan unsigned) at1 a b,
        .branch (if whenSet then .bne else .beq) at1 zero target])
      (branch (fun m => holds (m.regs.read rs) (value m)) target.address) := by
  have plain : (if whenSet then BranchOp.bne else .beq).links = false := by
    cases whenSet <;> rfl
  apply loads.implements
  intro pc m scratch held
  refine ⟨Alu.bit (holds (m.regs.read rs) (value m) == whenSet), ?_⟩
  rw [Machine.executeAll_reg_ok _ (lessThan_plain unsigned) (reg_lessThan unsigned _ _), compared,
    held, m.read_setReg_of_ne apart, m.setReg_setReg, Machine.executeAll_branch _ plain,
    m.read_setReg_self at1_ne_zero, branch]
  cases whenSet <;> cases holds (m.regs.read rs) (value m) <;> rfl

theorem Implements.assign_congr {is : List Instruction} {rd : Reg}
    {f g : Machine → Except Fault Word} (implements : Implements is (assign rd f))
    (same : ∀ m, f m = g m) : Implements is (assign rd g) := by
  rwa [← funext same]

end MipsLab
