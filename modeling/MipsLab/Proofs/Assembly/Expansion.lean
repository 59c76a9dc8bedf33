import MipsLab.Proofs.Assembly.Implements
import MipsLab.Proofs.Assembly.Straight

/-! Expansions do what pseudo-instructions mean. There is one lemma for each family of mnemonics; a
selection that gives basic instructions only has nothing to show. -/
namespace MipsLab

open Selection Meaning
open Register (zero at1)
open Machine (executeAll)

/-- Whatever is selected carries out a meaning, if it is a pseudo-instruction. -/
def Faithful (selected : Selected) (meaning : Option Meaning) : Prop :=
  ∀ e, selected = .ok e → e.pseudo = true →
    ∃ operation, meaning = some operation ∧ Implements e.instrs operation

theorem faithful_error {e : AssemblyError} {meaning : Option Meaning} :
    Faithful (.error e) meaning := by
  intro e selected
  exact absurd selected nofun

theorem faithful_basic {i : Instruction} {meaning : Option Meaning} :
    Faithful (basic i) meaning := by
  intro e selected isPseudo
  obtain rfl := Except.ok.inj selected
  exact absurd isPseudo nofun

theorem faithful_pseudo {is : List Instruction} {meaning : Option Meaning} {operation : Meaning}
    (means : meaning = some operation) (implements : Implements is operation) :
    Faithful (pseudo is) meaning := by
  intro e selected _
  obtain rfl := Except.ok.inj selected
  exact ⟨operation, means, implements⟩

theorem faithful_bind {α : Type} {x : Except AssemblyError α} {f : α → Selected}
    {meaning : Option Meaning} (next : ∀ a, x = .ok a → Faithful (f a) meaning) :
    Faithful (x >>= f) meaning := by
  cases x with
  | error e => exact faithful_error
  | ok a => exact next a rfl

/-- Whatever is selected carries out a meaning, also if it is a basic instruction. -/
def Means (selected : Selected) (meaning : Option Meaning) : Prop :=
  ∀ e, selected = .ok e → ∃ operation, meaning = some operation ∧ Implements e.instrs operation

theorem means_error {e : AssemblyError} {meaning : Option Meaning} : Means (.error e) meaning := by
  intro f selected
  exact absurd selected nofun

theorem means_ok {e : Expansion} {meaning : Option Meaning} {operation : Meaning}
    (means : meaning = some operation) (implements : Implements e.instrs operation) :
    Means (.ok e) meaning := by
  intro f selected
  obtain rfl := Except.ok.inj selected
  exact ⟨operation, means, implements⟩

theorem means_bind {α : Type} {x : Except AssemblyError α} {f : α → Selected}
    {meaning : Option Meaning} (next : ∀ a, x = .ok a → Means (f a) meaning) :
    Means (x >>= f) meaning := by
  cases x with
  | error e => exact means_error
  | ok a => exact next a rfl

theorem Means.faithful {selected : Selected} {meaning : Option Meaning}
    (means : Means selected meaning) : Faithful selected meaning :=
  fun e chosen _ => means e chosen

def Clear (ops : List Operand) : Prop := ∀ o ∈ ops, at1 ∉ o.registers

theorem Clear.apart {ops : List Operand} (clear : Clear ops) {r : Reg}
    (named : Operand.gpr r ∈ ops) : r ≠ at1 :=
  Ne.symm (List.ne_of_not_mem_cons (clear _ named))

theorem Clear.base {ops : List Operand} (clear : Clear ops) {r : Reg} (label : Option String)
    (offset : Int) (named : Operand.mem label offset r ∈ ops) : r ≠ at1 :=
  Ne.symm (List.ne_of_not_mem_cons (clear _ named))

section Families

variable {ops : List Operand} {labels : Labels}

theorem faithful_selectReg (op : RegOp) (clear : Clear ops) :
    Faithful (selectReg op ops) ((Mnemonic.reg op).meaning? ops labels) := by
  unfold selectReg
  dsimp only
  split
  · exact faithful_basic
  · next rd rs v =>
    split
    · exact faithful_error
    · next plain =>
      have rdApart : rd ≠ at1 := clear.apart (by simp)
      have rsApart : rs ≠ at1 := clear.apart (by simp)
      rw [not_or] at plain
      have means : (Mnemonic.reg op).meaning? [.gpr rd, .gpr rs, .int v] labels =
          some (assign rd fun m => Alu.reg op (m.regs.read rs) (word v)) := by
        cases op with
        | movn => exact absurd rfl plain.1
        | movz => exact absurd rfl plain.2
        | _ => rfl
      split
      · next form chosen =>
        exact faithful_pseudo means
          (implements_imm rdApart rsApart (imm_immediateForm chosen))
      · refine faithful_bind ?_
        intro load loaded
        exact faithful_pseudo means
          ((loads_constant loaded).implements_reg plain rdApart rsApart)
  · exact faithful_error

/-- In or out of range, an instruction with a constant does the operation on the whole constant. -/
theorem means_selectConstant {op : ImmOp} {rt rs : Reg} {v : Int} (rtApart : rt ≠ at1)
    (rsApart : rs ≠ at1) : Means (selectConstant op rt rs v)
      (some (assign rt fun m => op.operation (m.regs.read rs) (word v))) := by
  unfold selectConstant
  dsimp only
  split
  · next fits =>
    have unsigned : op.isLogical = true → fitsUnsigned16 v := by
      intro logical
      rw [immediateFits, if_pos logical] at fits
      exact of_decide_eq_true fits
    exact means_ok rfl (implements_imm rtApart rsApart (imm_operation unsigned))
  · refine means_bind ?_
    intro load loaded
    have implements :=
      (loads_constant loaded).implements_reg (registerForm_plain op) rtApart rsApart
    simp only [reg_registerForm] at implements
    exact means_ok rfl implements

theorem faithful_selectImm (op : ImmOp) (clear : Clear ops) :
    Faithful (selectImm op ops) ((Mnemonic.imm op).meaning? ops labels) := by
  unfold selectImm
  dsimp only
  split
  · next rt rs v =>
    have rtApart : rt ≠ at1 := clear.apart (by simp)
    have rsApart : rs ≠ at1 := clear.apart (by simp)
    exact (means_selectConstant rtApart rsApart).faithful
  · next rt v =>
    have rtApart : rt ≠ at1 := clear.apart (by simp)
    refine faithful_bind ?_
    intro e selected
    obtain ⟨operation, means, implements⟩ := means_selectConstant rtApart rtApart e selected
    exact faithful_pseudo means implements
  · exact faithful_error

theorem faithful_selectShift (op : ImmOp) (clear : Clear ops) :
    Faithful (selectShift op ops) ((Mnemonic.imm op).meaning? ops labels) := by
  unfold selectShift
  dsimp only
  split
  · split
    · exact faithful_basic
    · exact faithful_error
  · next rd rt rs =>
    have rsApart : rs ≠ at1 := clear.apart (by simp)
    have rdApart : rd ≠ at1 := clear.apart (by simp)
    have rtApart : rt ≠ at1 := clear.apart (by simp)
    have implements :=
      (loads_register rsApart).implements_reg (registerForm_plain op) rdApart rtApart
    simp only [reg_registerForm] at implements
    exact faithful_pseudo rfl implements
  · exact faithful_error

theorem faithful_selectHiLo (op : HiLoOp) (clear : Clear ops) :
    Faithful (selectHiLo op ops) ((Mnemonic.hiLo op).meaning? ops labels) := by
  unfold selectHiLo
  dsimp only
  split
  · exact faithful_basic
  · next rd rs right =>
    have rdApart : rd ≠ at1 := clear.apart (by simp)
    have rsApart : rs ≠ at1 := clear.apart (by simp)
    split
    · next divides =>
      refine faithful_bind ?_
      intro (load, rt) held
      obtain ⟨value, valued, loads⟩ := loads_rightHand held (clear right (by simp))
      have means (unsigned : Bool) : divide? unsigned (·.lo) [.gpr rd, .gpr rs, right] =
          some (divide unsigned (·.lo) rd rs value) := congrArg (Option.map _) valued
      obtain rfl | rfl := divides
      · exact faithful_pseudo (means false)
          (loads.implements_divide rdApart rsApart false (·.lo) fun pc m => rfl)
      · exact faithful_pseudo (means true)
          (loads.implements_divide rdApart rsApart true (·.lo) fun pc m => rfl)
    · exact faithful_error
  · exact faithful_error

theorem labelPlace?_of_labelAddress {name : String} {offset : Int} {a : Word}
    (found : labelAddress labels name offset = .ok a) :
    Operand.labelPlace? labels name offset = some a := by
  unfold labelAddress at found
  unfold Operand.labelPlace?
  split at found
  · next address placed =>
    obtain rfl := Except.ok.inj found
    rw [placed, Option.map_some]
  · exact absurd found nofun

theorem means_selectAccess (m : Mnemonic) {op : MemOp} {data : Fin 32} {place : Operand}
    (apart : op.isFloat = false → data ≠ at1) (clear : at1 ∉ place.registers) :
    Means (selectAccess m op data place labels) ((place.place? labels).map (access op data)) := by
  cases place with
  | mem label offset base =>
    have baseApart : base ≠ at1 := Ne.symm (List.ne_of_not_mem_cons clear)
    cases label with
    | none =>
      unfold selectAccess
      dsimp only
      split
      · refine means_ok rfl ?_
        exact (loads_register baseApart).implements_access apart fun _ => rfl
      · split
        · have implements := implements_wideAccess_base (word offset) apart baseApart
          simp only [BitVec.add_comm (word offset)] at implements
          exact means_ok rfl implements
        · exact means_error
    | some name =>
      refine means_bind ?_
      intro a found
      refine means_ok ?_ (implements_wideAccess_base a apart baseApart)
      rw [Operand.place?, labelPlace?_of_labelAddress found]
      rfl
  | label name offset =>
    refine means_bind ?_
    intro a found
    refine means_ok ?_ (implements_wideAccess a apart)
    rw [Operand.place?, labelPlace?_of_labelAddress found]
    rfl
  | int v =>
    unfold selectAccess
    dsimp only
    split
    · refine means_ok rfl ?_
      exact (loads_register at1_ne_zero.symm).implements_access apart fun _ => BitVec.zero_add _
    · split
      · exact means_ok rfl (implements_wideAccess (word v) apart)
      · exact means_error
  | _ => exact means_error

theorem means_selectMem (m : Mnemonic) (op : MemOp) (clear : Clear ops) :
    Means (selectMem m op ops labels) (access? labels op ops) := by
  unfold selectMem
  split
  · next f place =>
    split
    · next isFloat =>
      refine means_selectAccess m ?_ (clear place (by simp))
      intro notFloat
      exact absurd (isFloat.symm.trans notFloat) nofun
    · exact means_error
  · next r place =>
    have apart : r ≠ at1 := clear.apart (by simp)
    split
    · exact means_error
    · exact means_selectAccess m (fun _ => apart) (clear place (by simp))
  · exact means_error

theorem target?_of_target {m : Mnemonic} {place : Operand} {t : Target}
    (found : target m labels place = .ok t) : place.target? labels = some t.address := by
  cases place with
  | label name offset =>
    cases placed : labelAddress labels name offset with
    | error e => simp [target, placed, bind, Except.bind] at found
    | ok a =>
      simp only [target, placed, bind, Except.bind, pure, Except.pure, Except.ok.injEq] at found
      subst found
      exact labelPlace?_of_labelAddress placed
  | int v =>
    unfold target at found
    dsimp only at found
    split at found
    · obtain rfl := Except.ok.inj found
      rfl
    · exact absurd found nofun
  | _ => exact absurd found nofun

theorem branch?_eq {rs : Reg} {right place : Operand} {value : Machine → Word} {address : Word}
    (condition : Word → Word → Bool) (valued : right.value? = some value)
    (found : place.target? labels = some address) :
    branch? labels condition [.gpr rs, right, place] =
      some (branch (fun m => condition (m.regs.read rs) (value m)) address) := by
  simp only [branch?, valued, found]
  rfl

theorem faithful_selectBranch (op : BranchOp) (clear : Clear ops) :
    Faithful (selectBranch op ops labels) ((Mnemonic.branch op).meaning? ops labels) := by
  unfold selectBranch
  dsimp only
  split
  · next compares =>
    split
    · refine faithful_bind ?_
      intro t _
      exact faithful_basic
    · next rs v place =>
      have rsApart : rs ≠ at1 := clear.apart (by simp)
      refine faithful_bind ?_
      intro load loaded
      refine faithful_bind ?_
      intro t found
      have loads := loads_constant loaded
      cases op with
      | beq =>
        exact faithful_pseudo (branch?_eq (fun a b => a = b) rfl (target?_of_target found))
          (loads.implements_branch rsApart rfl _ taken_beq)
      | bne =>
        exact faithful_pseudo (branch?_eq (fun a b => a ≠ b) rfl (target?_of_target found))
          (loads.implements_branch rsApart rfl _ taken_bne)
      | _ => exact absurd compares nofun
    · exact faithful_error
  · split
    · refine faithful_bind ?_
      intro t _
      exact faithful_basic
    · exact faithful_error

theorem faithful_b :
    Faithful (selectGoto .b (fun t => pseudo [.branch .beq zero zero t]) ops labels)
      (Mnemonic.b.meaning? ops labels) := by
  unfold selectGoto
  split
  · next place =>
    refine faithful_bind ?_
    intro t found
    refine faithful_pseudo (congrArg (Option.map _) (target?_of_target found)) ?_
    intro pc m
    refine ⟨m.regs.read at1, ?_⟩
    rw [Machine.executeAll_branch _ rfl, taken_beq, decide_eq_true rfl, branch]
    simp only [leaves, Machine.setReg_found]
  · exact faithful_error

theorem faithful_selectBranchZero (equal : Bool) (clear : Clear ops) :
    Faithful (selectBranchZero equal ops labels)
      ((Mnemonic.branchZero equal).meaning? ops labels) := by
  unfold selectBranchZero
  dsimp only
  split
  · next rs place =>
    have rsApart : rs ≠ at1 := clear.apart (by simp)
    refine faithful_bind ?_
    intro t found
    have means := congrArg (Option.map
      (branch fun m => decide (decide (m.regs.read rs = 0) = equal))) (target?_of_target found)
    refine faithful_pseudo means ?_
    refine (loads_register at1_ne_zero.symm).implements_branch rsApart ?_
      (fun a b => decide (decide (a = b) = equal)) ?_
    · cases equal <;> rfl
    · intro a b
      cases equal with
      | true => simp [taken_beq]
      | false => simp [taken_bne]
  · exact faithful_error

theorem faithful_selectLi (clear : Clear ops) :
    Faithful (selectLi ops) (Mnemonic.li.meaning? ops labels) := by
  unfold selectLi
  split
  · next rd v =>
    have rdApart : rd ≠ at1 := clear.apart (by simp)
    refine faithful_bind ?_
    intro load loaded
    exact faithful_pseudo rfl (implements_constant rdApart loaded)
  · exact faithful_error

theorem faithful_selectLa (clear : Clear ops)
    (wide : ∀ rd offset base, ops = [.gpr rd, .mem none offset base] → ¬ fitsSigned16 offset) :
    Faithful (selectLa ops labels) (Mnemonic.la.meaning? ops labels) := by
  unfold selectLa
  split
  · next rd name offset =>
    have rdApart : rd ≠ at1 := clear.apart (by simp)
    refine faithful_bind ?_
    intro a found
    refine faithful_pseudo ?_ (implements_address rdApart a)
    change Option.map _ (Option.map _ (Operand.labelPlace? labels name offset)) = _
    rw [labelPlace?_of_labelAddress found]
    rfl
  · next rd v =>
    have rdApart : rd ≠ at1 := clear.apart (by simp)
    refine faithful_bind ?_
    intro load loaded
    exact faithful_pseudo rfl (implements_constant rdApart loaded)
  · next rd offset base =>
    have rdApart : rd ≠ at1 := clear.apart (by simp)
    have baseApart : base ≠ at1 := clear.base none offset (by simp)
    rw [if_neg (wide rd offset base rfl)]
    split
    · have implements := implements_sum (word offset) rdApart baseApart
      simp only [BitVec.add_comm (word offset)] at implements
      exact faithful_pseudo rfl implements
    · exact faithful_error
  · next rd name offset base =>
    have rdApart : rd ≠ at1 := clear.apart (by simp)
    have baseApart : base ≠ at1 := clear.base (some name) offset (by simp)
    refine faithful_bind ?_
    intro a found
    refine faithful_pseudo ?_ (implements_sum a rdApart baseApart)
    change Option.map _ (Option.map _ (Operand.labelPlace? labels name offset)) = _
    rw [labelPlace?_of_labelAddress found]
    rfl
  · exact faithful_error

theorem faithful_selectUnary {m : Mnemonic} {make : Reg → Reg → Instruction}
    {operation : Word → Except Fault Word} (clear : Clear ops)
    (implements : ∀ rd rs, rd ≠ at1 → rs ≠ at1 →
      Implements [make rd rs] (assign rd fun m => operation (m.regs.read rs))) :
    Faithful (selectUnary m make ops) (unary? operation ops) := by
  unfold selectUnary
  split
  · next rd rs =>
    have rdApart : rd ≠ at1 := clear.apart (by simp)
    have rsApart : rs ≠ at1 := clear.apart (by simp)
    exact faithful_pseudo rfl (implements rd rs rdApart rsApart)
  · next rd =>
    have rdApart : rd ≠ at1 := clear.apart (by simp)
    exact faithful_pseudo rfl (implements rd rd rdApart rdApart)
  · exact faithful_error

theorem faithful_selectPair {m : Mnemonic} {make : Reg → Reg → List Instruction}
    {operation : Word → Except Fault Word} (clear : Clear ops)
    (implements : ∀ rd rs, rd ≠ at1 → rs ≠ at1 →
      Implements (make rd rs) (assign rd fun m => operation (m.regs.read rs))) :
    Faithful (selectPair m (fun rd rs => pseudo (make rd rs)) ops) (unary? operation ops) := by
  unfold selectPair
  split
  · next rd rs =>
    have rdApart : rd ≠ at1 := clear.apart (by simp)
    have rsApart : rs ≠ at1 := clear.apart (by simp)
    exact faithful_pseudo rfl (implements rd rs rdApart rsApart)
  · exact faithful_error

theorem faithful_move (clear : Clear ops) :
    Faithful (selectPair .move (fun rd rs => pseudo [.reg .addu rd zero rs]) ops)
      (unary? .ok ops) := by
  refine faithful_selectPair clear ?_
  intro rd rs rdApart rsApart
  have implements : Implements [.reg .addu rd zero rs] _ :=
    (loads_register rsApart).implements_reg ⟨nofun, nofun⟩ rdApart at1_ne_zero.symm
  exact implements.assign_congr fun m => congrArg Except.ok (BitVec.zero_add _)

theorem faithful_neg (clear : Clear ops) :
    Faithful (selectUnary .neg (fun rd rs => .reg .sub rd zero rs) ops)
      (unary? (Alu.subSigned 0) ops) := by
  refine faithful_selectUnary clear ?_
  intro rd rs rdApart rsApart
  exact (loads_register rsApart).implements_reg ⟨nofun, nofun⟩ rdApart at1_ne_zero.symm

theorem faithful_negu (clear : Clear ops) :
    Faithful (selectUnary .negu (fun rd rs => .reg .subu rd zero rs) ops)
      (unary? (fun a => .ok (-a)) ops) := by
  refine faithful_selectUnary clear ?_
  intro rd rs rdApart rsApart
  have implements : Implements [.reg .subu rd zero rs] _ :=
    (loads_register rsApart).implements_reg ⟨nofun, nofun⟩ rdApart at1_ne_zero.symm
  exact implements.assign_congr fun m => congrArg Except.ok (BitVec.zero_sub _)

theorem faithful_not (clear : Clear ops) :
    Faithful (selectUnary .not (fun rd rs => .reg .nor rd rs zero) ops)
      (unary? (fun a => .ok (~~~a)) ops) := by
  refine faithful_selectUnary clear ?_
  intro rd rs rdApart rsApart
  have implements : Implements [.reg .nor rd rs zero] _ :=
    (loads_register at1_ne_zero.symm).implements_reg ⟨nofun, nofun⟩ rdApart rsApart
  exact implements.assign_congr fun m => congrArg (fun a => Except.ok (~~~a)) BitVec.or_zero

theorem faithful_abs (clear : Clear ops) :
    Faithful (selectPair .abs
        (fun rd rs => pseudo [.imm .sra at1 rs 31, .reg .xor rd at1 rs, .reg .subu rd rd at1]) ops)
      (unary? (fun a => .ok (BitVec.ofInt 32 a.toInt.natAbs)) ops) := by
  refine faithful_selectPair clear ?_
  intro rd rs rdApart rsApart
  have mask : Loads [.imm .sra at1 rs 31] at1 fun m => (m.regs.read rs).sshiftRight 31 := by
    intro pc m rest
    refine ⟨(m.regs.read rs).sshiftRight 31, pc + 4, ?_, m.read_setReg_self at1_ne_zero _⟩
    rw [List.singleton_append, m.executeAll_imm_ok rfl]
    rfl
  apply mask.implements_assign rdApart
  intro pc m k held kept
  have xored : Alu.reg .xor (k.regs.read at1) (k.regs.read rs) =
      .ok ((m.regs.read rs).sshiftRight 31 ^^^ m.regs.read rs) := by
    rw [held, kept rs rsApart]
    rfl
  have subtracted (last : Machine)
      (after : last = k.setReg rd ((m.regs.read rs).sshiftRight 31 ^^^ m.regs.read rs)) :
      Alu.reg .subu (last.regs.read rd) (last.regs.read at1) =
        .ok (last.regs.read rd - (m.regs.read rs).sshiftRight 31) := by
    rw [after, k.read_setReg_of_ne rdApart.symm, held]
    rfl
  rw [executeAll_reg_reg (· - (m.regs.read rs).sshiftRight 31) xored subtracted ⟨nofun, nofun⟩
    ⟨nofun, nofun⟩, xor_sub_sign]

theorem faithful_selectSetRelation (relation : SetRelation) (clear : Clear ops) :
    Faithful (selectSetRelation relation ops)
      ((Mnemonic.setRelation relation).meaning? ops labels) := by
  unfold selectSetRelation
  dsimp only
  split
  · next rd rs right =>
    have rdApart : rd ≠ at1 := clear.apart (by simp)
    have rsApart : rs ≠ at1 := clear.apart (by simp)
    refine faithful_bind ?_
    intro (load, rt) held
    obtain ⟨value, valued, loads⟩ := loads_rightHand held (clear right (by simp))
    have means : (Mnemonic.setRelation relation).meaning? [.gpr rd, .gpr rs, right] labels =
        some (assign rd fun m =>
          .ok (Alu.bit (relation.holds (m.regs.read rs) (value m)))) :=
      congrArg (Option.map _) valued
    refine faithful_pseudo means (loads.implements_assign rdApart ?_)
    intro pc m k held kept
    rw [← kept rs rsApart, ← held]
    cases relation with
    | gt unsigned =>
      have ran : executeAll pc [.reg (lessThan unsigned) rd rt rs] k = _ :=
        k.executeAll_reg_ok (lessThan_plain unsigned) (reg_lessThan unsigned _ _)
      exact ran
    | ge unsigned =>
      have ran : executeAll pc [.reg (lessThan unsigned) rd rs rt, .imm .xori rd rd 1] k = _ :=
        executeAll_reg_imm (· ^^^ (1 &&& 0xFFFF)) (reg_lessThan unsigned _ _) (fun _ => rfl)
          (lessThan_plain unsigned)
      rw [bit_lt_xor_one] at ran
      exact ran
    | le unsigned =>
      have ran : executeAll pc [.reg (lessThan unsigned) rd rt rs, .imm .xori rd rd 1] k = _ :=
        executeAll_reg_imm (· ^^^ (1 &&& 0xFFFF)) (reg_lessThan unsigned _ _) (fun _ => rfl)
          (lessThan_plain unsigned)
      rw [bit_lt_xor_one] at ran
      exact ran
    | eq =>
      have ran : executeAll pc [.reg .subu rd rs rt, .imm .sltiu rd rd 1] k = _ :=
        executeAll_reg_imm (fun w => Alu.bit (w.ult 1)) rfl (fun _ => rfl) ⟨nofun, nofun⟩
      rw [sub_ult_one] at ran
      exact ran
    | ne =>
      have ran : executeAll pc [.reg .subu rd rs rt, .reg .sltu rd zero rd] k = _ :=
        executeAll_reg_reg (fun w => Alu.bit ((0 : Word).ult w)) rfl (fun _ _ => rfl)
          ⟨nofun, nofun⟩ ⟨nofun, nofun⟩
      rw [zero_ult_sub] at ran
      exact ran
  · exact faithful_error

theorem faithful_selectBranchRelation (relation : Relation) (unsigned : Bool)
    (clear : Clear ops) : Faithful (selectBranchRelation relation unsigned ops labels)
      ((Mnemonic.branchRelation relation unsigned).meaning? ops labels) := by
  unfold selectBranchRelation
  dsimp only
  split
  · next rs right place =>
    have rsApart : rs ≠ at1 := clear.apart (by simp)
    refine faithful_bind ?_
    intro (load, rt) held
    refine faithful_bind ?_
    intro t found
    obtain ⟨value, valued, loads⟩ := loads_rightHand held (clear right (by simp))
    have means : branch? labels _ [.gpr rs, right, place] = _ := branch?_eq
      (fun a b => relation.holds (number unsigned a) (number unsigned b)) valued
      (target?_of_target found)
    refine faithful_pseudo means ?_
    cases relation with
    | lt =>
      refine loads.implements_compare rsApart true
        (fun a b => Relation.lt.holds (number unsigned a) (number unsigned b)) ?_
      intro k
      exact (beq_true _).symm
    | gt =>
      refine loads.implements_compare rsApart true
        (fun a b => Relation.gt.holds (number unsigned a) (number unsigned b)) ?_
      intro k
      exact (beq_true _).symm
    | le =>
      refine loads.implements_compare rsApart false
        (fun a b => Relation.le.holds (number unsigned a) (number unsigned b)) ?_
      intro k
      exact lt_eq_not_ge _ _
    | ge =>
      refine loads.implements_compare rsApart false
        (fun a b => Relation.ge.holds (number unsigned a) (number unsigned b)) ?_
      intro k
      exact lt_eq_not_ge _ _
  · exact faithful_error

theorem faithful_selectRem (unsigned : Bool) (clear : Clear ops) :
    Faithful (selectRem unsigned ops) ((Mnemonic.rem unsigned).meaning? ops labels) := by
  unfold selectRem
  dsimp only
  split
  · next rd rs right =>
    have rdApart : rd ≠ at1 := clear.apart (by simp)
    have rsApart : rs ≠ at1 := clear.apart (by simp)
    refine faithful_bind ?_
    intro (load, rt) held
    obtain ⟨value, valued, loads⟩ := loads_rightHand held (clear right (by simp))
    exact faithful_pseudo (congrArg (Option.map _) valued)
      (loads.implements_divide rdApart rsApart unsigned (·.hi) fun pc m => rfl)
  · exact faithful_error

theorem faithful_selectSubi (unsigned : Bool) (clear : Clear ops) :
    Faithful (selectSubi unsigned ops) ((Mnemonic.subi unsigned).meaning? ops labels) := by
  unfold selectSubi
  dsimp only
  split
  · next rd rs v =>
    have rdApart : rd ≠ at1 := clear.apart (by simp)
    have rsApart : rs ≠ at1 := clear.apart (by simp)
    cases unsigned with
    | false =>
      split
      · next fits =>
        have value (a : Word) : Alu.imm .addi a (BitVec.ofInt 32 (-v)) = Alu.subSigned a (word v) :=
          addSigned_word_neg fits a
        have implements := implements_imm rdApart rsApart value
        exact faithful_pseudo rfl implements
      · refine faithful_bind ?_
        intro load loaded
        have plain : RegOp.sub ≠ .movn ∧ RegOp.sub ≠ .movz := ⟨nofun, nofun⟩
        have implements := (loads_constant loaded).implements_reg plain rdApart rsApart
        exact faithful_pseudo rfl implements
    | true =>
      split
      · have value (a : Word) : Alu.imm .addiu a (BitVec.ofInt 32 (-v)) = .ok (a - word v) :=
          congrArg Except.ok (add_word_neg a v)
        have implements := implements_imm rdApart rsApart value
        exact faithful_pseudo rfl implements
      · refine faithful_bind ?_
        intro load loaded
        have plain : RegOp.subu ≠ .movn ∧ RegOp.subu ≠ .movz := ⟨nofun, nofun⟩
        have implements := (loads_constant loaded).implements_reg plain rdApart rsApart
        exact faithful_pseudo rfl implements
  · exact faithful_error

theorem faithful_isBasic {m : Mnemonic} (isBasic : m.isBasic = true) {meaning : Option Meaning} :
    Faithful (select m ops labels) meaning := by
  cases m with
  | compare | convert | floatToWord | floatArith | floatUnary | floatMoveIf | floatMoveOnFlag
  | nop | syscall | breakpoint | lui | count | hiLoMove | jump | jr | jalr | branchFlag | moveWord
  | moveOnFlag =>
    simp only [select, selectCompare, selectFloatPair, selectFloatArith, selectFloatMoveIf,
      selectFloatMoveOnFlag, selectBare, selectBreakpoint, selectLui, selectPair, selectHiLoMove,
      selectGoto, selectJumpReg, selectCallReg, selectBranchFlag, selectMoveWord, selectMoveOnFlag]
    -- Each accepted shape of operands gives one basic instruction, perhaps after a flag or target.
    repeat' split
    all_goals first
      | exact faithful_error
      | exact faithful_basic
      | exact faithful_bind fun _ _ => faithful_basic
      | exact faithful_bind fun _ _ => faithful_bind fun _ _ => faithful_basic
  | _ => exact Bool.noConfusion isBasic

/-- Every selection of a pseudo-instruction carries out its meaning, `la` with a displacement that
fits into sixteen bits apart. -/
theorem faithful_select (m : Mnemonic) (clear : Clear ops)
    (wide : m = .la → ∀ rd offset base, ops = [.gpr rd, .mem none offset base] →
      ¬ fitsSigned16 offset) :
    Faithful (select m ops labels) (m.meaning? ops labels) := by
  cases m with
  | reg op => exact faithful_selectReg op clear
  | imm op =>
    unfold select
    dsimp only
    split
    · exact faithful_selectShift op clear
    · exact faithful_selectImm op clear
  | hiLo op => exact faithful_selectHiLo op clear
  | mem op => exact (means_selectMem _ op clear).faithful
  | dottedMem op =>
    refine faithful_bind ?_
    intro e selected
    obtain ⟨operation, means, implements⟩ := means_selectMem _ op clear e selected
    exact faithful_pseudo means implements
  | branch op => exact faithful_selectBranch op clear
  | li => exact faithful_selectLi clear
  | la => exact faithful_selectLa clear (wide rfl)
  | move => exact faithful_move clear
  | neg => exact faithful_neg clear
  | negu => exact faithful_negu clear
  | not => exact faithful_not clear
  | abs => exact faithful_abs clear
  | b => exact faithful_b
  | branchZero equal => exact faithful_selectBranchZero equal clear
  | branchRelation relation unsigned => exact faithful_selectBranchRelation relation unsigned clear
  | setRelation relation => exact faithful_selectSetRelation relation clear
  | rem unsigned => exact faithful_selectRem unsigned clear
  | subi unsigned => exact faithful_selectSubi unsigned clear
  | _ => exact faithful_isBasic rfl

end Families

theorem expand_eq_select {name : String} {args : List String} {labels : Labels}
    {ops : List Operand} {m : Mnemonic} (classified : operands args = .ok ops)
    (found : Mnemonic.ofName? name.toLower = some m) :
    expand name args labels = select m ops labels := by
  unfold expand
  rw [classified, found]
  rfl

theorem faithful_expand {name : String} {args : List String} {labels : Labels} {ops : List Operand}
    (classified : operands args = .ok ops) (clear : Clear ops)
    (wide : name.toLower = "la" → ∀ rd offset base, ops = [.gpr rd, .mem none offset base] →
      ¬ fitsSigned16 offset) :
    Faithful (expand name args labels) (meaning? name ops labels) := by
  unfold meaning?
  cases found : Mnemonic.ofName? name.toLower with
  | none =>
    unfold expand
    rw [classified, found]
    exact faithful_error
  | some mnemonic =>
    rw [expand_eq_select classified found]
    have named : mnemonic.name = name.toLower := by
      unfold Mnemonic.ofName? at found
      simpa using List.find?_some found
    have isLa : mnemonic = .la → name.toLower = "la" := by
      rintro rfl
      exact named.symm
    exact faithful_select mnemonic clear (wide ∘ isLa)

theorem straight_expand {name : String} {args : List String} {labels : Labels} {e : Expansion}
    (expanded : expand name args labels = .ok e) (isPseudo : e.pseudo = true) :
    e.instrs.all Instruction.isStraight = true := by
  cases classified : operands args with
  | error f =>
    unfold expand at expanded
    rw [classified] at expanded
    exact absurd expanded nofun
  | ok ops =>
    cases found : Mnemonic.ofName? name.toLower with
    | none =>
      unfold expand at expanded
      rw [classified, found] at expanded
      exact absurd expanded nofun
    | some m =>
      rw [expand_eq_select classified found] at expanded
      cases kind : m.isBasic with
      | true =>
        have basic : Faithful (select m ops labels) none := faithful_isBasic kind
        obtain ⟨_, means, -⟩ := basic e expanded isPseudo
        exact absurd means nofun
      | false => exact straight_select kind e expanded

/-- Pseudo-instructions do what they mean. Whatever line expands to a pseudo-instruction, with any
operands but `$at`, has a meaning; and executing its expansion, from any address and on any
machine, ends as that operation does: in the same machine, with the same control or fault, except
for what is left in `$at`. -/
theorem expand_means {name : String} {args : List String} {labels : Labels} {ops : List Operand}
    {e : Expansion} (classified : operands args = .ok ops)
    (clear : ∀ o ∈ ops, at1 ∉ o.registers)
    (wide : name.toLower = "la" → ∀ rd offset base, ops = [.gpr rd, .mem none offset base] →
      ¬ fitsSigned16 offset)
    (expanded : expand name args labels = .ok e) (isPseudo : e.pseudo = true) :
    ∃ operation, meaning? name ops labels = some operation ∧
      ∀ pc m, ∃ scratch, executeAll pc e.instrs m =
        match operation m with
        | .ok (k, control) => .ok control (k.setReg at1 scratch)
        | .error f => .error f (m.setReg at1 scratch) := by
  have faithful : Faithful (expand name args labels) (meaning? name ops labels) :=
    faithful_expand classified clear wide
  obtain ⟨operation, means, implements⟩ := faithful e expanded isPseudo
  exact ⟨operation, means, implements⟩

theorem expand_means_sge :
    expand "sge" ["$t0", "$t1", "70000"] (fun _ => none) =
        .ok ⟨[.lui 1 1, .imm .ori 1 1 4464, .reg .slt 8 9 1, .imm .xori 8 8 1], true⟩ ∧
      ∃ operation, meaning? "sge" [.gpr 8, .gpr 9, .int 70000] (fun _ => none) = some operation ∧
        ∀ pc m, ∃ scratch,
          executeAll pc [.lui 1 1, .imm .ori 1 1 4464, .reg .slt 8 9 1, .imm .xori 8 8 1] m =
            match operation m with
            | .ok (k, control) => .ok control (k.setReg at1 scratch)
            | .error f => .error f (m.setReg at1 scratch) := by
  have classified : operands ["$t0", "$t1", "70000"] = .ok [.gpr 8, .gpr 9, .int 70000] := by rfl
  have found : Mnemonic.ofName? "sge".toLower = some (.setRelation (.ge false)) := by decide +kernel
  have expanded : expand "sge" ["$t0", "$t1", "70000"] (fun _ => none) =
      .ok ⟨[.lui 1 1, .imm .ori 1 1 4464, .reg .slt 8 9 1, .imm .xori 8 8 1], true⟩ := by
    rw [expand_eq_select classified found]
    rfl
  have clear : ∀ o ∈ [Operand.gpr 8, .gpr 9, .int 70000], at1 ∉ o.registers := by decide
  exact ⟨expanded, expand_means classified clear (fun _ _ _ _ => nofun) expanded rfl⟩

end MipsLab
