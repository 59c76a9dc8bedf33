import MipsLab.Proofs.Run.Executed

/-! Where faults come from. Reading, calculating and writing raise faults of their own; that there
is no instruction, and that the limit is reached, is only ever found out by the run itself, before
it executes anything. -/
namespace MipsLab

/-- A fault of the work of an instruction, and not of the run around it. -/
def Fault.isPlain : Fault → Bool
  | .invalidProgramCounter _ | .instructionLimit _ => false
  | _ => true

section Plain

variable {α β : Type}

/-- A value, or a fault of the work itself. -/
def Fault.Plain (x : Except Fault α) : Prop := ∀ f, x = .error f → f.isPlain = true

open Fault (Plain)

theorem plain_ok (a : α) : Plain (.ok a) := fun _ => nofun

theorem plain_error {f : Fault} (holds : f.isPlain = true) : Plain (.error f : Except Fault α) := by
  rintro _ ⟨⟩
  exact holds

theorem plain_bind {x : Except Fault β} {next : β → Except Fault α} (first : Plain x)
    (later : ∀ b, Plain (next b)) : Plain (x >>= next) := by
  cases x with
  | ok b => exact later b
  | error f => exact plain_error (first f rfl)

theorem plain_map {x : Except Fault β} {change : β → α} (plain : Plain x) :
    Plain (x.map change) := by
  cases x with
  | ok b => exact plain_ok (change b)
  | error f => exact plain_error (plain f rfl)

theorem plain_forM {items : List β} {check : β → Except Fault PUnit}
    (each : ∀ b, Plain (check b)) : Plain (items.forM check) := by
  induction items with
  | nil => exact plain_ok _
  | cons b rest ih => exact plain_bind (each b) fun _ => ih

namespace Memory

variable (m : Memory) (a : Word)

theorem plain_check (width : Nat) : Plain (check a width) := by
  unfold check
  split
  · exact plain_error rfl
  · split
    · exact plain_ok ()
    · exact plain_error rfl

theorem plain_read (w : Width) : Plain (m.read a w) :=
  plain_bind (plain_check a _) fun _ => plain_ok _

theorem plain_write (w : Width) (value : Nat) : Plain (m.write a w value) :=
  plain_bind (plain_check a _) fun _ => plain_ok _

theorem plain_readBytes (n : Nat) : Plain (m.readBytes a n) := by
  have from_ (before : List Byte) : Plain (m.readBytesFrom before n a) := by
    induction n generalizing before a with
    | zero => exact plain_ok _
    | succ n ih => exact plain_bind (plain_map (m.plain_read a .byte)) fun b => ih (a + 1) _
  exact from_ []

theorem plain_writeBytes (bytes : List Byte) : Plain (m.writeBytes a bytes) :=
  plain_bind (plain_forM fun _ => plain_check _ 1) fun _ => plain_ok _

theorem plain_readStringTo (limit : Nat) : Plain (m.readStringTo limit a) := by
  induction limit generalizing a with
  | zero => exact plain_ok _
  | succ limit ih =>
    refine plain_bind (plain_map (m.plain_read a .byte)) fun b => ?_
    split
    · exact plain_ok _
    · exact plain_bind (ih (a + 1)) fun _ => plain_ok _

theorem plain_extendHeap (amount : Word) : Plain (m.extendHeap amount) := by
  unfold extendHeap
  split
  · exact plain_error rfl
  · dsimp only
    split
    · exact plain_ok _
    · exact plain_error rfl

end Memory

namespace Registers

theorem plain_checkPair (i : Nat) : Plain (checkPair i) := by
  unfold checkPair
  split
  · exact plain_ok ()
  · exact plain_error rfl

theorem plain_readDouble (r : Registers) (i : Nat) : Plain (r.readDouble i) :=
  plain_bind (plain_checkPair i) fun _ => plain_ok _

theorem plain_writeDouble (r : Registers) (i : Nat) (value : BitVec 64) :
    Plain (r.writeDouble i value) :=
  plain_bind (plain_checkPair i) fun _ => plain_ok _

end Registers

namespace Alu

theorem plain_addSigned (a b : Word) : Plain (addSigned a b) := by
  unfold addSigned
  split
  · exact plain_error rfl
  · exact plain_ok _

theorem plain_reg (op : RegOp) (a b : Word) : Plain (reg op a b) := by
  cases op with
  | add => exact plain_addSigned a b
  | sub =>
    change Plain (subSigned a b)
    unfold subSigned
    split
    · exact plain_error rfl
    · exact plain_ok _
  | _ => exact plain_ok _

theorem plain_imm (op : ImmOp) (a value : Word) : Plain (imm op a value) := by
  cases op with
  | addi => exact plain_addSigned a value
  | _ => exact plain_ok _

theorem plain_hiLo (op : HiLoOp) (a b : Word) (old : HiLo) : Plain (hiLo op a b old) := by
  cases op with
  | div | divu =>
    unfold hiLo
    dsimp only
    split
    · exact plain_error rfl
    · exact plain_ok _
  | _ => exact plain_ok _

end Alu

end Plain

open Fault (Plain)

namespace Exec

variable {σ α β : Type}

/-- Work that raises only faults of its own. -/
def RaisesPlain (work : Exec σ α) : Prop := ∀ s f t, work s = .error f t → f.isPlain = true

theorem raises_pure (a : α) : RaisesPlain (pure a : Exec σ α) := fun _ _ _ => nofun

theorem raises_throw {f : Fault} (plain : f.isPlain = true) :
    RaisesPlain (throw f : Exec σ α) := by
  rintro s _ _ ⟨⟩
  exact plain

theorem raises_get : RaisesPlain (get : Exec σ σ) := fun _ _ _ => nofun

theorem raises_set (s : σ) : RaisesPlain (set s : Exec σ PUnit) := fun _ _ _ => nofun

theorem raises_modify (change : σ → σ) : RaisesPlain (modify change : Exec σ PUnit) :=
  fun _ _ _ => nofun

theorem raises_bind {work : Exec σ β} {next : β → Exec σ α} (first : RaisesPlain work)
    (later : ∀ b, RaisesPlain (next b)) : RaisesPlain (work >>= next) := by
  intro s f t raised
  cases ran : work s with
  | ok b k =>
    rw [bind_ok ran] at raised
    exact later b k f t raised
  | error g k =>
    rw [bind_error ran] at raised
    cases raised
    exact first s f t ran

/-- Behind a look at the state it is enough to know what is done with any state. -/
theorem raises_look {next : σ → Exec σ α} (later : ∀ s, RaisesPlain (next s)) :
    RaisesPlain (get >>= next) := raises_bind raises_get later

theorem raises_require {x : Except Fault α} (plain : Plain x) :
    RaisesPlain (require x : Exec σ α) := by
  cases x with
  | ok a => exact raises_pure a
  | error f => exact raises_throw (plain f rfl)

theorem raises_update {change : σ → Except Fault σ} (plain : ∀ s, Plain (change s)) :
    RaisesPlain (update change) :=
  raises_look fun s => raises_bind (raises_require (plain s)) fun t => raises_set t

theorem raises_onlyIf {condition : Prop} [Decidable condition] {work : Exec σ Unit}
    (plain : RaisesPlain work) : RaisesPlain (onlyIf condition work) := by
  unfold onlyIf
  split
  · exact plain
  · exact raises_pure ()

end Exec

open Exec

namespace Machine

variable (m : Machine)

theorem plain_setDouble (r : FReg) (value : BitVec 64) : Plain (m.setDouble r value) :=
  plain_map (m.regs.plain_writeDouble r value)

theorem plain_store (a : Word) (w : Width) (value : Nat) : Plain (m.store a w value) :=
  plain_map (m.mem.plain_write a w value)

theorem plain_storeBytes (a : Word) (bytes : List Byte) : Plain (m.storeBytes a bytes) :=
  plain_map (m.mem.plain_writeBytes a bytes)

theorem plain_asDouble (format : NumberFormat) (r : FReg) : Plain (m.asDouble format r) := by
  cases format with
  | word | single => exact plain_ok _
  | double => exact plain_map (m.regs.plain_readDouble r)

theorem plain_compareFloats (cond : Cond) (fmt : Precision) (fs ft : FReg) :
    Plain (m.compareFloats cond fmt fs ft) := by
  cases fmt with
  | single => exact plain_ok _
  | double =>
    exact plain_bind (m.regs.plain_readDouble fs) fun _ =>
      plain_bind (m.regs.plain_readDouble ft) fun _ => plain_ok _

theorem raises_setDouble (r : FReg) (value : BitVec 64) :
    RaisesPlain (update fun m : Machine => m.setDouble r value) :=
  raises_update fun m => m.plain_setDouble r value

theorem raises_moveFloat (fmt : Precision) (fd fs : FReg) : RaisesPlain (moveFloat fmt fd fs) := by
  refine raises_look fun m => ?_
  cases fmt with
  | single => exact raises_modify _
  | double =>
    exact raises_bind (raises_require (m.regs.plain_readDouble fs)) fun _ => raises_setDouble fd _

theorem raises_executeArith (op : FloatOp) (fmt : Precision) (fd fs ft : FReg) :
    RaisesPlain (executeArith op fmt fd fs ft) := by
  refine raises_look fun m => ?_
  cases fmt with
  | single => exact raises_modify _
  | double =>
    exact raises_bind (raises_require (m.regs.plain_readDouble fs)) fun _ =>
      raises_bind (raises_require (m.regs.plain_readDouble ft)) fun _ => raises_setDouble fd _

theorem raises_executeUnary (op : FloatUnary) (fmt : Precision) (fd fs : FReg) :
    RaisesPlain (executeUnary op fmt fd fs) := by
  refine raises_look fun m => ?_
  cases fmt with
  | single => exact raises_modify _
  | double =>
    exact raises_bind (raises_require (m.regs.plain_readDouble fs)) fun _ => raises_setDouble fd _

theorem raises_executeConvert (target source : NumberFormat) (fd fs : FReg) :
    RaisesPlain (executeConvert target source fd fs) := by
  refine raises_look fun m => raises_bind (raises_require (m.plain_asDouble source fs)) fun x => ?_
  cases target with
  | word | single => exact raises_modify _
  | double => exact raises_setDouble fd _

theorem raises_executeMem (op : MemOp) (data : Fin 32) (a : Word) :
    RaisesPlain (executeMem op data a) := by
  have stored (w : Width) (value : Nat) :
      RaisesPlain (update fun m : Machine => m.store a w value) :=
    raises_update fun m => m.plain_store a w value
  refine raises_look fun m => ?_
  cases op with
  | lw | lh | lhu | lb | lbu | lwc1 =>
    exact raises_bind (raises_require (plain_map (m.mem.plain_read a _))) fun _ => raises_modify _
  | sw | sh | sb | swc1 => exact stored _ _
  | ldc1 =>
    refine raises_bind (raises_require (Registers.plain_checkPair data)) fun _ => ?_
    exact raises_bind (raises_require (plain_map (m.mem.plain_read a .double))) fun _ =>
      raises_setDouble data _
  | sdc1 =>
    exact raises_bind (raises_require (m.regs.plain_readDouble data)) fun _ => stored .double _

theorem raises_writeLink (pc : Word) (r : Option Reg) : RaisesPlain (writeLink pc r) := by
  cases r with
  | none => exact raises_pure ()
  | some r => exact raises_modify _

/-- Nothing that the machine executes looks for instructions or counts them. -/
theorem raises_execute (pc : Word) (i : Instruction) : RaisesPlain (execute pc i) := by
  have next {work : Exec Machine Unit} (plain : RaisesPlain work) :
      RaisesPlain (do work; return Control.next) := raises_bind plain fun _ => raises_pure _
  cases i with
  | nop | syscall | breakpoint => exact raises_pure _
  | lui | count => exact next (raises_modify _)
  | reg op rd rs rt =>
    refine next (raises_look fun m => ?_)
    exact raises_bind (raises_require (Alu.plain_reg op _ _)) fun _ =>
      raises_onlyIf (raises_modify _)
  | imm op rt rs value =>
    exact raises_look fun m => raises_bind (raises_require (Alu.plain_imm op _ _)) fun _ =>
      next (raises_modify _)
  | hiLo op rs rt =>
    exact raises_look fun m => raises_bind (raises_require (Alu.plain_hiLo op _ _ _)) fun _ =>
      next (raises_modify _)
  | hiLoMove op r =>
    refine next ?_
    cases op <;> exact raises_modify _
  | jump link target => exact raises_bind (raises_writeLink pc _) fun _ => raises_pure _
  | jumpReg link rs =>
    exact raises_look fun m => raises_bind (raises_writeLink pc _) fun _ => raises_pure _
  | branch op rs rt target =>
    exact raises_look fun m => raises_bind (raises_writeLink pc _) fun _ => raises_pure _
  | branchFlag expected flag target => exact raises_look fun m => raises_pure _
  | floatArith op fmt fd fs ft => exact next (raises_executeArith op fmt fd fs ft)
  | floatUnary op fmt fd fs => exact next (raises_executeUnary op fmt fd fs)
  | floatToWord mode fmt fd fs =>
    exact raises_look fun m => raises_bind (raises_require (m.plain_asDouble _ fs)) fun _ =>
      next (raises_modify _)
  | convert target source fd fs => exact next (raises_executeConvert target source fd fs)
  | compare cond fmt flag fs ft =>
    exact raises_look fun m =>
      raises_bind (raises_require (m.plain_compareFloats cond fmt fs ft)) fun _ =>
        next (raises_modify _)
  | moveWord toFloat rt fs => cases toFloat <;> exact next (raises_modify _)
  | floatMoveIf nonzero fmt fd fs rt =>
    exact raises_look fun m => next (raises_onlyIf (raises_moveFloat fmt fd fs))
  | moveOnFlag expected rd rs flag =>
    exact raises_look fun m => next (raises_onlyIf (raises_modify _))
  | floatMoveOnFlag expected fmt fd fs flag =>
    exact raises_look fun m => next (raises_onlyIf (raises_moveFloat fmt fd fs))
  | mem op data base offset => exact raises_look fun m => next (raises_executeMem op data _)

end Machine

theorem plain_capture (m : Machine) (pc : Word) (i : Instruction) :
    Plain (Change.capture m pc i) := by
  have pair (r : FReg) : Plain (Prior.ofDouble m r) :=
    plain_bind (Registers.plain_checkPair r) fun _ => plain_ok _
  have either (fmt : Precision) (r : FReg) : Plain (Prior.ofPrecision m fmt r) := by
    cases fmt with
    | single => exact plain_ok _
    | double => exact pair r
  refine plain_map ?_
  unfold Prior.of
  split
  all_goals try exact plain_ok _
  all_goals try exact either _ _
  · exact pair _
  · split
    · exact plain_ok _
    · split
      · exact plain_ok _
      · exact pair _
      · exact plain_ok _

theorem Station.raises_onMachine {α : Type} {work : Exec Machine α} (plain : RaisesPlain work) :
    RaisesPlain (onMachine work) := by
  intro s f t raised
  unfold onMachine at raised
  split at raised
  · cases raised
  · next g k ran =>
    cases raised
    exact plain s.machine f k ran

namespace Syscall

open Station (onMachine raises_onMachine)

theorem raises_printing {text : Except Fault String} (plain : Plain text) :
    RaisesPlain (printing text) :=
  raises_bind (raises_require plain) fun _ => raises_bind (raises_modify _) fun _ => raises_pure _

theorem raises_answer (value : Word) : RaisesPlain (answer value) :=
  raises_bind (raises_onMachine (raises_modify _)) fun _ => raises_pure _

theorem raises_reading {use : String → Exec Machine Unit} (plain : ∀ text, RaisesPlain (use text)) :
    RaisesPlain (reading use) := by
  have taken : RaisesPlain takeInput :=
    raises_look fun s => raises_bind (raises_set _) fun _ => raises_pure _
  refine raises_bind taken fun delivered => ?_
  cases delivered with
  | none => exact raises_pure _
  | some text => exact raises_bind (raises_onMachine (plain text)) fun _ => raises_pure _

theorem plain_parsed {α : Type} (parse : List Char → Option α) (text : String) :
    Plain (parsed parse text) := by
  unfold parsed
  split
  · exact plain_ok _
  · exact plain_error rfl

theorem raises_readInt (text : String) : RaisesPlain (readInt text) :=
  raises_bind (raises_require (plain_parsed _ text)) fun _ => raises_modify _

theorem raises_readFloat (text : String) : RaisesPlain (readFloat text) :=
  raises_bind (raises_require (plain_parsed _ text)) fun _ => raises_modify _

theorem raises_readDouble (text : String) : RaisesPlain (readDouble text) :=
  raises_bind (raises_require (plain_parsed _ text)) fun _ => Machine.raises_setDouble _ _

theorem raises_readChar (text : String) : RaisesPlain (readChar text) := by
  unfold readChar
  split
  · exact raises_throw rfl
  · exact raises_modify _

theorem raises_readString (text : String) : RaisesPlain (readString text) := by
  refine raises_look fun m => ?_
  split
  · exact raises_pure ()
  · exact raises_update fun k => k.plain_storeBytes _ _

theorem raises_deliver (bytes : List Byte) : RaisesPlain (deliver bytes) :=
  raises_look fun _ => raises_bind (raises_update fun m => m.plain_storeBytes _ _) fun _ =>
    raises_modify _

theorem raises_extendHeap : RaisesPlain extendHeap :=
  raises_look fun m => raises_bind (raises_require (m.mem.plain_extendHeap _)) fun _ =>
    raises_bind (raises_modify _) fun _ => raises_modify _

theorem raises_openFile : RaisesPlain openFile :=
  raises_look fun s => raises_bind (raises_require (s.machine.mem.plain_readStringTo _ _)) fun _ =>
    raises_bind (raises_modify _) fun _ => raises_answer _

theorem raises_readFile : RaisesPlain readFile := by
  refine raises_look fun s => ?_
  dsimp only
  split
  · exact raises_answer _
  · split
    · exact raises_reading fun text => raises_deliver _
    · split
      · exact raises_answer _
      · exact raises_bind (raises_modify _) fun _ =>
          raises_bind (raises_onMachine (raises_deliver _)) fun _ => raises_pure _

theorem raises_writeFile : RaisesPlain writeFile := by
  refine raises_look fun s =>
    raises_bind (raises_require (s.machine.mem.plain_readBytes _ _)) fun data => ?_
  split
  · exact raises_bind (raises_modify _) fun _ => raises_answer _
  · split
    · exact raises_bind (raises_modify _) fun _ => raises_answer _
    · exact raises_answer _

theorem plain_dumpLines (m : Memory) (count : Nat) (a : Word) : Plain (dumpLines m count a) := by
  induction count generalizing a with
  | zero => exact plain_ok _
  | succ count ih =>
    exact plain_bind (plain_map (m.plain_read a .word)) fun _ =>
      plain_bind (ih (a + 4)) fun _ => plain_ok _

theorem raises_serve (service : Service) : RaisesPlain (serve service) := by
  refine raises_look fun s => ?_
  cases service with
  | printInt | printFloat | printChar | printHex | printBinary | printUnsigned =>
    exact raises_printing (plain_ok _)
  | printDouble => exact raises_printing (plain_map (s.machine.regs.plain_readDouble _))
  | printString => exact raises_printing (plain_map (s.machine.mem.plain_readStringTo _ _))
  | dumpMemory => exact raises_printing (plain_map (plain_dumpLines _ _ _))
  | readInt => exact raises_reading raises_readInt
  | readFloat => exact raises_reading raises_readFloat
  | readDouble => exact raises_reading raises_readDouble
  | readChar => exact raises_reading raises_readChar
  | readString => exact raises_reading raises_readString
  | extendHeap => exact raises_bind (raises_onMachine raises_extendHeap) fun _ => raises_pure _
  | exit | exitWith => exact raises_pure _
  | openFile => exact raises_openFile
  | readFile => exact raises_readFile
  | writeFile => exact raises_writeFile
  | closeFile => exact raises_bind (raises_set _) fun _ => raises_pure _

theorem raises_perform : RaisesPlain perform := by
  refine raises_look fun s => ?_
  dsimp only
  split
  · exact raises_serve _
  · exact raises_throw rfl

end Syscall

namespace Run

theorem raises_react (pc : Word) (i : Instruction) : RaisesPlain (react pc i) := by
  by_cases call : i = .syscall
  · subst call
    exact Syscall.raises_perform
  · rw [react_work call]
    exact Station.raises_onMachine (Machine.raises_execute pc i)

theorem plain_executeEntry (r : Run) (pc : Word) (entry : TextEntry) {e : RunError}
    (failed : (r.executeEntry pc entry).1 = .error e) : e.fault.isPlain = true := by
  unfold executeEntry at failed
  split at failed
  · next f taken =>
    cases failed
    exact plain_capture r.machine pc entry.instr f taken
  · split at failed
    · next f s ran =>
      cases failed
      exact raises_react pc entry.instr r.station f s ran
    · cases failed
    · cases failed

/-- The ways through a tick: it stops before an entry, or the debugger or the limit stops it there,
or it goes on to execute the entry. -/
inductive Ways (r : Run) : TickResult × Run → Prop
  | ended (ended : r.ended = true) : Ways r (.ok .finished, r)
  | pastEnd (running : r.ended = false) (past : r.program.isPastEnd r.pc = true) :
      Ways r (.ok .finished, r.finish true)
  | astray (running : r.ended = false) (inside : r.program.isPastEnd r.pc = false)
      (missing : r.entry? = none) : Ways r (r.fail r.pc (.invalidProgramCounter r.pc))
  | pausing (entry : TextEntry) (found : r.next? = some entry) : Ways r (.ok .paused, { r with
      debugger := (r.debugger.shouldBreak entry).2, skipCheck := true }.emit (.paused r.pc))
  | exhausted (limit : Nat) (reached : r.reachedLimit? = some limit) :
      Ways r (r.fail r.pc (.instructionLimit limit))
  | executing (entry : TextEntry) (found : r.next? = some entry)
      (allowed : r.reachedLimit? = none) : Ways r (r.executeEntry r.pc entry)

theorem ways_tick (r : Run) : r.Ways r.tick := by
  cases running : r.ended with
  | true =>
    rw [tick_ended running]
    exact .ended running
  | false =>
    cases past : r.program.isPastEnd r.pc with
    | true =>
      rw [tick_pastEnd running past]
      exact .pastEnd running past
    | false =>
      cases fetched : r.entry? with
      | none =>
        rw [tick_astray running past fetched]
        exact .astray running past fetched
      | some entry =>
        have found : r.next? = some entry := by simp [next?, past, fetched]
        cases pauses : r.pausesAt entry with
        | true =>
          rw [tick_pausing running found pauses]
          exact .pausing entry found
        | false =>
          rw [tick_passing running found pauses, passEntry]
          split
          · next limit reached => exact .exhausted limit reached
          · next allowed => exact .executing entry found allowed

/-- Why a tick fails. Before an instruction is executed there may be none, or none more allowed;
after that the fault is one of the instruction. -/
inductive Fails (r : Run) : Fault → Prop
  | astray (running : r.ended = false) (inside : r.program.isPastEnd r.pc = false)
      (missing : r.entry? = none) : Fails r (.invalidProgramCounter r.pc)
  | exhausted (limit : Nat) (reached : r.reachedLimit? = some limit) :
      Fails r (.instructionLimit limit)
  | executing (entry : TextEntry) (found : r.next? = some entry) (fault : Fault)
      (plain : fault.isPlain = true) : Fails r fault

theorem fails_tick {r : Run} {e : RunError} (failed : r.tick.1 = .error e) : r.Fails e.fault := by
  have ways := r.ways_tick
  generalize r.tick = outcome at ways failed
  cases ways with
  | ended | pastEnd | pausing => cases failed
  | astray running inside missing =>
    cases failed
    exact .astray running inside missing
  | exhausted limit reached =>
    cases failed
    exact .exhausted limit reached
  | executing entry found =>
    exact .executing entry found e.fault (r.plain_executeEntry r.pc entry failed)

end Run

end MipsLab
