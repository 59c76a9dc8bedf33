import MipsLab.Proofs.Exec.Contract
import MipsLab.Proofs.Machine.Restore

/-! Filler. A byte that was never written reads as zero or as filler, and only a read can tell
which. The bytes that an instruction reads are kept apart here from those that are merely found, as
for a change record: where all of the former have been written, the instruction does the same under
either filling. A record may hold filler, but never puts it into memory. -/
namespace MipsLab

open Exec

namespace Exec

variable {σ α β γ : Type} {change : σ → σ} {s : σ}

theorem framed_found {x y : Except Fault β} {f h : β → Exec σ α} (same : x = y)
    (next : ∀ b, Framed change s (f b) (h b)) :
    Framed change s (require x >>= f) (require y >>= h) := by
  rw [same]
  exact framed_require y next

theorem framed_found_map {x : Except Fault γ} {y : Except Fault β} {f : γ → Exec σ α}
    {h : β → Exec σ α} {into : β → γ} (same : x = y.map into)
    (next : ∀ b, Framed change s (f (into b)) (h b)) :
    Framed change s (require x >>= f) (require y >>= h) := by
  rw [same]
  cases y with
  | error e => rfl
  | ok b => exact next b

end Exec

namespace Memory

/-- What a byte that was never written reads as. -/
def filling (garbage : Bool) (a : Word) : Byte := if garbage then filler a else 0

def withGarbage (m : Memory) (g : Bool) : Memory := { m with garbage := g }

/-- All of these bytes have been written. -/
def Known (m : Memory) (places : List Word) : Prop := ∀ a ∈ places, m.isWritten a = true

instance (m : Memory) (places : List Word) : Decidable (m.Known places) :=
  inferInstanceAs (Decidable (∀ a ∈ places, _))

theorem known_nil (m : Memory) : m.Known [] := fun _ member => absurd member List.not_mem_nil

end Memory

/-- A cell as it is found under another filling. -/
def Cell.refill (g : Bool) (c : Cell) : Cell :=
  if c.written then c else { c with value := Memory.filling g c.address }

namespace Memory

section Bytes

variable (m : Memory) (g : Bool)

theorem peek_withGarbage {m : Memory} {a : Word} (written : m.isWritten a = true) :
    (m.withGarbage g).peek a = m.peek a := by
  unfold isWritten at written
  rw [Std.ExtTreeMap.contains_eq_isSome_getElem?] at written
  obtain ⟨b, here⟩ := Option.isSome_iff_exists.mp written
  change (m.bytes[a]?).getD _ = (m.bytes[a]?).getD _
  rw [here, Option.getD_some, Option.getD_some]

theorem peek_unwritten {m : Memory} {a : Word} (unwritten : m.isWritten a = false) :
    m.peek a = filling m.garbage a := by
  unfold isWritten at unwritten
  rw [Std.ExtTreeMap.contains_eq_isSome_getElem?, Option.isSome_eq_false_iff,
    Option.isNone_iff_eq_none] at unwritten
  rw [peek, unwritten, Option.getD_none]
  rfl

theorem peekBytes_withGarbage {m : Memory} {a : Word} {n : Nat} (known : m.Known (addresses a n)) :
    (m.withGarbage g).peekBytes a n = m.peekBytes a n := by
  unfold peekBytes
  refine List.map_congr_left fun i inside => peek_withGarbage g (known _ ?_)
  exact List.mem_map.mpr ⟨i, inside, rfl⟩

theorem pokeBytes_withGarbage (a : Word) (bytes : List Byte) :
    (m.withGarbage g).pokeBytes a bytes = (m.pokeBytes a bytes).withGarbage g := by
  induction bytes generalizing m a with
  | nil => rfl
  | cons b rest ih => exact ih (m.poke a b) (a + 1)

theorem write_withGarbage (a : Word) (w : Width) (value : Nat) :
    (m.withGarbage g).write a w value = (m.write a w value).map (·.withGarbage g) := by
  unfold write
  cases check a w.bytes with
  | error f => rfl
  | ok _ => exact congrArg Except.ok (m.pokeBytes_withGarbage g a _)

theorem writeBytes_withGarbage (a : Word) (bytes : List Byte) :
    (m.withGarbage g).writeBytes a bytes = (m.writeBytes a bytes).map (·.withGarbage g) := by
  unfold writeBytes
  cases (List.range bytes.length).forM fun i => check (a + BitVec.ofNat 32 i) 1 with
  | error f => rfl
  | ok _ => exact congrArg Except.ok (m.pokeBytes_withGarbage g a bytes)

theorem extendHeap_withGarbage (amount : Word) : (m.withGarbage g).extendHeap amount =
    (m.extendHeap amount).map fun grown => (grown.1, grown.2.withGarbage g) := by
  unfold extendHeap
  dsimp only [withGarbage]
  split
  · rfl
  · split <;> rfl

theorem found_withGarbage (a : Word) : (m.withGarbage g).found a = (m.found a).refill g := by
  unfold Cell.refill
  cases written : m.isWritten a with
  | true =>
    rw [if_pos (show (m.found a).written = true from written), found, peek_withGarbage g written]
    rfl
  | false =>
    have unwritten : (m.withGarbage g).isWritten a = false := written
    rw [if_neg (by simp [found, written]), found, peek_unwritten unwritten]
    rfl

theorem snapshot_withGarbage (a : Word) (n : Nat) :
    (m.withGarbage g).snapshot a n = (m.snapshot a n).map (Cell.refill g) := by
  rw [snapshot_eq, snapshot_eq, List.map_map]
  exact List.map_congr_left fun x _ => m.found_withGarbage g x

/-- What is put back does not depend on the filling: a cell that holds filler is forgotten. -/
theorem restoreCell_refill (c : Cell) :
    (m.withGarbage g).restoreCell (c.refill g) = (m.restoreCell c).withGarbage g := by
  cases written : c.written with
  | true => simp only [Cell.refill, restoreCell, written, if_true]; rfl
  | false => simp only [Cell.refill, restoreCell, written, Bool.false_eq_true, if_false]; rfl

theorem restore_refill (cells : List Cell) :
    (m.withGarbage g).restore (cells.map (Cell.refill g)) = (m.restore cells).withGarbage g := by
  induction cells generalizing m with
  | nil => rfl
  | cons c rest ih =>
    change ((m.withGarbage g).restoreCell (c.refill g)).restore (rest.map (Cell.refill g)) = _
    rw [restoreCell_refill, ih]
    rfl

end Bytes

section Reads

variable {m : Memory} (g : Bool)

/-- The bytes of a stretch that is read as a whole or not at all. -/
def readWhole {α : Type} (outcome : Except Fault α) (a : Word) (n : Nat) : List Word :=
  match outcome with
  | .ok _ => addresses a n
  | .error _ => []

/-- The bytes that an access reads; none if it is refused. -/
def accessed (a : Word) (w : Width) : List Word := readWhole (check a w.bytes) a w.bytes

/-- The bytes of a text with the zero behind it, or up to one that cannot be read. -/
def stringRead (m : Memory) : (limit : Nat) → Word → List Word
  | 0, _ => []
  | limit + 1, a =>
    match m.readByte a with
    | .ok b => a :: if b = 0 then [] else m.stringRead limit (a + 1)
    | .error _ => []

theorem read_withGarbage {a : Word} {w : Width} (known : m.Known (accessed a w)) :
    (m.withGarbage g).read a w = m.read a w := by
  unfold read
  unfold accessed at known
  cases checked : check a w.bytes with
  | error f => rfl
  | ok _ =>
    rw [checked] at known
    exact congrArg (Except.ok <| ofLittleEndian ·) (peekBytes_withGarbage g known)

theorem readByte_withGarbage {a : Word} (known : ∀ b, m.readByte a = .ok b → m.isWritten a = true) :
    (m.withGarbage g).readByte a = m.readByte a := by
  unfold readByte at known ⊢
  refine congrArg _ (read_withGarbage g ?_)
  unfold accessed read at *
  cases checked : check a Width.byte.bytes with
  | error f => exact known_nil m
  | ok _ =>
    rw [checked] at known
    simpa [Known, readWhole, addresses, Width.bytes] using known _ rfl

theorem readStringTo_withGarbage {limit : Nat} {a : Word} (known : m.Known (m.stringRead limit a)) :
    (m.withGarbage g).readStringTo limit a = m.readStringTo limit a := by
  induction limit generalizing a with
  | zero => rfl
  | succ limit ih =>
    unfold stringRead at known
    have first : (m.withGarbage g).readByte a = m.readByte a := by
      refine readByte_withGarbage g fun b found => known a ?_
      rw [found]
      exact List.mem_cons_self
    unfold readStringTo
    rw [first]
    cases found : m.readByte a with
    | error f => rfl
    | ok b =>
      rw [found] at known
      dsimp only at known
      by_cases last : b = 0
      · simp only [bind, Except.bind, if_pos last]
      · rw [if_neg last] at known
        have rest := ih fun x member => known x (List.mem_cons_of_mem a member)
        simp only [bind, Except.bind, if_neg last, rest]

/-- Values read one behind another, each shown as it is said. -/
def readRows {α : Type} (m : Memory) (w : Width) (shown : Word → Nat → α) :
    (n : Nat) → Word → Except Fault (List α)
  | 0, _ => .ok []
  | n + 1, a => do
    let value ← m.read a w
    let rest ← m.readRows w shown n (a + BitVec.ofNat 32 w.bytes)
    return shown a value :: rest

theorem addresses_add (a : Word) (n k : Nat) :
    addresses a (n + k) = addresses a n ++ addresses (a + BitVec.ofNat 32 n) k := by
  simp only [addresses, List.range_add, List.map_append, List.map_map, Function.comp_def,
    BitVec.ofNat_add, BitVec.add_assoc]

/-- Which row is refused does not depend on the filling, so that nothing has to be known of rows
before one that is. -/
theorem readRows_withGarbage {α : Type} {w : Width} {shown : Word → Nat → α} {n : Nat} {a : Word}
    (known : m.Known (readWhole (m.readRows w shown n a) a (w.bytes * n))) :
    (m.withGarbage g).readRows w shown n a = m.readRows w shown n a := by
  induction n generalizing a with
  | zero => rfl
  | succ n ih =>
    unfold readRows read at known ⊢
    cases checked : check a w.bytes with
    | error f => rfl
    | ok _ =>
      rw [checked] at known
      cases others : m.readRows w shown n (a + BitVec.ofNat 32 w.bytes) with
      | error f =>
        have rest := ih (a := a + BitVec.ofNat 32 w.bytes) (by
          rw [others]
          exact known_nil m)
        simp only [bind, Except.bind, pure, Except.pure, rest, others]
      | ok rows =>
        rw [others] at known
        have split : w.bytes * (n + 1) = w.bytes + w.bytes * n := by
          rw [Nat.mul_succ, Nat.add_comm]
        have all : m.Known (addresses a w.bytes ++
            addresses (a + BitVec.ofNat 32 w.bytes) (w.bytes * n)) := by
          rw [← addresses_add, ← split]
          exact known
        obtain ⟨here, further⟩ := List.forall_mem_append.mp all
        have rest := ih (a := a + BitVec.ofNat 32 w.bytes) (by rw [others]; exact further)
        have first : (m.withGarbage g).peekValue a w = m.peekValue a w :=
          congrArg ofLittleEndian (peekBytes_withGarbage g here)
        simp only [bind, Except.bind, pure, Except.pure, rest, others, first]

theorem readBytesFrom_eq (before : List Byte) (n : Nat) (a : Word) :
    m.readBytesFrom before n a =
      (m.readRows .byte (fun _ => BitVec.ofNat 8) n a).map (before.reverse ++ ·) := by
  induction n generalizing before a with
  | zero => simp [readBytesFrom, readRows, Except.map]
  | succ n ih =>
    unfold readBytesFrom readRows readByte
    cases m.read a .byte with
    | error f => rfl
    | ok value =>
      change m.readBytesFrom (BitVec.ofNat 8 value :: before) n (a + 1) = _
      rw [ih]
      change _ = Except.map _ (Except.bind (m.readRows .byte _ n (a + 1)) _)
      cases m.readRows .byte (fun _ => BitVec.ofNat 8) n (a + 1) with
      | error f => rfl
      | ok rest => simp [Except.map, Except.bind, pure, Except.pure]

theorem readBytes_eq (a : Word) (n : Nat) :
    m.readBytes a n = m.readRows .byte (fun _ => BitVec.ofNat 8) n a := by
  rw [readBytes, readBytesFrom_eq]
  cases m.readRows .byte (fun _ => BitVec.ofNat 8) n a <;> rfl

theorem readBytes_withGarbage {a : Word} {n : Nat}
    (known : m.Known (readWhole (m.readBytes a n) a n)) :
    (m.withGarbage g).readBytes a n = m.readBytes a n := by
  rw [readBytes_eq] at known
  rw [readBytes_eq, readBytes_eq]
  refine readRows_withGarbage g ?_
  rw [Width.bytes, Nat.one_mul]
  exact known

end Reads

end Memory

/-- A record as it is taken under another filling. -/
def Prior.refill (g : Bool) : Prior → Prior
  | .memory cells => .memory (cells.map (Cell.refill g))
  | .syscall v0 f0 f1 cells heapTop => .syscall v0 f0 f1 (cells.map (Cell.refill g)) heapTop
  | p => p

def Change.refill (g : Bool) (c : Change) : Change := { c with prior := c.prior.refill g }

namespace Machine

def withGarbage (m : Machine) (g : Bool) : Machine := { m with mem := m.mem.withGarbage g }

variable (m : Machine) (g : Bool)

theorem setDouble_withGarbage (r : FReg) (value : BitVec 64) :
    (m.withGarbage g).setDouble r value = (m.setDouble r value).map (·.withGarbage g) := by
  unfold setDouble
  change Except.map _ (m.regs.writeDouble r value) = _
  cases m.regs.writeDouble r value <;> rfl

theorem store_withGarbage (a : Word) (w : Width) (value : Nat) :
    (m.withGarbage g).store a w value = (m.store a w value).map (·.withGarbage g) := by
  unfold store
  change Except.map _ ((m.mem.withGarbage g).write a w value) = _
  rw [Memory.write_withGarbage]
  cases m.mem.write a w value <;> rfl

theorem storeBytes_withGarbage (a : Word) (bytes : List Byte) :
    (m.withGarbage g).storeBytes a bytes = (m.storeBytes a bytes).map (·.withGarbage g) := by
  unfold storeBytes
  change Except.map _ ((m.mem.withGarbage g).writeBytes a bytes) = _
  rw [Memory.writeBytes_withGarbage]
  cases m.mem.writeBytes a bytes <;> rfl

/-- Work that does the same under either filling. -/
def IgnoresFilling {α : Type} (work : Exec Machine α) : Prop :=
  ∀ m g, Framed (fun k : Machine => k.withGarbage g) m work work

theorem IgnoresFilling.next {work : Exec Machine Unit} (ignores : IgnoresFilling work) :
    IgnoresFilling (do work; return Control.next) := by
  intro m g
  exact framed_bind (ignores m g) fun _ _ => framed_pure Control.next

theorem ignoresFilling_executeReg (op : RegOp) (rd rs rt : Reg) :
    IgnoresFilling (executeReg op rd rs rt) := by
  intro m g
  refine framed_get (framed_require _ ?_)
  intro value
  exact framed_onlyIf (framed_modify rfl)

theorem ignoresFilling_executeHiLoMove (op : HiLoMove) (r : Reg) :
    IgnoresFilling (executeHiLoMove op r) := by
  intro m g
  cases op <;> exact framed_modify rfl

theorem ignoresFilling_executeArith (op : FloatOp) (fmt : Precision) (fd fs ft : FReg) :
    IgnoresFilling (executeArith op fmt fd fs ft) := by
  intro m g
  refine framed_get ?_
  cases fmt with
  | single => exact framed_modify rfl
  | double =>
    refine framed_require _ fun a => framed_require _ fun b => ?_
    exact framed_update (m.setDouble_withGarbage g fd _)

theorem ignoresFilling_executeUnary (op : FloatUnary) (fmt : Precision) (fd fs : FReg) :
    IgnoresFilling (executeUnary op fmt fd fs) := by
  intro m g
  refine framed_get ?_
  cases fmt with
  | single => exact framed_modify rfl
  | double => exact framed_require _ fun a => framed_update (m.setDouble_withGarbage g fd _)

theorem ignoresFilling_executeConvert (target source : NumberFormat) (fd fs : FReg) :
    IgnoresFilling (executeConvert target source fd fs) := by
  intro m g
  refine framed_get (framed_require _ ?_)
  intro value
  cases target with
  | word | single => exact framed_modify rfl
  | double => exact framed_update (m.setDouble_withGarbage g fd _)

theorem ignoresFilling_moveFloat (fmt : Precision) (fd fs : FReg) :
    IgnoresFilling (moveFloat fmt fd fs) := by
  intro m g
  refine framed_get ?_
  cases fmt with
  | single => exact framed_modify rfl
  | double => exact framed_require _ fun bits => framed_update (m.setDouble_withGarbage g fd bits)

theorem ignoresFilling_writeLink (pc : Word) (link : Option Reg) :
    IgnoresFilling (writeLink pc link) := by
  intro m g
  cases link with
  | none => exact framed_pure ()
  | some r => exact framed_modify rfl

/-- A double whose register cannot hold it is not read. -/
def loads (op : MemOp) (data : Fin 32) : Bool := !op.isStore && (op != .ldc1 || data.val % 2 == 0)

variable {m}

/-- A load does the same under either filling if what it reads has been written; a store always
does. -/
theorem framed_executeMem_filling {op : MemOp} {data : Fin 32} {a : Word}
    (known : loads op data = true → m.mem.Known (Memory.accessed a op.width)) :
    Framed (fun k : Machine => k.withGarbage g) m (executeMem op data a)
      (executeMem op data a) := by
  have reads (taken : loads op data = true) :
      (m.withGarbage g).mem.read a op.width = m.mem.read a op.width :=
    Memory.read_withGarbage g (known taken)
  refine framed_get ?_
  cases op with
  | lw | lh | lhu | lb | lbu | lwc1 =>
    exact framed_found (congrArg (Except.map _) (reads rfl)) fun v => framed_modify rfl
  | sw | sh | sb | swc1 => exact framed_update (m.store_withGarbage g a _ _)
  | ldc1 =>
    unfold Registers.checkPair
    by_cases even : data.val % 2 = 0
    · have found := congrArg (Except.map (BitVec.ofNat 64)) (reads (by simp [loads, even]; rfl))
      refine framed_require _ fun _ => framed_found found fun bits => ?_
      exact framed_update (m.setDouble_withGarbage g data bits)
    · rw [if_neg (fun both => even both.1)]
      rfl
  | sdc1 => exact framed_require _ fun bits => framed_update (m.store_withGarbage g a _ _)

/-- The bytes that an instruction reads without a service. -/
def loaded (m : Machine) : Instruction → List Word
  | .mem op data base offset =>
    if loads op data then Memory.accessed (m.effectiveAddress base offset) op.width else []
  | _ => []

/-- An instruction that reads written bytes only does the same under either filling. -/
theorem framed_execute_filling {i : Instruction} (pc : Word) (known : m.mem.Known (m.loaded i)) :
    Framed (fun k : Machine => k.withGarbage g) m (execute pc i) (execute pc i) := by
  cases i with
  | reg op rd rs rt => exact (ignoresFilling_executeReg op rd rs rt).next m g
  | imm op rt rs value =>
    refine framed_get (framed_require _ fun result => ?_)
    exact framed_bind (framed_modify rfl) fun _ _ => framed_pure _
  | lui rt upper => exact framed_bind (framed_modify rfl) fun _ _ => framed_pure _
  | hiLo op rs rt =>
    refine framed_get (framed_require _ fun halves => ?_)
    exact framed_bind (framed_modify rfl) fun _ _ => framed_pure _
  | count op rd rs => exact framed_bind (framed_modify rfl) fun _ _ => framed_pure _
  | hiLoMove op r => exact (ignoresFilling_executeHiLoMove op r).next m g
  | jump link target =>
    exact framed_bind (ignoresFilling_writeLink pc _ m g) fun _ _ => framed_pure _
  | jumpReg link rs =>
    exact framed_get (framed_bind (ignoresFilling_writeLink pc link m g) fun _ _ => framed_pure _)
  | branch op rs rt target =>
    exact framed_get (framed_bind (ignoresFilling_writeLink pc _ m g) fun _ _ => framed_pure _)
  | floatArith op fmt fd fs ft => exact (ignoresFilling_executeArith op fmt fd fs ft).next m g
  | floatUnary op fmt fd fs => exact (ignoresFilling_executeUnary op fmt fd fs).next m g
  | floatToWord mode fmt fd fs =>
    refine framed_get (framed_require _ fun value => ?_)
    exact framed_bind (framed_modify rfl) fun _ _ => framed_pure _
  | convert target source fd fs =>
    exact (ignoresFilling_executeConvert target source fd fs).next m g
  | compare cond fmt flag fs ft =>
    refine framed_get (framed_require _ fun result => ?_)
    exact framed_bind (framed_modify rfl) fun _ _ => framed_pure _
  | branchFlag expected flag target => exact framed_get (framed_pure _)
  | moveWord toFloat rt fs =>
    cases toFloat <;> exact framed_bind (framed_modify rfl) fun _ _ => framed_pure _
  | moveOnFlag expected rd rs flag =>
    exact framed_get (framed_bind (framed_onlyIf (framed_modify rfl)) fun _ _ => framed_pure _)
  | floatMoveIf _ fmt fd fs _ | floatMoveOnFlag _ fmt fd fs _ =>
    refine framed_get (framed_bind (framed_onlyIf ?_) fun _ _ => framed_pure _)
    exact ignoresFilling_moveFloat fmt fd fs m g
  | mem op data base offset =>
    refine framed_get (framed_bind (framed_executeMem_filling g fun taken => ?_) fun _ _ =>
      framed_pure _)
    rwa [loaded, if_pos taken] at known
  | nop | syscall | breakpoint _ => exact framed_pure _

end Machine

namespace Prior

variable (m : Machine) (g : Bool)

theorem buffer_withGarbage : buffer (m.withGarbage g) = (buffer m).map (Cell.refill g) := by
  unfold buffer
  dsimp only
  change (if m.regs.read Register.v0 = 8 then _ else _) = _
  split
  · exact m.mem.snapshot_withGarbage g _ _
  · change (if m.regs.read Register.v0 = 14 then _ else _) = _
    split
    · exact m.mem.snapshot_withGarbage g _ _
    · rfl

theorem ofDouble_withGarbage (r : FReg) :
    ofDouble (m.withGarbage g) r = (ofDouble m r).map (refill g) := by
  unfold ofDouble
  cases Registers.checkPair r <;> rfl

theorem ofPrecision_withGarbage (fmt : Precision) (r : FReg) :
    ofPrecision (m.withGarbage g) fmt r = (ofPrecision m fmt r).map (refill g) := by
  cases fmt with
  | single => rfl
  | double => exact ofDouble_withGarbage m g r

/-- What is recorded differs at most in the filler that was found. -/
theorem of_withGarbage (i : Instruction) :
    of (m.withGarbage g) i = (of m i).map (refill g) := by
  cases i with
  | floatArith _ fmt fd | floatUnary _ fmt fd | floatMoveIf _ fmt fd | floatMoveOnFlag _ fmt fd =>
    exact ofPrecision_withGarbage m g fmt fd
  | convert target _ fd _ =>
    cases target with
    | double => exact ofDouble_withGarbage m g fd
    | single | word => rfl
  | mem op data base offset =>
    have stored := m.mem.snapshot_withGarbage g (m.effectiveAddress base offset) op.width.bytes
    cases op with
    | sb | sh | sw | swc1 | sdc1 => exact congrArg (fun cells => Except.ok (memory cells)) stored
    | ldc1 => exact ofDouble_withGarbage m g data
    | _ => rfl
  | syscall =>
    have cells := buffer_withGarbage m g
    exact congrArg (fun cells => Except.ok (Prior.syscall _ _ _ cells _)) cells
  | branch op =>
    simp only [of]
    split <;> rfl
  | hiLoMove op => cases op <;> rfl
  | jump link => cases link <;> rfl
  | jumpReg link => cases link <;> rfl
  | moveWord toFloat => cases toFloat <;> rfl
  | _ => rfl

theorem restore_refill (p : Prior) :
    (p.refill g).restore (m.withGarbage g) = (p.restore m).withGarbage g := by
  cases p with
  | memory cells => exact congrArg (Machine.mk m.regs) (m.mem.restore_refill g cells)
  | syscall v0 f0 f1 cells heapTop =>
    have bytes := m.mem.restore_refill g cells
    exact congrArg (fun mem : Memory => Machine.mk _ { mem with heapTop }) bytes
  | _ => rfl

end Prior

theorem Change.capture_withGarbage (m : Machine) (g : Bool) (pc : Word) (i : Instruction) :
    capture (m.withGarbage g) pc i = (capture m pc i).map (refill g) := by
  unfold capture
  rw [Prior.of_withGarbage]
  cases Prior.of m i <;> rfl

/-- Undoing an instruction brings back no filler. -/
theorem Change.revert_refill (c : Change) (m : Machine) (g : Bool) :
    (c.refill g).revert (m.withGarbage g) = (c.revert m).withGarbage g := by
  exact congrArg (Machine.setPc · c.pc) (Prior.restore_refill m g c.prior)

end MipsLab
