import MipsLab.Proofs.Machine.FlatMemory
import MipsLab.Proofs.Machine.Sequence
import MipsLab.Proofs.Run.Services

/-! The buffers of the services that read. What a service has read lies in the buffer that the
program has given it, nothing around it is touched, and the record that was taken before covers all
that is overwritten. -/
namespace MipsLab

/-- `k` is `m` with `bytes` at the addresses from `a` on, and with nothing else changed. -/
structure Memory.Filled (m k : Memory) (a : Word) (bytes : List Byte) : Prop where
  holds : k.peekBytes a bytes.length = bytes
  elsewhere : m.SameOutside k (Memory.addresses a bytes.length)
  heapTop : k.heapTop = m.heapTop

theorem Machine.filled_storeBytes {m k : Machine} {a : Word} {bytes : List Byte}
    (fits : bytes.length ≤ Memory.maxString) (written : m.storeBytes a bytes = .ok k) :
    m.mem.Filled k.mem a bytes := by
  have inside : bytes.length ≤ 0x100000000 := fits.trans (by decide)
  rw [Machine.storeBytes_ok written]
  exact ⟨Memory.peekBytes_pokeBytes m.mem a inside, Memory.sameOutside_pokeBytes m.mem a bytes,
    Memory.heapTop_pokeBytes m.mem a bytes⟩

/-- The record holds, for every byte that is now another one, what it was. -/
def Change.Covers (c : Change) (m k : Memory) : Prop :=
  ∃ v0 f0 f1 cells heapTop, c.prior = .syscall v0 f0 f1 cells heapTop ∧
    ∀ x : Word, k.bytes[x]? ≠ m.bytes[x]? → m.found x ∈ cells

/-- What can be put back has been recorded. -/
theorem Change.covers_of_restore {m k : Machine} (pc : Word)
    (undone : (Prior.ofSyscall m).restore k = m) :
    Change.Covers ⟨pc, Prior.ofSyscall m⟩ m.mem k.mem := by
  obtain ⟨a, n, covered⟩ := Prior.buffer_eq_snapshot m
  have mem : (k.mem.restore (Prior.buffer m)).bytes = m.mem.bytes :=
    congrArg (·.mem.bytes) undone
  refine ⟨_, _, _, _, _, rfl, fun x changed => ?_⟩
  rw [covered, Memory.snapshot_eq] at mem ⊢
  by_contra missing
  have outside : x ∉ Memory.addresses a n := fun member =>
    missing (List.mem_map_of_mem member)
  have kept := Memory.getElem?_restore m.mem k.mem (Memory.addresses a n) x
  rw [mem, if_neg outside] at kept
  exact changed kept.symm

namespace Syscall

open Exec Station

variable {s t : Station} {bytes : List Byte}

/-- The code in `$v0` alone decides which service is performed. -/
theorem perform_eq {service : Service}
    (found : Service.ofCode? (s.machine.regs.read Register.v0) = some service) :
    perform s = serve service s := by
  rw [perform, Exec.get_bind]
  simp only [found]

theorem onMachine_next {work : Exec Machine Unit}
    (done : (do onMachine work; return Control.next : Exec Station Control) s = .ok .next t) :
    work s.machine = .ok () t.machine := by
  cases ran : work s.machine with
  | error f k => simp [onMachine, bind, EStateM.bind, ran] at done
  | ok value k =>
    simp only [onMachine, bind, EStateM.bind, ran, pure, EStateM.pure, EStateM.Result.ok.injEq,
      true_and] at done
    rw [← done]

/-- A service that reads is done only if a text had been delivered. -/
theorem reading_next {use : String → Exec Machine Unit} (done : reading use s = .ok .next t) :
    ∃ text, s.channels.input = some text ∧ use text s.machine = .ok () t.machine := by
  have taken : takeInput s =
      .ok s.channels.input { s with channels := { s.channels with input := none } } := rfl
  rw [reading, bind_ok taken] at done
  cases delivered : s.channels.input with
  | none =>
    rw [delivered] at done
    exact absurd done nofun
  | some text =>
    rw [delivered] at done
    let taken : Station := { s with channels := { s.channels with input := none } }
    exact ⟨text, rfl, onMachine_next (s := taken) done⟩

theorem answer_next {value : Word} (done : answer value s = .ok .next t) :
    t.machine = s.machine.setReg Register.v0 value :=
  congrArg Station.machine (EStateM.Result.ok.inj done).2.symm

/-- What is left in memory of a text that was read as a string: with room for `n` bytes, as many of
its bytes as fit in front of a zero byte. -/
structure StringRead (m k : Machine) (text : String) : Prop where
  nothing : (m.regs.read Register.a1).toInt ≤ 0 → k = m
  fills : ∀ n : Nat, n = (m.regs.read Register.a1).toInt → 0 < n →
    m.mem.Filled k.mem (m.regs.read Register.a0)
      ((Text.utf8Bytes text).take (min n Memory.maxString - 1) ++ [0])

theorem meets_readString (m : Machine) (text : String) :
    (readString text).Meets m (fun _ k => StringRead m k text) fun _ => True := by
  refine meets_bind (meets_get ?_)
  split
  · next empty =>
    refine meets_pure ⟨fun _ => rfl, fun n size positive => ?_⟩
    rw [Memory.bufferLength, ← size, Int.toNat_natCast, Memory.maxString] at empty
    omega
  · next capacity room =>
    have small := Nat.min_le_right (m.regs.read Register.a1).toInt.toNat Memory.maxString
    rw [Memory.bufferLength] at room
    rw [room] at small
    refine meets_update trivial fun k written => ⟨fun negative => ?_, fun n size positive => ?_⟩
    · rw [Int.toNat_of_nonpos negative, Nat.zero_min] at room
      exact absurd room nofun
    · rw [← size, Int.toNat_natCast] at room
      rw [room]
      refine Machine.filled_storeBytes ?_ written
      rw [List.length_append, List.length_singleton]
      exact (Nat.succ_le_succ (List.length_take_le capacity (Text.utf8Bytes text))).trans small

/-- What the descriptor in `$a0` gives when `count` bytes are asked for: the start of the delivered
text, or what there is in an open file. -/
def Gives (s : Station) (count : Nat) (bytes : List Byte) : Prop :=
  if (s.machine.regs.read Register.a0).toInt = 0 then
    ∃ text, s.channels.input = some text ∧ bytes = (Text.utf8Bytes text).take count
  else
    ∃ files, s.channels.files.read (s.machine.regs.read Register.a0).toInt count =
      some (bytes, files)

theorem Gives.length_le {count : Nat} (given : Gives s count bytes) : bytes.length ≤ count := by
  unfold Gives at given
  split at given
  · obtain ⟨text, -, rfl⟩ := given
    exact List.length_take_le _ _
  · obtain ⟨files, found⟩ := given
    exact FileTable.length_read found

/-- What is left in memory by the service that reads a file. An answer of `-1` stands for nothing;
any other is the number of bytes that were read, of at most as many as were asked for. -/
structure FileRead (s t : Station) : Prop where
  refused : t.machine.regs.read Register.v0 = -1 → t.machine.mem = s.machine.mem
  fills : t.machine.regs.read Register.v0 ≠ -1 →
    ∃ n : Nat, n = (s.machine.regs.read Register.a2).toInt ∧
      ∃ bytes, Gives s (min n Memory.maxString) bytes ∧
        (t.machine.regs.read Register.v0).toNat = bytes.length ∧
        bytes.length ≤ min n Memory.maxString ∧
        s.machine.mem.Filled t.machine.mem (s.machine.regs.read Register.a1) bytes

theorem meets_deliver (m : Machine) {bytes : List Byte} (fits : bytes.length ≤ Memory.maxString) :
    (deliver bytes).Meets m (fun _ k =>
      (k.regs.read Register.v0).toNat = bytes.length ∧
        m.mem.Filled k.mem (m.regs.read Register.a1) bytes) fun _ => True := by
  refine meets_bind (meets_get (meets_bind (meets_update trivial fun k written => ?_)))
  have filled := Machine.filled_storeBytes fits written
  refine meets_modify ⟨?_, filled⟩
  rw [Machine.read_setReg_self _ (by decide), BitVec.toNat_ofNat]
  exact Nat.mod_eq_of_lt (fits.trans_lt (by decide))

theorem fileRead_refuse (done : refuse s = .ok .next t) : FileRead s t := by
  have same := answer_next done
  refine ⟨fun _ => by rw [same]; rfl, fun other => absurd ?_ other⟩
  rw [same, Machine.read_setReg_self _ (by decide)]

/-- The number of bytes is no `-1`, since there are not that many. -/
theorem fileRead_deliver {n : Nat} (size : n = (s.machine.regs.read Register.a2).toInt)
    (given : Gives s (min n Memory.maxString) bytes)
    (done : deliver bytes s.machine = .ok () t.machine) : FileRead s t := by
  have count := given.length_le
  have fits : bytes.length ≤ Memory.maxString := count.trans (Nat.min_le_right _ _)
  obtain ⟨answer, filled⟩ := (meets_deliver s.machine fits).of_ok done
  refine ⟨fun refused => ?_, fun _ => ⟨n, size, bytes, given, answer, count, filled⟩⟩
  have small : bytes.length < (-1 : Word).toNat := fits.trans_lt (by decide)
  rw [refused] at answer
  exact absurd answer.symm small.ne

theorem fileRead_readFile (done : readFile s = .ok .next t) : FileRead s t := by
  rw [readFile, get_bind] at done
  split at done
  · exact fileRead_refuse done
  · next size =>
    have positive : 0 ≤ (s.machine.regs.read Register.a2).toInt := by
      rwa [slt_zero_iff, not_lt] at size
    obtain ⟨n, size⟩ := Int.eq_ofNat_of_zero_le positive
    rw [Memory.bufferLength, size, Int.toNat_natCast] at done
    split at done
    · next input =>
      obtain ⟨text, delivered, ran⟩ := reading_next done
      refine fileRead_deliver size.symm ?_ ran
      rw [Gives, if_pos input]
      exact ⟨text, delivered, rfl⟩
    · next file =>
      cases found : s.channels.files.read (s.machine.regs.read Register.a0).toInt
          (min n Memory.maxString) with
      | none =>
        rw [found] at done
        exact fileRead_refuse done
      | some answer =>
        obtain ⟨bytes, files⟩ := answer
        rw [found] at done
        refine fileRead_deliver size.symm ?_ (onMachine_next (s := s.setFiles files) done)
        rw [Gives, if_neg file]
        exact ⟨files, found⟩

/-- A service that reads into a buffer changes memory nowhere else, and the record that is taken
before it covers all that it changes. -/
theorem perform_keeps_to_buffer (pc : Word) (done : perform s = .ok .next t) :
    (∃ c, Change.capture s.machine pc .syscall = .ok c ∧ c.Covers s.machine.mem t.machine.mem) ∧
      (s.machine.regs.read Register.v0 = 8 →
        ∃ text, s.channels.input = some text ∧ StringRead s.machine t.machine text) ∧
      (s.machine.regs.read Register.v0 = 14 → FileRead s t) := by
  have undone := ((serves_perform s).of_ok done).undone
  refine ⟨⟨_, rfl, Change.covers_of_restore pc undone⟩, fun code => ?_, fun code => ?_⟩
  · have found : Service.ofCode? (s.machine.regs.read Register.v0) = some .readString := by
      rw [code]
      decide
    rw [perform_eq found, serve, get_bind] at done
    obtain ⟨text, delivered, ran⟩ := reading_next done
    exact ⟨text, delivered, (meets_readString s.machine text).of_ok ran⟩
  · have found : Service.ofCode? (s.machine.regs.read Register.v0) = some .readFile := by
      rw [code]
      decide
    rw [perform_eq found, serve, get_bind] at done
    exact fileRead_readFile done

/-- A program asks for a service, and `abc` has been delivered. -/
def asking (code a0 a1 a2 : Word) : Station where
  machine :=
    let fresh : Machine := ⟨.reset MemoryMap.textBase false, .load ∅ false⟩
    (((fresh.setReg Register.v0 code).setReg Register.a0 a0).setReg Register.a1 a1).setReg
      Register.a2 a2
  channels := ⟨some "abc", .new [] ⟨[], []⟩⟩
  printed := []

theorem perform_keeps_to_buffer_abc :
    (∃ t, perform (asking 8 0x10010000 3 0) = .ok .next t ∧
      StringRead (asking 8 0x10010000 3 0).machine t.machine "abc" ∧
      t.machine.mem.peekBytes 0x10010000 4 = [97, 98, 0, 0]) ∧
    ∃ t, perform (asking 14 0 0x10010000 3) = .ok .next t ∧
      FileRead (asking 14 0 0x10010000 3) t ∧
      t.machine.mem.peekBytes 0x10010000 4 = [97, 98, 99, 0] := by
  constructor
  · have done : ∃ t, perform (asking 8 0x10010000 3 0) = .ok .next t ∧
        t.machine.mem.peekBytes 0x10010000 4 = [97, 98, 0, 0] := by
      refine ⟨?_, ?ran, ?stored⟩
      case ran => cbv; rfl
      case stored => cbv
    obtain ⟨t, done, stored⟩ := done
    obtain ⟨-, string, -⟩ := perform_keeps_to_buffer 0x400000 done
    obtain ⟨text, delivered, read⟩ := string (by decide +kernel)
    obtain rfl : "abc" = text := Option.some.inj delivered
    exact ⟨t, done, read, stored⟩
  · have done : ∃ t, perform (asking 14 0 0x10010000 3) = .ok .next t ∧
        t.machine.mem.peekBytes 0x10010000 4 = [97, 98, 99, 0] := by
      refine ⟨?_, ?ran, ?stored⟩
      case ran => cbv; rfl
      case stored => cbv
    obtain ⟨t, done, stored⟩ := done
    obtain ⟨-, -, file⟩ := perform_keeps_to_buffer 0x400000 done
    exact ⟨t, done, file (by decide +kernel), stored⟩

end Syscall

end MipsLab
