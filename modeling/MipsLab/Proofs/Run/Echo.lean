import MipsLab.Proofs.Machine.StoredText
import MipsLab.Proofs.Run.Buffers
import MipsLab.Proofs.Run.Reversal
import MipsLab.Proofs.Run.Transparent
import MipsLab.Proofs.Text.Utf8

/-! Texts that are read and printed again. What the service that reads a string leaves in its buffer
is printed from there by the service that prints one, as long as nobody has written to it. One
service reads no more than a fixed number of characters, whatever the size of the buffer. -/
namespace MipsLab

namespace Text

/-- As much of a text as one service reads. -/
def readable (text : String) : List Char := text.toList.take (Memory.maxString - 1)

end Text

namespace Machine

/-- Where a string is read to or printed from. -/
abbrev buffer (m : Machine) : Word := m.regs.read Register.a0

/-- The room that there is for a string that is read. -/
abbrev bufferSize (m : Machine) : Word := m.regs.read Register.a1

/-- The bytes of a text that fit into the buffer in front of a zero byte. -/
def stored (m : Machine) (text : String) : List Byte :=
  (Text.utf8Bytes text).take (Memory.bufferLength m.bufferSize - 1)

/-- The machine with a text in its buffer. -/
def withText (m : Machine) (text : String) : Machine :=
  { m with mem := m.mem.pokeBytes m.buffer (m.stored text ++ [0]) }

variable {m : Machine} {text : String}

theorem length_stored_lt (m : Machine) (text : String) :
    (m.stored text).length < Memory.maxString := by
  have taken : (m.stored text).length ≤ Memory.bufferLength m.bufferSize - 1 :=
    List.length_take_le _ _
  have capped : Memory.bufferLength m.bufferSize ≤ Memory.maxString := Nat.min_le_right _ _
  rw [Memory.maxString] at capped ⊢
  omega

/-- With room for all of it, only the limit of the service cuts an ASCII text. -/
theorem stored_ascii (ascii : ∀ c ∈ text.toList, c.toNat < 128)
    (room : ((Text.utf8Bytes text).length : Int) < m.bufferSize.toInt) :
    m.stored text = (Text.readable text).map Text.charByte := by
  have bytes := Text.utf8Bytes_ascii ascii
  have length : (Text.utf8Bytes text).length = text.toList.length := by
    rw [bytes, List.length_map]
  rw [stored, bytes, ← List.map_take, Text.readable]
  refine congrArg _ (List.take_eq_take_iff.mpr ?_)
  rw [Memory.bufferLength, Memory.maxString]
  omega

theorem peekBytes_withText (accessible : Permitted m.buffer ((m.stored text).length + 1)) :
    (m.withText text).mem.peekBytes m.buffer ((m.stored text).length + 1) =
      m.stored text ++ [0] := by
  have fits : (m.stored text ++ [0]).length ≤ 0x100000000 := by
    rw [List.length_append]
    exact accessible.length_le
  have peeked := Memory.peekBytes_pokeBytes m.mem m.buffer fits
  rwa [List.length_append, List.length_singleton] at peeked

end Machine

namespace Syscall

open Exec Station

variable {s : Station} {text : String}

theorem readString_withText {m : Machine} (room : 0 < m.bufferSize.toInt)
    (accessible : Permitted m.buffer ((m.stored text).length + 1)) :
    readString text m = .ok () (m.withText text) := by
  have permitted : Permitted m.buffer (m.stored text ++ [0]).length := by
    rwa [List.length_append]
  have written := Memory.writeBytes_permitted m.mem permitted
  obtain ⟨capacity, size⟩ : ∃ capacity, Memory.bufferLength m.bufferSize = capacity + 1 := by
    refine Nat.exists_eq_succ_of_ne_zero ?_
    rw [Memory.bufferLength, Memory.maxString]
    omega
  rw [Machine.withText]
  rw [Machine.stored, size, Nat.add_sub_cancel] at written ⊢
  rw [readString, get_bind]
  simp only [size]
  rw [update, get_bind, Machine.storeBytes, written]
  rfl

theorem serve_readString (delivered : s.channels.input = some text)
    (room : 0 < s.machine.bufferSize.toInt)
    (accessible : Permitted s.machine.buffer ((s.machine.stored text).length + 1)) :
    serve .readString s = .ok .next { s with
      machine := s.machine.withText text, channels := { s.channels with input := none } } := by
  have taken : takeInput s =
      .ok (some text) { s with channels := { s.channels with input := none } } := by
    rw [← delivered]
    rfl
  rw [serve, get_bind]
  simp only
  rw [reading, bind_ok taken]
  have ran := readString_withText room accessible
  simp only [onMachine, bind, EStateM.bind, ran]
  rfl

theorem serve_printString {bytes : List Byte}
    (found : s.machine.mem.readString s.machine.buffer = .ok bytes) :
    serve .printString s = .ok .next { s with printed := s.printed ++ [Text.byteText bytes] } := by
  rw [serve, get_bind]
  simp only [found]
  rfl

end Syscall

namespace Run

/-- The next tick executes a system call that asks for a service. -/
structure Calls (r : Run) (service : Service) : Prop where
  running : r.ended = false
  unlimited : r.reachedLimit? = none
  arrived : ∃ entry, r.next? = some entry ∧ entry.instr = .syscall ∧ r.pausesAt entry = false
  code : Service.ofCode? (r.machine.regs.read Register.v0) = some service

variable {r : Run} {service : Service}

theorem console_absorb (r : Run) (s : Station) :
    (r.absorb s).console = s.printed.foldl (· ++ ·) r.console := by
  unfold absorb
  generalize s.printed = texts
  induction texts generalizing r with
  | nil => rfl
  | cons text rest ih => exact ih (r.print text)

/-- The tick of a system call is that of the service. -/
theorem Calls.enters (calls : r.Calls service) : ∃ entry, entry.instr = .syscall ∧
    r.tick = r.executeEntry r.pc entry ∧
    react r.pc .syscall r.station = Syscall.serve service r.station := by
  obtain ⟨entry, found, instr, passes⟩ := calls.arrived
  refine ⟨entry, instr, ?_, Syscall.perform_eq calls.code⟩
  rw [tick_passing calls.running found passes, passEntry, calls.unlimited]

theorem capture_syscall (m : Machine) (pc : Word) :
    Change.capture m pc .syscall = .ok ⟨pc, Prior.ofSyscall m⟩ := rfl

/-- A service that is done has been executed, and the run goes on behind the system call. -/
theorem Calls.executed (calls : r.Calls service) {s : Station}
    (served : Syscall.serve service r.station = .ok .next s) : r.tick = (.ok .executed,
      ((r.absorb s).complete .syscall ⟨r.pc, Prior.ofSyscall r.machine⟩).moveTo (r.pc + 4)) := by
  obtain ⟨entry, instr, ticked, performed⟩ := calls.enters
  rw [ticked]
  simp only [executeEntry, instr, capture_syscall, performed, served]
  rfl

theorem Calls.failed (calls : r.Calls service) {f : Fault} {s : Station}
    (refused : Syscall.serve service r.station = .error f s) :
    r.tick = (r.absorb s).fail r.pc f := by
  obtain ⟨entry, instr, ticked, performed⟩ := calls.enters
  rw [ticked]
  simp only [executeEntry, instr, capture_syscall, performed, refused]

theorem Calls.tick (calls : r.Calls service) {s : Station}
    (served : Syscall.serve service r.station = .ok .next s) :
    ∃ next, r.tick = (.ok .executed, next) ∧ next.machine = s.machine.setPc (r.pc + 4) ∧
      next.console = s.printed.foldl (· ++ ·) r.console :=
  ⟨_, calls.executed served, rfl, console_absorb r s⟩

/-- The text that the run reads now is shown as `shown` when the same buffer is printed, by whatever
run finds in its first `size` bytes what has been left there. -/
def Echoes (r : Run) (size : Nat) (shown : String) : Prop :=
  ∃ after, r.tick = (.ok .executed, after) ∧ after.console = r.console ∧
    ∀ later : Run, later.Calls .printString →
      later.machine.buffer = r.machine.buffer →
      later.machine.mem.peekBytes r.machine.buffer size =
        after.machine.mem.peekBytes r.machine.buffer size →
      ∃ next, later.tick = (.ok .executed, next) ∧ next.console = later.console ++ shown

variable {text : String}

/-- A text without a zero character is shown byte for byte, as much of it as has been stored. -/
theorem echoes_stored (reads : r.Calls .readString) (delivered : r.channels.input = some text)
    (plain : '\x00' ∉ text.toList) (room : 0 < r.machine.bufferSize.toInt)
    (accessible : Permitted r.machine.buffer ((r.machine.stored text).length + 1)) :
    r.Echoes ((r.machine.stored text).length + 1) (Text.byteText (r.machine.stored text)) := by
  obtain ⟨after, ticked, machine, console⟩ :=
    reads.tick (Syscall.serve_readString delivered room accessible)
  refine ⟨after, ticked, console, fun later prints same kept => ?_⟩
  have left : after.machine.mem.peekBytes r.machine.buffer ((r.machine.stored text).length + 1) =
      r.machine.stored text ++ [0] := by
    rw [machine]
    exact Machine.peekBytes_withText accessible
  have found : later.machine.mem.readString later.machine.buffer =
      .ok (r.machine.stored text) := by
    rw [same]
    refine Memory.readStringTo_stored (kept.trans left) accessible (fun b member => ?_)
      (Machine.length_stored_lt _ _)
    exact Text.utf8Bytes_ne_zero plain b (List.mem_of_mem_take member)
  obtain ⟨next, printed, -, shown⟩ := prints.tick (Syscall.serve_printString found)
  exact ⟨next, printed, shown⟩

/-- Echoing an ASCII text is the identity, up to the limit of what one service reads: with room for
the text in a buffer that is mapped, the text is stored, and it is what is printed from there. -/
theorem echoes_ascii (reads : r.Calls .readString) (delivered : r.channels.input = some text)
    (ascii : ∀ c ∈ text.toList, c.toNat < 128 ∧ c ≠ '\x00')
    (room : ((Text.utf8Bytes text).length : Int) < r.machine.bufferSize.toInt)
    (accessible : Permitted r.machine.buffer ((Text.readable text).length + 1)) :
    r.Echoes ((Text.readable text).length + 1) (String.ofList (Text.readable text)) ∧
      (text.length < Memory.maxString → String.ofList (Text.readable text) = text) := by
  have small : ∀ c ∈ text.toList, c.toNat < 128 := fun c member => (ascii c member).1
  have plain : '\x00' ∉ text.toList := fun member => (ascii _ member).2 rfl
  have bytes := Machine.stored_ascii small room
  have length := congrArg List.length bytes
  rw [List.length_map] at length
  have shown : Text.byteText (r.machine.stored text) = String.ofList (Text.readable text) := by
    rw [bytes]
    refine Text.byteText_charByte fun c member => ?_
    have := small c (List.mem_of_mem_take member)
    omega
  constructor
  · rw [← shown, ← length]
    exact echoes_stored reads delivered plain (by omega) (by rwa [length])
  · intro short
    have whole : Text.readable text = text.toList := by
      refine List.take_of_length_le ?_
      rw [Memory.maxString] at short ⊢
      rw [String.length_toList]
      omega
    rw [whole, String.ofList_toList]

/-- Calls a service, then the one that prints a string. -/
def echoing : Program where
  text := entriesFrom MemoryMap.textBase
    [.syscall, .imm .addiu Register.v0 Register.zero 4, .syscall]
  data := ∅
  symbols := ∅
  declarations := []
  instructions := []
  names := .new [] fun _ => none
  linked := []
  entry := MemoryMap.textBase

/-- The program with a code in `$v0` and a buffer on the heap. -/
def calling (code size : Word) (input : Option String) (mem : Memory) : Run :=
  let registers : Machine := ⟨.reset MemoryMap.textBase false, mem⟩
  { start echoing {} ⟨[], []⟩ with
    machine := ((registers.setReg Register.v0 code).setReg Register.a0 MemoryMap.heapBase).setReg
      Register.a1 size
    channels := ⟨input, .new [] ⟨[], []⟩⟩ }

theorem calls_calling {code size : Word} {input : Option String} {mem : Memory}
    (found : Service.ofCode? code = some service) : (calling code size input mem).Calls service := by
  let entry : TextEntry := ⟨MemoryMap.textBase, .syscall, ⟨"echo.s", 1⟩, "", false, true⟩
  refine ⟨rfl, rfl, ⟨entry, ?_, rfl, rfl⟩, ?_⟩
  · cbv
  · rw [← found]
    rfl

theorem buffer_calling (code size : Word) (input : Option String) (mem : Memory) :
    (calling code size input mem).machine.buffer = MemoryMap.heapBase := by cbv

theorem bufferSize_calling (code size : Word) (input : Option String) (mem : Memory) :
    (calling code size input mem).machine.bufferSize = size := by cbv

/-- The program with a text to be read. -/
def readingAbc : Run := calling 8 6 (some "abc") (.empty true)

theorem calls_readingAbc : readingAbc.tick.2.tick.2.Calls .printString := by
  let entry : TextEntry := ⟨MemoryMap.textBase + 8, .syscall, ⟨"echo.s", 1⟩, "", false, true⟩
  exact ⟨by cbv, by cbv, ⟨entry, by cbv, rfl, by cbv⟩, by cbv⟩

/-- The text is read, `$v0` is set for the other service, and the text is printed. -/
theorem echoes_ascii_abc :
    readingAbc.Echoes 4 "abc" ∧ readingAbc.tick.2.tick.2.tick.2.console = "abc" := by
  have reads : readingAbc.Calls .readString := calls_calling rfl
  have whole : Text.readable "abc" = ['a', 'b', 'c'] := by decide
  have echoes : readingAbc.Echoes 4 "abc" := by
    have read := (@echoes_ascii _ "abc" reads rfl (by simp) (by decide +kernel)
      (by rw [whole]; decide +kernel)).1
    rwa [whole] at read
  refine ⟨echoes, ?_⟩
  obtain ⟨after, ticked, -, prints⟩ := echoes
  rw [← show readingAbc.tick.2 = after from congrArg Prod.snd ticked] at prints
  obtain ⟨next, printed, shown⟩ := prints _ calls_readingAbc (by cbv) (by cbv)
  rw [printed, shown]
  cbv

/-- One character more than a service reads. -/
def overlong : String := String.ofList (List.replicate Memory.maxString 'a')

def readingOverlong : Run := calling 8 70000 (some overlong) (.empty false)

theorem letter_of_mem_overlong {c : Char} (member : c ∈ overlong.toList) : c = 'a' := by
  rw [overlong, String.toList_ofList] at member
  exact List.eq_of_mem_replicate member

theorem length_utf8Bytes_overlong : (Text.utf8Bytes overlong).length = Memory.maxString := by
  rw [Text.utf8Bytes_ascii fun c member => by rw [letter_of_mem_overlong member]; decide,
    List.length_map, overlong, String.toList_ofList, List.length_replicate]

theorem permitted_heapBase {n : Nat} (small : n ≤ 70000) : Permitted MemoryMap.heapBase n := by
  intro i less
  have base : MemoryMap.heapBase.toNat = 0x10040000 := rfl
  rw [MemoryMap.mapped_iff, toNat_add_ofNat (by omega), base]
  omega

/-- There is room for the whole text and the zero byte behind it, and yet its last character is
lost. -/
theorem echoes_overlong :
    readingOverlong.Calls .readString ∧ readingOverlong.channels.input = some overlong ∧
    (∀ c ∈ overlong.toList, c.toNat < 256 ∧ c ≠ '\x00') ∧
    ((Text.utf8Bytes overlong).length : Int) < readingOverlong.machine.bufferSize.toInt ∧
    Permitted readingOverlong.machine.buffer 70000 ∧ ¬ readingOverlong.Echoes 70000 overlong := by
  have reads : readingOverlong.Calls .readString := calls_calling rfl
  have size : readingOverlong.machine.bufferSize = 70000 := bufferSize_calling ..
  have base : readingOverlong.machine.buffer = MemoryMap.heapBase := buffer_calling ..
  have plain : ∀ c ∈ overlong.toList, c.toNat < 256 ∧ c ≠ '\x00' := by
    intro c member
    rw [letter_of_mem_overlong member]
    decide
  have short := readingOverlong.machine.length_stored_lt overlong
  rw [Memory.maxString] at short
  refine ⟨reads, rfl, plain, ?_, base ▸ permitted_heapBase le_rfl, ?_⟩
  · rw [length_utf8Bytes_overlong, size]
    decide
  · rintro ⟨after, ticked, -, whole⟩
    obtain ⟨left, reading, -, cut⟩ := echoes_stored reads rfl (fun member => (plain _ member).2 rfl)
      (by rw [size]; decide) (by rw [base]; exact permitted_heapBase (by omega))
    obtain rfl : after = left := (Prod.mk.inj (ticked.symm.trans reading)).2
    have prints : (calling 4 70000 none after.machine.mem).Calls .printString := calls_calling rfl
    have same := (buffer_calling 4 70000 none after.machine.mem).trans base.symm
    obtain ⟨next, printed, shown⟩ := whole _ prints same rfl
    obtain ⟨other, again, less⟩ := cut _ prints same rfl
    obtain rfl : next = other := (Prod.mk.inj (printed.symm.trans again)).2
    have lengths := congrArg String.length (shown.symm.trans less)
    have long : overlong.length = Memory.maxString := by
      rw [overlong, String.length_ofList, List.length_replicate]
    rw [String.length_append, String.length_append, long, Text.byteText, String.length_ofList,
      List.length_map, Memory.maxString] at lengths
    omega

end Run

end MipsLab
