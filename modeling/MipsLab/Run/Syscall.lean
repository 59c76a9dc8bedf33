import MipsLab.Files.Table
import MipsLab.Ieee.Reading
import MipsLab.Machine.Execute

/-! System calls: the services that a program asks for with a code in `$v0`. A service that reads
takes the text that was delivered last; without one it waits, and nothing has happened. -/
namespace MipsLab

structure Channels where
  input : Option String
  files : FileTable
  deriving DecidableEq

inductive Service where
  | printInt | printFloat | printDouble | printString | readInt | readFloat | readDouble
  | readString | extendHeap | exit | printChar | readChar | openFile | readFile | writeFile
  | closeFile | exitWith | dumpMemory | printHex | printBinary | printUnsigned
  deriving DecidableEq, Inhabited

namespace Service

def codes : List (Nat × Service) :=
  [(1, printInt), (2, printFloat), (3, printDouble), (4, printString), (5, readInt),
   (6, readFloat), (7, readDouble), (8, readString), (9, extendHeap), (10, exit),
   (11, printChar), (12, readChar), (13, openFile), (14, readFile), (15, writeFile),
   (16, closeFile), (17, exitWith), (30, dumpMemory), (34, printHex), (35, printBinary),
   (36, printUnsigned)]

def ofCode? (code : Word) : Option Service := codes.lookup code.toNat

end Service

/-- What an instruction can reach: the machine, what it is connected to, and the texts that the
instruction has printed. -/
structure Station where
  machine : Machine
  channels : Channels
  printed : List String
  deriving DecidableEq

namespace Station

def onMachine {α : Type} (work : Exec Machine α) : Exec Station α := fun s =>
  match work s.machine with
  | .ok a machine => .ok a { s with machine }
  | .error f machine => .error f { s with machine }

def setFiles (s : Station) (files : FileTable) : Station :=
  { s with channels := { s.channels with files } }

end Station

namespace Syscall

open Exec (require update)
open Station (onMachine)

def print (text : String) : Exec Station Unit :=
  modify fun s => { s with printed := s.printed ++ [text] }

/-- Prints a text, unless there is a fault in its place. -/
def printing (text : Except Fault String) : Exec Station Control := do
  print (← require text)
  return .next

def takeInput : Exec Station (Option String) := do
  let s ← get
  set { s with channels := { s.channels with input := none } }
  return s.channels.input

/-- Works with the delivered text. Without one the service waits. -/
def reading (use : String → Exec Machine Unit) : Exec Station Control := do
  match ← takeInput with
  | none => return .await
  | some text =>
    onMachine (use text)
    return .next

/-- The value that a delivered text stands for, blanks around it aside. -/
def parsed {α : Type} (parse : List Char → Option α) (text : String) : Except Fault α :=
  match parse (Text.trim text.toList) with
  | some value => .ok value
  | none => .error (.invalidInput text)

def readInt (text : String) : Exec Machine Unit := do
  let value ← require (parsed (Text.signed? 32) text)
  modify (·.setReg Register.v0 (BitVec.ofInt 32 value))

def readFloat (text : String) : Exec Machine Unit := do
  let bits ← require (parsed (Ieee.read? Ieee.single) text)
  modify (·.setFloat Register.f0 (BitVec.ofNat 32 bits))

def readDouble (text : String) : Exec Machine Unit := do
  let bits ← require (parsed (Ieee.read? Ieee.double) text)
  update (·.setDouble Register.f0 (BitVec.ofNat 64 bits))

/-- Stores as much of a text as the buffer at `$a0` holds, with a zero byte behind it. -/
def readString (text : String) : Exec Machine Unit := do
  let m ← get
  match Memory.bufferLength (m.regs.read Register.a1) with
  | 0 => return
  | capacity + 1 =>
    update (·.storeBytes (m.regs.read Register.a0) ((Text.utf8Bytes text).take capacity ++ [0]))

def readChar (text : String) : Exec Machine Unit :=
  match Text.utf8Bytes text with
  | [] => throw (.invalidInput text)
  | b :: _ => modify (·.setReg Register.v0 (b.setWidth 32))

def extendHeap : Exec Machine Unit := do
  let m ← get
  let (block, mem) ← require (m.mem.extendHeap (m.regs.read Register.a0))
  modify ({ · with mem })
  modify (·.setReg Register.v0 block)

def answer (value : Word) : Exec Station Control := do
  onMachine (modify (·.setReg Register.v0 value))
  return .next

/-- The answer of a file service that cannot do its work. -/
def refuse : Exec Station Control := answer (-1)

def openFile : Exec Station Control := do
  let s ← get
  let m := s.machine
  let name ← require (m.mem.readString (m.regs.read Register.a0))
  let (descriptor, files) :=
    s.channels.files.openFile (Text.byteText name) (m.regs.read Register.a1).toInt
  modify (·.setFiles files)
  answer (BitVec.ofInt 32 descriptor)

def opening? (m : Machine) (c : Channels) : Option String :=
  match Service.ofCode? (m.regs.read Register.v0), m.mem.readString (m.regs.read Register.a0) with
  | some .openFile, .ok name => some (Path.joinText c.files.base.text (Text.byteText name))
  | _, _ => none

/-- Puts the bytes that were read into the buffer at `$a1`, and their number into `$v0`. -/
def deliver (bytes : List Byte) : Exec Machine Unit := do
  let m ← get
  update (·.storeBytes (m.regs.read Register.a1) bytes)
  modify (·.setReg Register.v0 (BitVec.ofNat 32 bytes.length))

/-- Descriptor zero reads the delivered text. A negative size or a descriptor that cannot be read
gives `-1`. -/
def readFile : Exec Station Control := do
  let s ← get
  let descriptor := (s.machine.regs.read Register.a0).toInt
  let size := s.machine.regs.read Register.a2
  let count := Memory.bufferLength size
  if size.slt 0 then refuse
  else if descriptor = 0 then
    reading fun text => deliver ((Text.utf8Bytes text).take count)
  else
    match s.channels.files.read descriptor count with
    | none => refuse
    | some (bytes, files) => do
      modify (·.setFiles files)
      onMachine (deliver bytes)
      return .next

/-- Descriptors one and two print. -/
def writeFile : Exec Station Control := do
  let s ← get
  let m := s.machine
  let descriptor := (m.regs.read Register.a0).toInt
  let count := Memory.bufferLength (m.regs.read Register.a2)
  let data ← require (m.mem.readBytes (m.regs.read Register.a1) count)
  if descriptor = 1 ∨ descriptor = 2 then
    print (Text.byteText data)
    answer (BitVec.ofNat 32 data.length)
  else
    match s.channels.files.write descriptor data with
    | some files => do
      modify (·.setFiles files)
      answer (BitVec.ofNat 32 data.length)
    | none => refuse

/-- A line for each of `count` words from `a` on. -/
def dumpLines (m : Memory) : (count : Nat) → Word → Except Fault (List String)
  | 0, _ => .ok []
  | count + 1, a => do
    let word ← m.readWord a
    let rest ← dumpLines m count (a + 4)
    return (hexWord a ++ ": " ++ hexWord word ++ "\n") :: rest

/-- The words from `first` up to, but not including, `last`. -/
def dump (m : Memory) (first last : Word) : Except Fault String :=
  (dumpLines m ((last.toNat - first.toNat + 3) / 4) first).map String.join

def serve (service : Service) : Exec Station Control := do
  let s ← get
  let m := s.machine
  let a0 := m.regs.read Register.a0
  match service with
  | .printInt => printing (.ok (toString a0.toInt))
  | .printFloat => printing (.ok (Fpu.singleText (m.regs.readFloat Register.f12)))
  | .printDouble => printing ((m.regs.readDouble Register.f12).map Fpu.doubleText)
  | .printString => printing ((m.mem.readString a0).map Text.byteText)
  | .readInt => reading readInt
  | .readFloat => reading readFloat
  | .readDouble => reading readDouble
  | .readString => reading readString
  | .extendHeap => do
    onMachine extendHeap
    return .next
  | .exit => return .exit 0
  | .printChar => printing (.ok (Text.byteText [a0.setWidth 8]))
  | .readChar => reading readChar
  | .openFile => openFile
  | .readFile => readFile
  | .writeFile => writeFile
  | .closeFile => do
    set (s.setFiles (s.channels.files.close a0.toInt))
    return .next
  | .exitWith => return .exit a0
  | .dumpMemory => printing (dump m.mem a0 (m.regs.read Register.a1))
  | .printHex => printing (.ok (hexWord a0))
  | .printBinary => printing (.ok (String.ofList (Text.paddedDigits 2 32 a0.toNat)))
  | .printUnsigned => printing (.ok (toString a0.toNat))

/-- Performs the service whose code is in `$v0`. -/
def perform : Exec Station Control := do
  let s ← get
  let code := s.machine.regs.read Register.v0
  match Service.ofCode? code with
  | some service => serve service
  | none => throw (.invalidSyscall code.toInt)

end Syscall

end MipsLab
