import MipsLab.Assembly.Program
import MipsLab.Machine.Basic

/-! What the prompt can show of a machine: flags, registers, and the memory behind a label. -/
namespace MipsLab

inductive Radix where
  | signed | unsigned | hex | binary
  deriving DecidableEq, Inhabited

namespace Radix

def ofLetter? : String → Option Radix
  | "i" => some signed
  | "u" => some unsigned
  | "x" => some hex
  | "b" => some binary
  | _ => none

/-- An integer of `bytes` bytes. Except in signed form it is shown as a bit pattern, in
hexadecimal and binary with all its digits. Bits beyond the sixty-fourth are zero. -/
def text (r : Radix) (value : Int) (bytes : Nat) : String :=
  let pattern := (value % (Nat.pow 2 (8 * min bytes 8) : Nat)).toNat
  match r with
  | signed => toString value
  | unsigned => toString pattern
  | hex => Text.hexText (2 * bytes) pattern
  | binary => "0b" ++ String.ofList (Text.paddedDigits 2 (8 * bytes) pattern)

end Radix

inductive Query where
  | flag (f : Flag)
  | register (r : Reg) (radix : Radix)
  | floatBits (r : FReg) (radix : Radix)
  | float (r : FReg) (fmt : Precision)
  | text (label : String)
  | ints (label : String) (width : Width) (count : Nat) (radix : Radix)
  | floats (label : String) (fmt : Precision) (count : Nat)
  | chars (label : String) (count : Nat)
  deriving DecidableEq

namespace Query

def usage : String :=
  "\n".intercalate
    ["USAGE:  [b]reak <filename> <line_no>",
     "[d]elete: Clear all breakpoints",
     "[n]ext: Step to the next instruction",
     "[c]ontinue: Run until the next breakpoint",
     "[i]nfo b: Print information about the breakpoints",
     "[p]rint <flag>",
     "[p]rint <reg> <format>",
     "[p]rint <label> <data_type> <length> <format>",
     "[q]uit: Terminate the program",
     "[h]elp: Print this usage text",
     "[r]everse: Step back to the previous instruction"]

/-- Control characters by their escapes, other characters that cannot be printed as a point. -/
def printable (b : Byte) : String :=
  if b = 0 then "\\0"
  else if b = 9 then "\\t"
  else if b = 10 then "\\n"
  else if b = 13 then "\\r"
  else if 32 ≤ b.toNat ∧ b.toNat ≤ 126 then Text.byteText [b]
  else "."

def intAt (m : Memory) (w : Width) (a : Word) : Except Fault Int :=
  match w with
  | .half => (m.readHalf a).map BitVec.toInt
  | .byte => (m.readByte a).map BitVec.toInt
  | .word | .double => (m.readWord a).map BitVec.toInt

def floatAt (m : Memory) (fmt : Precision) (a : Word) : Except Fault String :=
  match fmt with
  | .single => (m.readWord a).map Fpu.singleText
  | .double => (m.readDouble a).map Fpu.doubleText

/-- The texts of elements from `a` on, `size` bytes apart. The first element that cannot be read
ends the list with its fault. -/
def elements (shown : Word → Except Fault String) (size : Nat) : (count : Nat) → Word → List String
  | 0, _ => []
  | count + 1, a =>
    match shown a with
    | .ok line => line :: elements shown size count (a + BitVec.ofNat 32 size)
    | .error f => [f.message]

def shownCount (count size : Nat) : Nat := min count (Memory.maxString / size)

/-- The answer about the memory behind a label; an unknown label is answered by the help. -/
def behindLabel (labels : Labels) (label : String) (answer : Word → List String) : String :=
  match labels label with
  | some a => "\n".intercalate (answer a)
  | none => usage

def answer (q : Query) (labels : Labels) (m : Machine) : String :=
  match q with
  | flag f => if m.regs.flag f then "true" else "false"
  | register r radix => Register.text r ++ " " ++ radix.text (m.regs.read r).toInt 4
  | floatBits r radix => Register.floatText r ++ " " ++ radix.text (m.regs.readFloat r).toInt 4
  | float r .single => Register.floatText r ++ " " ++ Fpu.singleText (m.regs.readFloat r)
  | float r .double =>
    match m.regs.readDouble r with
    | .ok d => Register.floatText r ++ " " ++ Fpu.doubleText d
    | .error _ => "Not an even numbered register"
  | text label =>
    match m.mem.labelText labels label with
    | .ok (some s) => label ++ " " ++ s
    | .ok none => usage
    | .error f => f.message
  | ints label width count radix =>
    behindLabel labels label fun a =>
      elements (fun a => (intAt m.mem width a).map fun v => radix.text v width.bytes) width.bytes
        (shownCount count width.bytes) a
  | floats label fmt count =>
    let size := match fmt with
      | .single => 4
      | .double => 8
    behindLabel labels label fun a =>
      elements (floatAt m.mem fmt) size (shownCount count size) a
  | chars label count =>
    behindLabel labels label fun a =>
      label :: elements (fun a => (m.mem.readByte a).map fun b => "\t" ++ printable b) 1
        (shownCount count 1) a

end Query

end MipsLab
