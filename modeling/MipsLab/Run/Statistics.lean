import MipsLab.Isa.Instruction
import MipsLab.Ieee.Shortest
import MipsLab.Text.Numeral

/-! Counts of executed instructions, in all and by category. -/
namespace MipsLab

structure Statistics where
  total : Nat := 0
  counts : Vector Nat 8 := Vector.replicate 8 0
  deriving DecidableEq

/-- The categories in the order of the report, with the names of their rows. -/
def InstrClass.rows : List (InstrClass × String) :=
  [(alu, "op.alu"), (load, "op.load"), (store, "op.store"), (branch, "op.branch"),
   (jump, "op.jump"), (float, "op.fp"), (syscall, "op.syscall"), (other, "op.other")]

def InstrClass.index : InstrClass → Fin 8
  | alu => 0
  | load => 1
  | store => 2
  | branch => 3
  | jump => 4
  | float => 5
  | syscall => 6
  | other => 7

namespace Statistics

def count (s : Statistics) (c : InstrClass) : Nat := s.counts[c.index]

def setCount (s : Statistics) (c : InstrClass) (n : Nat) : Statistics :=
  { s with counts := s.counts.set c.index n }

def record (s : Statistics) (c : InstrClass) : Statistics :=
  { s.setCount c (s.count c + 1) with total := s.total + 1 }

/-- Takes back one instruction; no count falls below zero. -/
def unrecord (s : Statistics) (c : InstrClass) : Statistics :=
  { s.setCount c (s.count c - 1) with total := s.total - 1 }

def percent (part whole : Nat) : String :=
  let asDouble (n : Nat) := Ieee.ofInt Ieee.double n
  let share := Ieee.mul Ieee.double (Ieee.div Ieee.double (asDouble part) (asDouble whole))
    (asDouble 100)
  match Ieee.decode Ieee.double share with
  | .finite _ mantissa scale => Ieee.fixedText 2 mantissa scale
  | _ => ""

def row (s : Statistics) (entry : InstrClass × String) : String :=
  let n := s.count entry.1
  "  " ++ String.ofList (Text.padRight ' ' 22 entry.2.toList) ++ " " ++ toString n ++ " (" ++
    percent n (max s.total 1) ++ "%)\n"

def rule (mark : Char) : String := String.ofList (List.replicate 58 mark) ++ "\n"

def report (s : Statistics) : String :=
  rule '=' ++ "EXECUTION STATISTICS\n" ++ rule '=' ++
    "sim_insts                " ++ toString s.total ++ "\n" ++ rule '-' ++ "INSTRUCTION MIX\n" ++
    String.join (InstrClass.rows.map s.row) ++ rule '='

end Statistics

end MipsLab
