/-! Settings of assembling and running. -/
namespace MipsLab

structure Settings where
  /-- Pause at breakpoints, and before every instruction unless told to continue. -/
  debug : Bool := false
  /-- Memory that was never written reads as filler instead of zero. -/
  garbageMemory : Bool := false
  /-- Registers start with filler instead of zero. -/
  garbageRegisters : Bool := false
  /-- Report redefined macros and truncated data. -/
  warnings : Bool := false
  /-- Print the statistics when a run ends. -/
  showCount : Bool := false
  /-- Fail once this many instructions have been executed. -/
  maxInstructions : Option Nat := none
  /-- Start at the label `main` instead of the first text address. -/
  startAtMain : Bool := false
  deriving DecidableEq, Inhabited

end MipsLab
