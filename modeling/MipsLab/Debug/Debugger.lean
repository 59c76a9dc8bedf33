import MipsLab.Assembly.Program
import MipsLab.Machine.Change

/-! The debugger decides before which instructions a run pauses, and keeps the records by which
executed instructions are undone. -/
namespace MipsLab

inductive DebugState where
  | running
  | stepping
  | paused
  | continuing
  deriving DecidableEq, Inhabited

def DebugState.name : DebugState → String
  | running => "Running"
  | stepping => "Stepping"
  | paused => "Paused"
  | continuing => "Continuing"

/-- How a pause is left: for one instruction, or up to a breakpoint. -/
inductive ResumeMode where
  | step | continue
  deriving DecidableEq, Inhabited

structure Debugger where
  enabled : Bool
  state : DebugState
  /-- A continuation was asked for, and no breakpoint has been met since. -/
  continuing : Bool
  /-- The lines to pause at, under their display names. -/
  breakpoints : List SourceTag
  undo : List Change
  names : PathNames

namespace Debugger

def new (enabled : Bool) (names : PathNames) : Debugger :=
  { enabled, state := if enabled then .stepping else .running, continuing := false,
    breakpoints := [], undo := [], names }

def setEnabled (d : Debugger) (enabled : Bool) : Debugger :=
  { d with enabled, state := if enabled then d.state else .running }

def breakpoint (d : Debugger) (file : String) (line : Nat) : SourceTag :=
  ⟨d.names.normalize file, line⟩

/-- Sets a breakpoint; also tells where it was set, and whether it is new. -/
def addBreakpoint (d : Debugger) (file : String) (line : Nat) : SourceTag × Bool × Debugger :=
  let tag := d.breakpoint file line
  if d.breakpoints.contains tag then (tag, false, d)
  else (tag, true, { d with breakpoints := tag :: d.breakpoints })

def removeBreakpoint (d : Debugger) (file : String) (line : Nat) : Bool × Debugger :=
  let tag := d.breakpoint file line
  (d.breakpoints.contains tag, { d with breakpoints := d.breakpoints.filter (· ≠ tag) })

def clearBreakpoints (d : Debugger) : Debugger := { d with breakpoints := [] }

def tagBefore (a b : SourceTag) : Bool :=
  a.file < b.file || (a.file == b.file && a.line ≤ b.line)

def sortedBreakpoints (d : Debugger) : List SourceTag := d.breakpoints.mergeSort tagBefore

def listing (d : Debugger) : String :=
  "\n".intercalate (d.sortedBreakpoints.zipIdx.map fun (tag, i) =>
    toString (i + 1) ++ " " ++ tag.text)

/-- Decides whether to pause before an entry. Only the first instruction of a line meets a
breakpoint; meeting one ends a continuation. -/
def shouldBreak (d : Debugger) (entry : TextEntry) : Bool × Debugger :=
  if !d.enabled then (false, d)
  else if entry.first && d.breakpoints.contains entry.tag then
    (true, { d with state := .paused, continuing := false })
  else if d.continuing then (false, d)
  else (true, { d with state := .stepping })

def resume (d : Debugger) : ResumeMode → Debugger
  | .step => { d with state := .stepping, continuing := false }
  | .continue => { d with state := .continuing, continuing := true }

/-- Keeps the record of an executed instruction if debugging is enabled. -/
def remember (d : Debugger) (c : Change) : Debugger :=
  if d.enabled then { d with undo := c :: d.undo } else d

end Debugger

end MipsLab
