import MipsLab.Debug.Debugger
import MipsLab.Run.Event
import MipsLab.Run.Statistics
import MipsLab.Run.Syscall
import MipsLab.Settings.Basic

/-! The state of a run, and the single step by which it advances. A step offers the next
instruction to the debugger, takes a change record, executes, and counts. A run ends at most once:
by an exit service, at the end of the text, by a fault, or from outside. -/
namespace MipsLab

structure Run where
  program : Program
  machine : Machine
  channels : Channels
  debugger : Debugger
  stats : Statistics
  /-- The number of instructions after which the run fails. -/
  limit : Option Nat
  console : String
  /-- The next step does not ask the debugger. -/
  skipCheck : Bool
  ended : Bool
  /-- Everything reported so far, newest first. -/
  events : List Event

/-- How a step ends, if it does not fail. -/
inductive Tick where
  | executed
  | paused
  /-- A service waits for input; nothing has changed. -/
  | awaiting
  | exited (code : Word)
  /-- The run had ended before, or has run off the end of the text. -/
  | finished
  deriving DecidableEq, Inhabited

abbrev TickResult := Except RunError Tick

namespace Run

def start (program : Program) (settings : Settings) (tree : FileTree) : Run where
  program := program
  machine :=
    ⟨.reset program.entry settings.garbageRegisters, .load program.data settings.garbageMemory⟩
  channels := ⟨none, .new program.names.rootDir tree⟩
  debugger := .new settings.debug program.names
  stats := {}
  limit := settings.maxInstructions
  console := ""
  skipCheck := false
  ended := false
  events := []

def pc (r : Run) : Word := r.machine.regs.pc

def entry? (r : Run) : Option TextEntry := r.program.entryAt? r.pc

/-- The listing of the next instruction; nothing past the end. -/
def describe? (r : Run) : Option String := r.entry?.map TextEntry.describe

def emit (r : Run) (e : Event) : Run := { r with events := e :: r.events }

def setInput (r : Run) (text : String) : Run :=
  { r with channels := { r.channels with input := some text } }

/-- Leaves a pause; the next step does not ask the debugger. -/
def resume (r : Run) (mode : ResumeMode) : Run :=
  { r with debugger := r.debugger.resume mode, skipCheck := true }

/-- Ends the run and closes its files, unless it has ended before. -/
def finish (r : Run) (success : Bool) : Run :=
  if r.ended then r
  else
    let channels := { r.channels with files := r.channels.files.closeAll }
    { r with ended := true, channels }.emit (.ended success)

def stop (r : Run) : Run := r.finish false

def fail (r : Run) (pc : Word) (fault : Fault) : TickResult × Run :=
  let e : RunError := ⟨pc, (r.program.entryAt? pc).map (·.tag), fault⟩
  (.error e, (r.emit (.error e)).finish false)

def station (r : Run) : Station := ⟨r.machine, r.channels, []⟩

/-- Executes an instruction; a system call reaches beyond the machine. -/
def react (pc : Word) : Instruction → Exec Station Control
  | .syscall => Syscall.perform
  | i => Station.onMachine (Machine.execute pc i)

def print (r : Run) (text : String) : Run :=
  { r with console := r.console ++ text }.emit (.console text)

/-- Takes over what an instruction has left, whether it was executed or not. -/
def absorb (r : Run) (s : Station) : Run :=
  { s.printed.foldl print r with machine := s.machine, channels := s.channels }

/-- A `break` instruction makes the debugger pause at the next instruction. -/
def breakIn (d : Debugger) : Instruction → Debugger
  | .breakpoint _ => if d.enabled then d.resume .step else d
  | _ => d

def complete (r : Run) (i : Instruction) (change : Change) : Run :=
  { r with
    skipCheck := false,
    debugger := (breakIn r.debugger i).remember change, stats := r.stats.record i.category }

def moveTo (r : Run) (pc : Word) : Run := { r with machine := r.machine.setPc pc }.emit (.step pc)

def follow (r : Run) (pc : Word) : Control → Tick × Run
  | .exit code => (.exited code, r.finish true)
  | .jump address => (.executed, r.moveTo address)
  | .next | .await => (.executed, r.moveTo (pc + 4))

def executeEntry (r : Run) (pc : Word) (entry : TextEntry) : TickResult × Run :=
  match Change.capture r.machine pc entry.instr with
  | .error f => r.fail pc f
  | .ok change =>
    match react pc entry.instr r.station with
    | .error f s => (r.absorb s).fail pc f
    | .ok .await s => (.ok .awaiting, r.absorb s)
    | .ok control s =>
      let (tick, r) := ((r.absorb s).complete entry.instr change).follow pc control
      (.ok tick, r)

def reachedLimit? (r : Run) : Option Nat := r.limit.filter (· ≤ r.stats.total)

/-- Advances the run by at most one instruction. -/
def tick (r : Run) : TickResult × Run :=
  if r.ended then (.ok .finished, r)
  else if r.program.isPastEnd r.pc then (.ok .finished, r.finish true)
  else
    match r.entry? with
    | none => r.fail r.pc (.invalidProgramCounter r.pc)
    | some entry =>
      let (pause, debugger) :=
        if r.skipCheck then (false, r.debugger) else r.debugger.shouldBreak entry
      if pause then (.ok .paused, { r with debugger, skipCheck := true }.emit (.paused r.pc))
      else
        match r.reachedLimit? with
        | some limit => { r with debugger }.fail r.pc (.instructionLimit limit)
        | none => { r with debugger }.executeEntry r.pc entry

/-- Executes one instruction without asking the debugger. -/
def step (r : Run) : TickResult × Run := { r with skipCheck := true }.tick

/-- Advances until the run pauses, waits for input, ends or fails, but by no more than `fuel`
instructions; `executed` says that these were not enough. -/
def run : (fuel : Nat) → Run → TickResult × Run
  | 0, r => (.ok .executed, r)
  | fuel + 1, r =>
    match r.tick with
    | (.ok .executed, next) => next.run fuel
    | stopped => stopped

def drain (r : Run) : List Event × Run := (r.events.reverse, { r with events := [] })

/-- Undoes the newest instruction, and tells whether there was one. A run that has ended is left
alone. -/
def stepBack (r : Run) : Bool × Run :=
  if r.ended then (false, r)
  else
    match r.debugger.undo with
    | [] => (false, r.emit (.step r.pc))
    | change :: undo =>
      let back :=
        { r with machine := change.revert r.machine, debugger := { r.debugger with undo } }
      let counted := match back.entry? with
        | some entry => { back with stats := back.stats.unrecord entry.instr.category }
        | none => back
      (true, counted.emit (.step counted.pc))

end Run

end MipsLab
