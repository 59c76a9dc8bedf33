import MipsLab.Control.Worker

/-! The controller: what those who drive a run from outside see of it. It sends commands to the
worker, answers questions about the run, and keeps the breakpoints from one run to the next.
Controlled runs always have debugging enabled. -/
namespace MipsLab

/-- An installed run: its worker and the commands that the worker has not taken yet. -/
structure ControlledRun where
  worker : Worker
  queue : List WorkerCommand

structure Controller where
  settings : Settings
  breakpoints : List SourceTag
  active : Option ControlledRun
  tree : FileTree

namespace Controller

def new (settings : Settings) (tree : FileTree) : Controller :=
  { settings := { settings with debug := true }, breakpoints := [], active := none, tree }

def run? (c : Controller) : Option Run := c.active.map (·.worker.run)

def isRunning (c : Controller) : Bool := c.active.any (·.worker.phase ≠ .exited)

def settle (c : Controller) (fuel : Nat) : Controller :=
  match c.active with
  | none => c
  | some a =>
    let (worker, queue) := a.worker.settle fuel a.queue
    { c with active := some ⟨worker, queue⟩ }

def drain (c : Controller) : List Event × Controller :=
  match c.active with
  | none => ([], c)
  | some a =>
    let (events, r) := a.worker.run.drain
    (events, { c with active := some { a with worker := { a.worker with run := r } } })

/-- Sends a command, and tells whether there is a worker to take it. -/
def send (c : Controller) (command : WorkerCommand) : Bool × Controller :=
  match c.active with
  | none => (false, c)
  | some a =>
    if a.worker.phase = .exited then (false, c)
    else (true, { c with active := some { a with queue := a.queue ++ [command] } })

def stop (c : Controller) (fuel : Nat) : List Event × Controller :=
  let settled := (c.send .stop).2.settle fuel
  match settled.active with
  | none => ([], settled)
  | some a =>
    let r := a.worker.run.stop
    (r.events.reverse, { settled with active := none, tree := r.channels.files.tree })

def withBreakpoints (r : Run) (breakpoints : List SourceTag) : Run :=
  { r with debugger :=
      breakpoints.foldl (fun d tag => (d.addBreakpoint tag.file tag.line).2.2) r.debugger }

/-- Installs a run in place of the one before, which is stopped. -/
def install (c : Controller) (fuel : Nat) (program : Program) (prepare : Run → Run) : Controller :=
  let c := (c.stop fuel).2
  let r := withBreakpoints (prepare (.start program c.settings c.tree)) c.breakpoints
  { c with active := some ⟨.start r, []⟩ }

def start (c : Controller) (fuel : Nat) (program : Program) : Controller :=
  c.install fuel program fun r => { r with debugger := r.debugger.resume .continue }

def startPaused (c : Controller) (fuel : Nat) (program : Program) : Controller :=
  c.install fuel program id

def withDebugger (c : Controller) (change : Debugger → Debugger) : Controller :=
  { c with active := c.active.map fun a =>
      { a with worker := { a.worker with
          run := { a.worker.run with debugger := change a.worker.run.debugger } } } }

/-- Sets a breakpoint in this run and all later ones, and tells whether it is new. -/
def addBreakpoint (c : Controller) (file : String) (line : Nat) : Bool × Controller :=
  let c := c.withDebugger fun d => (d.addBreakpoint file line).2.2
  if c.breakpoints.contains ⟨file, line⟩ then (false, c)
  else (true, { c with breakpoints := ⟨file, line⟩ :: c.breakpoints })

/-- Removes a breakpoint from this run and all later ones, and tells whether there was one. -/
def removeBreakpoint (c : Controller) (file : String) (line : Nat) : Bool × Controller :=
  let c := c.withDebugger fun d => (d.removeBreakpoint file line).2
  (c.breakpoints.contains ⟨file, line⟩,
    { c with breakpoints := c.breakpoints.filter (· ≠ ⟨file, line⟩) })

end Controller

end MipsLab
