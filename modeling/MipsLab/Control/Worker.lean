import MipsLab.Run.Basic

/-! The worker of a controlled run. It alone advances the run. Between any two instructions it
takes the commands that have come, oldest first; while the run is paused, or a service waits for
input, it does nothing but wait for the next command. -/
namespace MipsLab

inductive WorkerCommand where
  | resume
  | pause
  | step
  | reverse
  | input (text : String)
  | stop
  deriving DecidableEq

inductive WorkerPhase where
  | draining
  | ready
  /-- A service waits for input. -/
  | awaiting
  | exited
  deriving DecidableEq, Inhabited

structure Worker where
  run : Run
  paused : Bool
  phase : WorkerPhase
  error : Option RunError

namespace Worker

def start (r : Run) : Worker := ⟨r, false, .draining, none⟩

/-- Obeys a command. Resuming and stepping leave a pause; the others keep it. -/
def take (w : Worker) (command : WorkerCommand) : Worker :=
  let kept (r : Run) : Worker := { w with run := r, phase := .draining }
  match command with
  | .resume => { kept (w.run.resume .continue) with paused := false }
  | .step => { kept (w.run.resume .step) with paused := false }
  | .pause => kept { w.run with debugger := w.run.debugger.resume .step }
  | .reverse => kept w.run.stepBack.2
  | .input text => kept (w.run.setInput text)
  | .stop => { w with run := w.run.stop, phase := .exited }

def tick (w : Worker) : Worker :=
  match w.run.tick with
  | (.ok .executed, r) => { w with run := r, phase := .draining }
  | (.ok .paused, r) => { w with run := r, paused := true, phase := .draining }
  | (.ok .awaiting, r) => { w with run := r, phase := .awaiting }
  | (.ok (.exited _), r) | (.ok .finished, r) => { w with run := r, phase := .exited }
  | (.error e, r) => { w with run := r, phase := .exited, error := some e }

/-- Waits for a command. When none can come any more, the run is stopped. -/
def receive (w : Worker) (queue : List WorkerCommand) (closed : Bool) :
    Option (Worker × List WorkerCommand) :=
  match queue with
  | command :: rest => some (w.take command, rest)
  | [] => if closed then some ({ w with run := w.run.stop, phase := .exited }, []) else none

/-- One move of the worker, and the commands that are left; nothing if it has exited or has to
wait. Nobody can send further commands once the queue is closed. -/
def advance? (w : Worker) (queue : List WorkerCommand) (closed : Bool) :
    Option (Worker × List WorkerCommand) :=
  match w.phase, queue with
  | .exited, _ => none
  | .draining, command :: rest => some (w.take command, rest)
  | .draining, [] => some ({ w with phase := .ready }, [])
  | .awaiting, queue => w.receive queue closed
  | .ready, queue => if w.paused then w.receive queue closed else some (w.tick, queue)

/-- Lets the worker move until it has to wait or exits, but at most `fuel` times. -/
def settle : (fuel : Nat) → Worker → List WorkerCommand → Worker × List WorkerCommand
  | 0, w, queue => (w, queue)
  | fuel + 1, w, queue =>
    match w.advance? queue false with
    | some (next, rest) => settle fuel next rest
    | none => (w, queue)

end Worker

end MipsLab
