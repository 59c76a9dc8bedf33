import MipsLab.Debug.Command
import MipsLab.Run.Basic

/-! Obeying the prompt. -/
namespace MipsLab

inductive PromptAction where
  | stay
  | resume (mode : ResumeMode)
  | quit
  deriving DecidableEq

structure PromptReply where
  output : String
  action : PromptAction
  deriving DecidableEq

namespace Run

def obey (r : Run) : PromptCommand → PromptReply × Run
  | .setBreak file line =>
    (⟨"", .stay⟩, { r with debugger := (r.debugger.addBreakpoint file line).2.2 })
  | .next => (⟨"", .resume .step⟩, r.resume .step)
  | .continue => (⟨"", .resume .continue⟩, r.resume .continue)
  | .info => (⟨r.debugger.listing, .stay⟩, r)
  | .delete => (⟨"", .stay⟩, { r with debugger := r.debugger.clearBreakpoints })
  | .print q => (⟨q.answer r.program.symbols.labels r.machine, .stay⟩, r)
  | .quit => (⟨"", .quit⟩, r.stop)
  | .reverse =>
    let back := r.stepBack.2
    (⟨back.describe?.getD "", .stay⟩, back)
  | .help => (⟨Query.usage, .stay⟩, r)

/-- Obeys a line; a line that means nothing is answered by the help. -/
def obeyLine (r : Run) (line : String) : PromptReply × Run :=
  match PromptCommand.ofLine? line with
  | some command => r.obey command
  | none => (⟨Query.usage, .stay⟩, r)

end Run

end MipsLab
