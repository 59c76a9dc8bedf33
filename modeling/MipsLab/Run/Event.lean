import MipsLab.Machine.Fault
import MipsLab.Source.Tag

/-! What a run reports to those who watch it, and how it fails. -/
namespace MipsLab

structure RunError where
  pc : Word
  tag : Option SourceTag
  fault : Fault
  deriving DecidableEq

namespace RunError

def kind (e : RunError) : String := e.fault.kind

def message (e : RunError) : String :=
  let place := match e.tag with
    | some tag => tag.text ++ " (pc " ++ hexWord e.pc ++ ")"
    | none => "pc " ++ hexWord e.pc
  place ++ ": " ++ e.fault.message

end RunError

inductive Event where
  | step (pc : Word)
  | console (text : String)
  | paused (pc : Word)
  | error (e : RunError)
  | ended (success : Bool)
  deriving DecidableEq

end MipsLab
