import MipsLab.Assembly.Assembler
import MipsLab.Source.Linked

/-! From source files to a program. -/
namespace MipsLab

inductive LoadError where
  | preprocess (e : PreprocessError)
  | assembly (e : LocatedError)
  deriving DecidableEq

namespace LoadError

def kind : LoadError → String
  | preprocess e => e.kind
  | assembly e => e.error.kind

def message : LoadError → String
  | preprocess e => e.message
  | assembly e => e.message

end LoadError

def assemblePreprocessed (settings : Settings) (pre : Preprocessed) :
    Except LoadError Assembled := do
  let assembled ← (assembleLines settings pre.link pre.names).mapError .assembly
  let warnings := if settings.warnings then pre.warnings else []
  return { assembled with warnings := warnings ++ assembled.warnings }

def assembleFile (settings : Settings) (disk : Disk) (written : String) :
    Except LoadError Assembled := do
  let pre ← (Preprocessed.ofFile disk written).mapError .preprocess
  assemblePreprocessed settings pre

/-- Assembles a text as if it were a file of a directory. -/
def assembleText (settings : Settings) (disk : Disk) (directory : Path) (name contents : String) :
    Except LoadError Assembled := do
  let pre ← (Preprocessed.ofText disk directory name contents).mapError .preprocess
  assemblePreprocessed settings pre

end MipsLab
