import MipsLab.Source.Tag
import MipsLab.Source.Disk

/-! What can go wrong, and what may be worth a warning, while source files are collected. -/
namespace MipsLab

inductive Reserved where
  | register | directive | mnemonic
  deriving DecidableEq, Inhabited

def Reserved.name : Reserved → String
  | .register => "register"
  | .directive => "directive"
  | .mnemonic => "mnemonic"

inductive PreprocessError where
  /-- A file was reached again while it was still being included. -/
  | cyclicInclude (path : Path) (chain : List String)
  | missingFile (shown : String)
  | restrictedName (name : String) (reserved : Reserved) (tag : SourceTag)
  | malformedDirective (directive : String) (tag : SourceTag)
  deriving DecidableEq

namespace PreprocessError

def kind : PreprocessError → String
  | cyclicInclude .. => "CyclicInclude"
  | missingFile _ => "MissingFile"
  | restrictedName .. => "RestrictedMacro"
  | malformedDirective .. => "MalformedDirective"

def message : PreprocessError → String
  | cyclicInclude path chain =>
    "cyclic include of " ++ path.text ++ ": " ++ " -> ".intercalate chain
  | missingFile shown => "file not found: " ++ shown
  | restrictedName name reserved tag =>
    tag.text ++ ": `" ++ name ++ "` is a " ++ reserved.name ++
      " and cannot be redefined with .eqv"
  | malformedDirective directive tag =>
    tag.text ++ ": malformed " ++ directive ++ " directive"

end PreprocessError

inductive Warning where
  | redefined (tag : SourceTag) (name previous value : String)
  | truncated (tag : SourceTag) (directive : String) (value : Int)
  deriving DecidableEq

end MipsLab
