import MipsLab.Source.Error
import MipsLab.Source.Eqv
import MipsLab.Source.PathNames
import MipsLab.Source.Segment
import MipsLab.Source.Statement
import MipsLab.Isa.Mnemonic

/-! The include walk. Files are read depth first from the root; a file comes after the files that
it includes, a file reached twice is taken once, and a file reached from itself is an error. All
`.eqv` definitions met on the way are collected in one table. -/
namespace MipsLab

/-- Whether a name, in any case, is a mnemonic. -/
def isMnemonic (name : String) : Bool := (Mnemonic.ofName? name.toLower).isSome

/-- Why a name cannot be defined, if it is a word of the language. -/
def reserved? (name : String) : Option Reserved :=
  if Register.isToken name.toList then some .register
  else if (Directive.ofName? name).isSome then some .directive
  else if isMnemonic name then some .mnemonic
  else none

structure RawFile where
  path : Path
  name : String
  contents : List Char

structure Walk where
  stack : List (Path × String)
  visited : List Path
  files : List RawFile
  eqv : EqvTable
  names : PathNames
  warnings : List Warning

namespace Walk

def start (names : PathNames) : Walk := ⟨[], [], [], {}, names, []⟩

/-- The definition in the operands of an `.eqv` line. -/
def definition? (operand : List Char) : Option (String × String) :=
  match Text.cutFirst Text.isBlank operand with
  | some (name, _, value) =>
    let value := Text.trim value
    if value.isEmpty then none else some (String.ofList name, String.ofList value)
  | none => none

def define (walk : Walk) (operand : List Char) (tag : SourceTag) :
    Except PreprocessError Walk :=
  match definition? operand with
  | none => .error (.malformedDirective ".eqv" tag)
  | some (name, value) =>
    match reserved? name with
    | some reserved => .error (.restrictedName name reserved tag)
    | none =>
      if isIdentifier name.toList then
        let (previous, eqv) := walk.eqv.define name value
        let warnings := match previous with
          | some old => .redefined tag name old value :: walk.warnings
          | none => walk.warnings
        .ok { walk with eqv, warnings }
      else .error (.malformedDirective ".eqv" tag)

/-- The written path of an `.include` line, which stands between quotes. -/
def includedPath? (operand : List Char) : Option String := do
  let body ← Text.dropStart? ['"'] operand
  let body ← Text.dropEnd? ['"'] body
  if body.isEmpty then none else some (String.ofList body)

/-- Follows an `.include` line of a file in `directory`. A new file is read by `enter`. -/
def follow (disk : Disk) (enter : Path → List Char → Walk → Except PreprocessError Walk)
    (directory : String) (walk : Walk) (operand : List Char) (tag : SourceTag) :
    Except PreprocessError Walk :=
  match includedPath? operand with
  | none => .error (.malformedDirective ".include" tag)
  | some written =>
    let shown := Path.joinText directory written
    match disk.resolve shown with
    | none => .error (.missingFile shown)
    | some path =>
      if walk.stack.any (·.1 = path) then
        let (name, _) := walk.names.insert path
        .error (.cyclicInclude path ((walk.stack.map (·.2)).reverse ++ [name]))
      else if walk.visited.contains path then .ok walk
      else
        match disk.text? path with
        | none => .error (.missingFile shown)
        | some contents => enter path contents.toList walk

def line (disk : Disk) (enter : Path → List Char → Walk → Except PreprocessError Walk)
    (directory name : String) (walk : Walk) (numbered : List Char × Nat) :
    Except PreprocessError Walk :=
  let (text, index) := numbered
  if isStringLine text then .ok walk
  else
    let tag : SourceTag := ⟨name, index + 1⟩
    match directiveOf? text with
    | some (directive, operand) =>
      if directive = ".include".toList then follow disk enter directory walk operand tag
      else if directive = ".eqv".toList then walk.define operand tag
      else .ok walk
    | none => .ok walk

/-- Reads one file, whose written directory is given; the files it includes are read by
`enter`. -/
def file (disk : Disk) (enter : Path → List Char → Walk → Except PreprocessError Walk)
    (directory : String) (path : Path) (contents : List Char) (walk : Walk) :
    Except PreprocessError Walk := do
  let (name, names) := walk.names.insert path
  let entered := { walk with
    names, visited := path :: walk.visited, stack := (path, name) :: walk.stack }
  let walked ← (Text.lines contents).zipIdx.foldlM (line disk enter directory name) entered
  return { walked with
    stack := walked.stack.tail, files := ⟨path, name, contents⟩ :: walked.files }

/-- Reads a file and everything it includes. At most `budget` files may be open inside it; as the
open files are distinct, the number of files on the disk is budget enough. -/
def visit (disk : Disk) : (budget : Nat) → (directory : String) → Path → List Char → Walk →
    Except PreprocessError Walk
  | 0 => file disk fun path _ _ => .error (.missingFile path.text)
  | budget + 1 => file disk fun path => visit disk budget path.parent.text path

end Walk

end MipsLab
