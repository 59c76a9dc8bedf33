import MipsLab.Source.Disk
import MipsLab.Text.Blank

/-! Display names of source files. A file is shown by its path below the directory of the root
file, and a file outside that directory by its whole path without the first slash. -/
namespace MipsLab

structure PathNames where
  rootDir : Path
  /-- Canonical paths with their display names, in the order in which they were met. -/
  entries : List (Path × String)
  resolve : String → Option Path

namespace PathNames

def new (rootDir : Path) (resolve : String → Option Path) : PathNames := ⟨rootDir, [], resolve⟩

def shownName (rootDir path : Path) : String :=
  "/".intercalate ((Path.below? rootDir path).getD path)

def displayName? (names : PathNames) (path : Path) : Option String := names.entries.lookup path

/-- The display name of a path, which is known afterwards. -/
def insert (names : PathNames) (path : Path) : String × PathNames :=
  match names.displayName? path with
  | some name => (name, names)
  | none =>
    let name := shownName names.rootDir path
    (name, { names with entries := names.entries ++ [(path, name)] })

def names (names : PathNames) : List String := names.entries.map (·.2)

def baseName (name : String) : List Char :=
  match Text.cutLast (· = '/') name.toList with
  | some (_, _, base) => base
  | none => name.toList

/-- A reference without blanks and quotes around it, with forward slashes, and without a leading
`./`. -/
def clean (reference : String) : List Char :=
  let isMark (c : Char) : Bool := c = '"' || c = '\x27'
  let inner := Text.trim reference.toList
  let bare := ((inner.dropWhile isMark).reverse.dropWhile isMark).reverse
  let slashed := bare.map fun c => if c = '\\' then '/' else c
  (Text.dropStart? ['.', '/'] slashed).getD slashed

/-- The display name that a reference means: a known name, the base name of exactly one known
file, or a path that leads to a known file. Any other reference is only cleaned. -/
def normalize (names : PathNames) (reference : String) : String :=
  let cleaned := clean reference
  let text := String.ofList cleaned
  if names.names.contains text then text
  else
    match names.names.filter (baseName · = cleaned) with
    | [name] => name
    | _ =>
      let found := (names.resolve (Path.joinText names.rootDir.text text)).bind names.displayName?
      found.getD text

end PathNames

end MipsLab
