import MipsLab.Source.Disk
import MipsLab.Text.Bytes

/-! A tree of files. Directories and files are known by their paths from the root. A written path
is followed component by component, so that two dots lead out of a directory only if the
directory exists. -/
namespace MipsLab

structure FileTree where
  dirs : List Path
  files : List (Path × List Byte)
  deriving DecidableEq, Inhabited

namespace FileTree

def maxName : Nat := 255

/-- The longest written path in bytes under which a file is opened. -/
def maxPath : Nat := 4095

def isDir (t : FileTree) (p : Path) : Bool := p.isEmpty || t.dirs.contains p

def bytes? (t : FileTree) (p : Path) : Option (List Byte) := t.files.lookup p

def enter? (t : FileTree) (here : Path) (component : String) : Option Path :=
  if !t.isDir here then none
  else if component = "" ∨ component = "." then some here
  else if component = ".." then some here.parent
  else
    let there := here ++ [component]
    if t.isDir there || (t.bytes? there).isSome then some there else none

def walk? (t : FileTree) (here : Path) (components : List String) : Option Path :=
  components.foldlM t.enter? here

def components (written : String) : List String :=
  (Text.pieces (· = '/') written.toList).map String.ofList

def resolve? (t : FileTree) (written : String) : Option Path := t.walk? [] (components written)

/-- The place for a file that is to be written: its directory exists and the file itself is no
directory. -/
def place? (t : FileTree) (written : String) : Option Path := do
  let parts := components written
  let name ← parts.getLast?
  let parent ← t.walk? [] parts.dropLast
  let target := parent ++ [name]
  if name = "" ∨ name = "." ∨ name = ".." ∨ maxName < name.utf8ByteSize then none
  else if !t.isDir parent || t.isDir target then none
  else some target

/-- Gives a file its bytes; a new file comes last. -/
def put (t : FileTree) (p : Path) (bytes : List Byte) : FileTree :=
  match t.bytes? p with
  | some _ => { t with files := t.files.map fun (q, old) => if q = p then (q, bytes) else (q, old) }
  | none => { t with files := t.files ++ [(p, bytes)] }

def withDirs (t : FileTree) (p : Path) : FileTree :=
  let ways := (List.range p.length).map fun i => p.take (i + 1)
  { t with dirs := t.dirs ++ ways.filter (! t.dirs.contains ·) }

def add (t : FileTree) (p : Path) (bytes : List Byte) : FileTree :=
  (t.withDirs p.parent).put p bytes

/-- What the assembler sees of a tree from a directory: the files that hold valid text. -/
def disk (t : FileTree) (directory : Path) : Disk where
  files := t.files.filterMap fun (p, bytes) => (Text.ofUtf8? bytes).map (p, ·)
  resolve := fun written => t.resolve? (Path.joinText directory.text written)

end FileTree

end MipsLab
