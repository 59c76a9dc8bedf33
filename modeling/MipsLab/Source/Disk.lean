import MipsLab.Text.Blank

/-! Paths, and what a disk offers to the reading of source files. -/
namespace MipsLab

/-- The components of an absolute path, outermost first. -/
abbrev Path := List String

namespace Path

def text (p : Path) : String := "/" ++ "/".intercalate p

def parent (p : Path) : Path := p.dropLast

/-- Whether a component of a written path means nothing. -/
def isIdle (component : List Char) : Bool := component = [] || component = ['.']

/-- A written path behind a directory. Empty components and single dots mean nothing; two dots are
kept, since where they lead is the disk's affair. -/
def join (directory : Path) (written : String) : Path :=
  let parts := (Text.pieces (· = '/') written.toList).filter (! isIdle ·)
  let named := parts.map String.ofList
  if written.toList.head? = some '/' then named else directory ++ named

/-- A written path behind a written directory, as error messages show it. -/
def joinText (directory written : String) : String :=
  if written.toList.head? = some '/' then written
  else if directory.toList.getLast? = some '/' then directory ++ written
  else directory ++ "/" ++ written

/-- The directory of a written path, as it is written: the last component that means something is
cut off, with the idle ones on both sides of it. A path without such a component has the current
directory. -/
def parentText (written : String) : String :=
  let rooted := written.toList.head? = some '/'
  match (Text.pieces (· = '/') written.toList).reverse.dropWhile isIdle with
  | [] => "."
  | _ :: before =>
    let kept := (before.dropWhile isIdle).reverse
    if kept = [] ∧ rooted then "/"
    else String.ofList (['/'].intercalate kept)

def below? : (directory p : Path) → Option Path
  | [], p => some p
  | _ :: _, [] => none
  | d :: directory, c :: p => if d = c then below? directory p else none

end Path

/-- A disk as the assembler sees it: its text files under their canonical paths, and the canonical
path that a written path leads to, if it leads anywhere. -/
structure Disk where
  files : List (Path × String)
  resolve : String → Option Path

namespace Disk

def text? (disk : Disk) (path : Path) : Option String := disk.files.lookup path

end Disk

end MipsLab
