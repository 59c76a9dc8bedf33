import MipsLab.Source.Include

/-! Processed source files and their concatenation. Comments are dropped and defined names
replaced, except on lines that declare strings. Linking puts the files behind one another in the
order of the walk, and leaves the followed `.include` lines out. -/
namespace MipsLab

namespace SourceLine

def isInclude (line : SourceLine) : Bool :=
  (directiveOf? line.text).any fun (name, _) => name = ".include".toList

end SourceLine

def processLine (eqv : EqvTable) (raw : List Char) : List Char :=
  if isStringLine raw then Text.trimEnd raw
  else
    let code := Text.trimEnd (stripComment raw)
    if (directiveOf? code).any fun (name, _) => name = ".include".toList then code
    else eqv.apply code

def processText (eqv : EqvTable) (name : String) (contents : List Char) : List SourceLine :=
  (Text.lines contents).zipIdx.map fun (raw, index) => ⟨processLine eqv raw, ⟨name, index + 1⟩⟩

structure SourceFile where
  path : Path
  name : String
  lines : List SourceLine

structure Preprocessed where
  files : List SourceFile
  eqv : EqvTable
  names : PathNames
  warnings : List Warning

namespace Preprocessed

/-- Preprocesses the file written `root`, whose text is given, and everything it includes. -/
def ofRoot (disk : Disk) (root contents : String) : Except PreprocessError Preprocessed := do
  let path := Path.join [] root
  let start := Walk.start (.new path.parent disk.resolve)
  let walk ← Walk.visit disk disk.files.length (Path.parentText root) path contents.toList start
  let files := walk.files.reverse.map fun f =>
    ⟨f.path, f.name, processText walk.eqv f.name f.contents⟩
  return ⟨files, walk.eqv, walk.names, walk.warnings.reverse⟩

def ofFile (disk : Disk) (written : String) : Except PreprocessError Preprocessed :=
  match (disk.resolve written).bind fun path => (disk.text? path).map (path, ·) with
  | some (path, contents) => ofRoot disk path.text contents
  | none => .error (.missingFile written)

/-- Preprocesses a text as if it were a file of a directory. -/
def ofText (disk : Disk) (directory : Path) (name contents : String) :
    Except PreprocessError Preprocessed :=
  ofRoot disk (Path.joinText directory.text name) contents

def link (pre : Preprocessed) : List SourceLine :=
  (pre.files.flatMap (·.lines)).filter (! ·.isInclude)

end Preprocessed

/-- Lines without their tags, each with a newline behind it. -/
def untaggedText (lines : List SourceLine) : String :=
  String.ofList (lines.flatMap fun line => line.text ++ ['\n'])

end MipsLab
