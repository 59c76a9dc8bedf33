import MipsLab.Console.Session

/-! The program. Files are brought into the session when it first asks for them, and those that it
has changed are written back when it ends. -/
namespace MipsLab.Main

def usage : String :=
  "usage: mipsim [-d] [-a] [-g] [-i] [-w] [-n COUNT] [--garbage-registers] [--start-at-main]\n" ++
    "       [--dump-linked] [--config FILE] FILE [--pa ARGUMENT...]\n"

def loadAt (tree : FileTree) (path : Path) : IO FileTree := do
  try
    let bytes ← IO.FS.readBinFile path.text
    return tree.add path (bytes.toList.map (·.toBitVec))
  catch _ => return tree.withDirs path

def load (tree : FileTree) (written : String) : IO FileTree := do
  try
    let real ← IO.FS.realPath written
    loadAt tree (Path.join [] (toString real))
  catch _ => return tree

/-- Brings a file and its directory into a tree, unless the tree has the file. -/
def fetch (tree : FileTree) (written : String) : IO FileTree := do
  if (tree.resolve? written).isSome then return tree
  else
    let parent := (Path.join [] written).parent
    load (← load tree parent.text) written

/-- Starts the session, after loading one by one the files that it misses. -/
partial def launch (tree : FileTree) (directory : Path) (args tried : List String) : IO Launch := do
  match Launch.ofArguments tree directory args with
  | .failed kind message (some missing) =>
    if tried.contains missing then return .failed kind message none
    else launch (← fetch tree missing) directory args (missing :: tried)
  | started => return started

/-- Writes back the files that differ from what was loaded. -/
def save (loaded final : FileTree) : IO Unit :=
  final.files.forM fun (path, bytes) => do
    if loaded.bytes? path ≠ some bytes then
      IO.FS.writeBinFile path.text ⟨(bytes.map UInt8.ofBitVec).toArray⟩

def flush (s : Session) : IO Session := do
  let out ← IO.getStdout
  out.putStr s.out
  out.flush
  (← IO.getStderr).putStr s.err
  return { s with out := "", err := "" }

def readLine : IO (Option String) := do
  let line ← (← IO.getStdin).getLine
  return if line.isEmpty then none else some line

/-- Runs a session to its end. `loaded` holds the files as they were on the disk. -/
partial def drive (loaded : FileTree) (s : Session) : IO UInt32 := do
  let (loaded, s) ← match s.opening? with
    | some file => do
      let tree ← fetch s.tree file
      pure (tree.files.foldl (fun t (p, b) => if (t.bytes? p).isSome then t else t.add p b) loaded,
        s.withTree tree)
    | none => pure (loaded, s)
  let s ← flush (s.advance 1)
  match s.phase with
  | .busy => drive loaded s
  | .exited code =>
    save loaded s.tree
    return code.toUInt32
  | .prompting | .reading => drive loaded (s.feed (← readLine))

end MipsLab.Main

open MipsLab

def main (args : List String) : IO UInt32 := do
  let directory := Path.join [] (toString (← IO.currentDir))
  match ← Main.launch (FileTree.withDirs ⟨[], []⟩ directory) directory args [] with
  | .usageError =>
    IO.eprint Main.usage
    return 2
  | .help =>
    IO.print Main.usage
    return 0
  | .version =>
    IO.print Launch.versionText
    return 0
  | .failed kind message _ =>
    IO.eprint (Session.failure kind message)
    return 1
  | .assembled out =>
    IO.print out
    return 0
  | .running s => Main.drive s.tree s
