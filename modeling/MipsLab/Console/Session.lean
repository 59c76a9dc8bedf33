import MipsLab.Assembly.Loader
import MipsLab.Console.Arguments
import MipsLab.Debug.Prompt
import MipsLab.Run.Arguments
import MipsLab.Settings.Json

/-! A session at the console: a program is loaded as the command line says, and runs with the lines
of standard input as its input and, when debugging, as prompt commands. The session itself only
computes what is to be written; lines are handed to it one by one. -/
namespace MipsLab

inductive SessionPhase where
  | busy
  | prompting
  | reading
  | exited (code : Nat)
  deriving DecidableEq, Inhabited

structure Session where
  run : Run
  showCount : Bool
  phase : SessionPhase
  /-- What has been written to standard output and not yet been taken. -/
  out : String
  /-- What has been written to standard error and not yet been taken. -/
  err : String

namespace Session

def failure (kind message : String) : String := "[!] " ++ kind ++ ": " ++ message ++ "\n"

def write (s : Session) (text : String) : Session := { s with out := s.out ++ text }

def flush (s : Session) : Session :=
  let (events, r) := s.run.drain
  let printed := events.filterMap fun
    | .console text => some text
    | _ => none
  { s with run := r }.write (String.join printed)

def report (s : Session) : Session :=
  if s.showCount then { s with err := s.err ++ s.run.stats.report } else s

/-- Ends the session. Of the code only the lowest byte reaches the caller of the program. -/
def exit (s : Session) (code : Word) : Session :=
  { s.report with phase := .exited (code.toNat % 256) }

def fail (s : Session) (kind message : String) : Session :=
  let s := s.report
  { s with err := s.err ++ failure kind message, phase := .exited 1 }

def ask (s : Session) : Session := { s.write ">" with phase := .prompting }

def prompt (s : Session) : Session :=
  (match s.run.describe? with
    | some listing => s.write (listing ++ "\n")
    | none => s).ask

def advance (s : Session) (fuel : Nat) : Session :=
  if s.phase ≠ .busy then s
  else
    let (result, r) := s.run.run fuel
    let s := { s with run := r }.flush
    match result with
    | .ok .executed => s
    | .ok .paused => s.prompt
    | .ok .awaiting => { s with phase := .reading }
    | .ok (.exited code) => s.exit code
    | .ok .finished => s.exit 0
    | .error e => s.fail e.kind e.message

def obeyLine (s : Session) (line : String) : Session :=
  let (reply, r) := s.run.obeyLine line
  let s := ({ s with run := r }.flush).write
    (if reply.output = "" then "" else reply.output ++ "\n")
  match reply.action with
  | .stay => s.ask
  | .resume _ => { s with phase := .busy }
  | .quit => s.exit 0

/-- Hands over a line of standard input with its newline, or its end. -/
def feed (s : Session) (line : Option String) : Session :=
  match s.phase, line with
  | .prompting, some line => s.obeyLine line
  | .prompting, none => { s with run := s.run.stop }.flush.exit 0
  | .reading, some line => { s with run := s.run.setInput line, phase := .busy }
  | .reading, none =>
    { s with run := s.run.stop }.flush.fail "InvalidInput"
      "end of input while a read syscall was pending"
  | _, _ => s

def opening? (s : Session) : Option String :=
  match s.phase, s.run.entry?.map TextEntry.instr with
  | .busy, some .syscall => Syscall.opening? s.run.machine s.run.channels
  | _, _ => none

def tree (s : Session) : FileTree := s.run.channels.files.tree

def withTree (s : Session) (tree : FileTree) : Session :=
  let files := { s.run.channels.files with tree }
  { s with run := { s.run with channels := { s.run.channels with files } } }

end Session

inductive Launch where
  | usageError
  | help
  | version
  /-- Nothing is run. Where a file was not found, it is named. -/
  | failed (kind message : String) (missing : Option String)
  | assembled (out : String)
  | running (s : Session)

namespace Launch

def versionText : String := "mipsim 0.4.0\n"

def configFailure (message : String) (missing : Option String) : Launch :=
  failed "ConfigError" message missing

def config (tree : FileTree) (directory : Path) (file : String) : Except Launch Settings :=
  let disk := tree.disk directory
  let found := if FileTree.maxPath < file.utf8ByteSize then none else disk.resolve file
  match found.bind disk.text? with
  | none =>
    .error (configFailure (file ++ ": cannot be read") (some (Path.joinText directory.text file)))
  | some text =>
    match Settings.ofJson? text.toList with
    | none => .error (configFailure (file ++ ": no configuration") none)
    | some settings => .ok settings

def settings (tree : FileTree) (directory : Path) (a : Arguments) : Except Launch Settings :=
  match a.config with
  | none => .ok (a.overlay {})
  | some file => (config tree directory file).map a.overlay

def missing? (directory : Path) : LoadError → Option String
  | .preprocess (.missingFile shown) => some (Path.joinText directory.text shown)
  | _ => none

def load (tree : FileTree) (directory : Path) (a : Arguments) (settings : Settings) : Launch :=
  match assembleFile settings (tree.disk directory) (a.file.getD "") with
  | .error e => failed e.kind e.message (missing? directory e)
  | .ok { program, .. } =>
    let out := if a.dumpLinked then SourceLine.taggedText program.linked else ""
    if a.assembleOnly then assembled out
    else
      let r := (Run.start program settings tree).setArguments (a.program.getD [])
      running ⟨r, settings.showCount, .busy, out, ""⟩

def ofArguments (tree : FileTree) (directory : Path) (args : List String) : Launch :=
  match Arguments.parse args with
  | .error .usage => usageError
  | .error .help => help
  | .error .version => version
  | .ok a =>
    match settings tree directory a with
    | .error failure => failure
    | .ok settings => load tree directory a settings

end Launch

end MipsLab
