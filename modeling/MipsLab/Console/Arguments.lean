import MipsLab.Settings.Basic
import MipsLab.Text.Numeral

/-! The command line: one source file, flags, and options with a value. Short flags may stand
together behind one dash. Nothing may be given twice, except program arguments; these take
everything that follows them. -/
namespace MipsLab

structure Arguments where
  file : Option String := none
  assembleOnly : Bool := false
  dumpLinked : Bool := false
  config : Option String := none
  program : Option (List String) := none
  flags : Settings := {}
  deriving DecidableEq

inductive ArgumentError where
  | usage
  | help
  | version
  deriving DecidableEq

namespace Arguments

inductive Switch where
  | debug | assembleOnly | garbageMemory | garbageRegisters | showCount | warnings | startAtMain
  | dumpLinked
  deriving DecidableEq, Inhabited

inductive ValueOption where
  | maxInstructions | config | program
  deriving DecidableEq, Inhabited

inductive OptionName where
  | switch (s : Switch)
  | valued (o : ValueOption)
  | stop (e : ArgumentError)
  deriving DecidableEq

def ofLong? : String → Option OptionName
  | "debug" => some (.switch .debug)
  | "assemble-only" => some (.switch .assembleOnly)
  | "garbage-memory" => some (.switch .garbageMemory)
  | "garbage-registers" => some (.switch .garbageRegisters)
  | "instruction-count" => some (.switch .showCount)
  | "warnings" => some (.switch .warnings)
  | "start-at-main" => some (.switch .startAtMain)
  | "dump-linked" => some (.switch .dumpLinked)
  | "max-instructions" => some (.valued .maxInstructions)
  | "config" => some (.valued .config)
  | "pa" => some (.valued .program)
  | "help" => some (.stop .help)
  | "version" => some (.stop .version)
  | _ => none

def ofShort? : Char → Option OptionName
  | 'd' => some (.switch .debug)
  | 'a' => some (.switch .assembleOnly)
  | 'g' => some (.switch .garbageMemory)
  | 'i' => some (.switch .showCount)
  | 'w' => some (.switch .warnings)
  | 'n' => some (.valued .maxInstructions)
  | 'h' => some (.stop .help)
  | 'V' => some (.stop .version)
  | _ => none

abbrev Parsed := Except ArgumentError Arguments

def isOn (a : Arguments) : Switch → Bool
  | .debug => a.flags.debug
  | .assembleOnly => a.assembleOnly
  | .garbageMemory => a.flags.garbageMemory
  | .garbageRegisters => a.flags.garbageRegisters
  | .showCount => a.flags.showCount
  | .warnings => a.flags.warnings
  | .startAtMain => a.flags.startAtMain
  | .dumpLinked => a.dumpLinked

def switchOn (a : Arguments) (s : Switch) : Parsed :=
  if a.isOn s then .error .usage
  else
    .ok (match s with
      | .debug => { a with flags := { a.flags with debug := true } }
      | .assembleOnly => { a with assembleOnly := true }
      | .garbageMemory => { a with flags := { a.flags with garbageMemory := true } }
      | .garbageRegisters => { a with flags := { a.flags with garbageRegisters := true } }
      | .showCount => { a with flags := { a.flags with showCount := true } }
      | .warnings => { a with flags := { a.flags with warnings := true } }
      | .startAtMain => { a with flags := { a.flags with startAtMain := true } }
      | .dumpLinked => { a with dumpLinked := true })

def addProgram (a : Arguments) (values : List String) : Arguments :=
  { a with program := some (a.program.getD [] ++ values) }

def setValue (a : Arguments) (o : ValueOption) (value : String) : Parsed :=
  match o with
  | .maxInstructions =>
    match a.flags.maxInstructions, Text.unsigned? 64 value.toList with
    | none, some n => .ok { a with flags := { a.flags with maxInstructions := some n } }
    | _, _ => .error .usage
  | .config =>
    if a.config.isSome ∨ value = "" then .error .usage else .ok { a with config := some value }
  | .program => .ok (a.addProgram [value])

def setFile (a : Arguments) (value : String) : Parsed :=
  if a.file.isSome ∨ value = "" then .error .usage else .ok { a with file := some value }

/-- Whether an argument cannot be the value of an option because it looks like an option. -/
def isDashed (arg : String) : Bool :=
  match arg.toList with
  | '-' :: _ :: _ => true
  | _ => false

/-- Takes the value of an option from the arguments behind it. Program arguments take all of
them. -/
def takeValue (a : Arguments) (o : ValueOption) : List String →
    Except ArgumentError (Arguments × List String)
  | [] => .error .usage
  | value :: rest =>
    if o = .program then .ok (a.addProgram (value :: rest), [])
    else if isDashed value then .error .usage
    else (a.setValue o value).map (·, rest)

/-- A cluster of short flags. The first option with a value takes the rest of the cluster, or else
the next argument. -/
def takeCluster (a : Arguments) (rest : List String) : List Char →
    Except ArgumentError (Arguments × List String)
  | [] => .ok (a, rest)
  | c :: cluster =>
    match ofShort? c with
    | none => .error .usage
    | some (.stop e) => .error e
    | some (.switch s) => do
      let a ← a.switchOn s
      a.takeCluster rest cluster
    | some (.valued o) =>
      match cluster with
      | [] => a.takeValue o rest
      | '=' :: value => (a.setValue o (String.ofList value)).map (·, rest)
      | value => (a.setValue o (String.ofList value)).map (·, rest)

/-- A long option, with or without a value attached by an equals sign. -/
def takeLong (a : Arguments) (rest : List String) (text : List Char) :
    Except ArgumentError (Arguments × List String) :=
  let (name, attached) := match Text.cutFirst (· = '=') text with
    | some (name, _, value) => (name, some (String.ofList value))
    | none => (text, none)
  match ofLong? (String.ofList name), attached with
  | some (.switch s), none => (a.switchOn s).map (·, rest)
  | some (.valued o), none => a.takeValue o rest
  | some (.valued o), some value => (a.setValue o value).map (·, rest)
  | some (.stop e), none => .error e
  | _, _ => .error .usage

def take (a : Arguments) (arg : String) (rest : List String) :
    Except ArgumentError (Arguments × List String) :=
  match arg.toList with
  | ['-', '-'] => (rest.foldlM setFile a).map (·, [])
  | '-' :: '-' :: name => a.takeLong rest name
  | '-' :: c :: cluster => a.takeCluster rest (c :: cluster)
  | _ => (a.setFile arg).map (·, rest)

/-- Takes arguments until none is left. Every round takes at least one of them. -/
def takeAll : (fuel : Nat) → Arguments → List String → Parsed
  | 0, a, _ => .ok a
  | _ + 1, a, [] => .ok a
  | fuel + 1, a, arg :: rest => do
    let (a, rest) ← a.take arg rest
    takeAll fuel a rest

/-- Reads the command line. The source file must be there. -/
def parse (args : List String) : Parsed := do
  let a ← takeAll args.length {} args
  if a.file.isNone then .error .usage else return a

def overlay (a : Arguments) (config : Settings) : Settings where
  debug := config.debug || a.flags.debug
  garbageMemory := config.garbageMemory || a.flags.garbageMemory
  garbageRegisters := config.garbageRegisters || a.flags.garbageRegisters
  warnings := config.warnings || a.flags.warnings
  showCount := config.showCount || a.flags.showCount
  maxInstructions := a.flags.maxInstructions.or config.maxInstructions
  startAtMain := config.startAtMain || a.flags.startAtMain

end Arguments

end MipsLab
