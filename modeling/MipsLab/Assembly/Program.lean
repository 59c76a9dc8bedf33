import Std.Data.ExtTreeMap
import MipsLab.Assembly.MemoryMap
import MipsLab.Assembly.Selection
import MipsLab.Source.PathNames

/-! Assembled programs. -/
namespace MipsLab

open Std (ExtTreeMap)

abbrev SymbolTable := ExtTreeMap String Word

namespace SymbolTable

def labels (symbols : SymbolTable) : Labels := fun name => symbols[name]?

def define? (symbols : SymbolTable) (name : String) (address : Word) : Option SymbolTable :=
  if symbols.contains name then none else some (symbols.insert name address)

end SymbolTable

structure TextEntry where
  address : Word
  instr : Instruction
  tag : SourceTag
  /-- The text of the line without labels and comment. -/
  source : String
  expanded : Bool
  first : Bool
  deriving DecidableEq

/-- The text of the line, the basic instruction where it differs, and the tag. -/
def TextEntry.describe (entry : TextEntry) : String :=
  let basic := if entry.expanded then " ( " ++ entry.instr.text ++ " )" else ""
  entry.source ++ basic ++ "  " ++ entry.tag.text

/-- An element of a data declaration. Floats are kept as the bits of a double. -/
inductive DataValue where
  | int (value : Int)
  | float (bits : BitVec 64)
  | label (name : String) (offset : Int)
  | text (value : String)
  deriving DecidableEq

structure Declaration where
  label : Option String
  kind : DataKind
  values : List DataValue
  address : Word
  size : Nat
  tag : SourceTag
  deriving DecidableEq

/-- An instruction line: its first address and what it was expanded to. -/
structure SourceInstruction where
  address : Word
  source : String
  expansion : Expansion
  tag : SourceTag
  deriving DecidableEq

namespace SourceInstruction

/-- The line as written if it was a pseudo-instruction, and the text of its instruction if not. -/
def text (i : SourceInstruction) : String :=
  if i.expansion.pseudo then i.source
  else (i.expansion.instrs.head?.getD .nop).text

def category (i : SourceInstruction) : InstrClass :=
  (i.expansion.instrs.head?.map Instruction.category).getD .other

end SourceInstruction

structure Program where
  text : ExtTreeMap Word TextEntry
  data : ExtTreeMap Word Byte
  symbols : SymbolTable
  declarations : List Declaration
  instructions : List SourceInstruction
  names : PathNames
  linked : List SourceLine
  entry : Word

namespace Program

def entryAt? (p : Program) (address : Word) : Option TextEntry := p.text[address]?

/-- The first address past the last instruction. -/
def textEnd (p : Program) : Word :=
  match p.text.maxKey? with
  | some last => last + 4
  | none => MemoryMap.textBase

def isPastEnd (p : Program) (pc : Word) : Bool :=
  p.textEnd ≤ pc && pc < MemoryMap.textLimit

end Program

end MipsLab
