import MipsLab.Assembly.Layout
import MipsLab.Settings.Basic

/-! The second pass of the assembler: every instruction is expanded with the complete symbol table,
and the words of data that want an address get it. -/
namespace MipsLab

open Std (ExtTreeMap)

namespace Assembler

def entries (placed : PlacedLine) (e : Expansion) : List TextEntry :=
  e.instrs.zipIdx.map fun (instr, i) =>
    { address := placed.address + BitVec.ofNat 32 (4 * i), instr, tag := placed.tag,
      source := placed.source, expanded := e.pseudo, first := i == 0 }

def insertEntries (text : ExtTreeMap Word TextEntry) (new : List TextEntry) :
    ExtTreeMap Word TextEntry :=
  new.foldl (fun text entry => text.insert entry.address entry) text

def bindLine (labels : Labels) (placed : PlacedLine) : Except LocatedError SourceInstruction := do
  let e ← (expand placed.name placed.args labels).mapError (⟨placed.tag, ·⟩)
  return ⟨placed.address, placed.source, e, placed.tag⟩

def patch (labels : Labels) (data : ExtTreeMap Word Byte) (fixup : Fixup) :
    Except LocatedError (ExtTreeMap Word Byte) :=
  match labels fixup.name with
  | none => .error ⟨fixup.tag, .undefinedLabel fixup.name⟩
  | some address =>
    let value := address + Selection.word fixup.offset
    .ok (Layout.writeKnown data fixup.address ((littleEndian 4 value.toNat).map some))

def entryPoint (startAtMain : Bool) (symbols : SymbolTable) : Word :=
  match symbols["main"]? with
  | some main => if startAtMain then main else MemoryMap.textBase
  | none => MemoryMap.textBase

def bind (startAtMain : Bool) (lines : List SourceLine) (names : PathNames) (l : Layout) :
    Except LocatedError Program := do
  let labels := l.symbols.labels
  let placed := l.placed.reverse
  let instructions ← placed.mapM (bindLine labels)
  let text := (placed.zip instructions).foldl
    (fun text (p, i) => insertEntries text (entries p i.expansion)) ∅
  let data ← l.fixups.reverse.foldlM (patch labels) l.data
  return { text, data, symbols := l.symbols, declarations := l.declarations.reverse, instructions,
           names, linked := lines, entry := entryPoint startAtMain l.symbols }

end Assembler

structure Assembled where
  program : Program
  warnings : List Warning

/-- Assembles linked lines. Warnings are reported only if the settings ask for them. -/
def assembleLines (settings : Settings) (lines : List SourceLine) (names : PathNames) :
    Except LocatedError Assembled := do
  let l ← Layout.ofLines lines
  let program ← Assembler.bind settings.startAtMain lines names l
  return ⟨program, if settings.warnings then l.warnings.reverse else []⟩

end MipsLab
