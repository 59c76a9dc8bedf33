import MipsLab.Proofs.Machine.StoredText
import MipsLab.Proofs.Source.Lexing
import MipsLab.Proofs.Source.Quoted
import MipsLab.Assembly.Assembler

/-! A string from its source line to memory: whatever its characters and whatever is defined, the
text that a line declares is the text that is stored at its label. -/
namespace MipsLab

open Std (ExtTreeMap)

namespace Layout

variable {l l' : Layout} {line : SourceLine} {s : Statement}

theorem line_of_statement (filled : (Text.trim line.text).isEmpty = false)
    (read : lex line.text = .ok s) (stated : l.statement s line = .ok l') :
    l.line line = .ok l' := by
  rw [Layout.line, if_neg (by simp [filled]), read]
  exact congrArg (Except.mapError (LocatedError.mk line.tag)) stated

theorem start_data (tag : SourceTag) :
    start.line ⟨".data".toList, tag⟩ = .ok { start with segment := .data } := by
  have read : lex (Instruction.line ".data" []).toList = .ok ⟨[], some ".data", []⟩ :=
    lex_line (by decide) (by simp)
  have filled : (Text.trim ".data".toList).isEmpty = false := by decide
  exact line_of_statement filled read rfl

/-- The bytes of a text with the zero byte that ends it. -/
def terminated (s : List Char) : List Byte := s.map Text.charByte ++ [0]

theorem length_terminated (s : List Char) : (terminated s).length = s.length + 1 := by
  simp [terminated]

/-- What is placed when a single text is declared at the start of the data. -/
def ofText (label s : String) (tag : SourceTag) : Layout :=
  { start with
    segment := .data
    dataPc := MemoryMap.dataBase + BitVec.ofNat 32 (s.length + 1)
    symbols := (∅ : SymbolTable).insert label MemoryMap.dataBase
    declarations := [⟨some label, .asciiz, [.text s], MemoryMap.dataBase, s.length + 1, tag⟩]
    data := writeKnown ∅ MemoryMap.dataBase ((terminated s.toList).map some) }

theorem textElement_quoted (s : String) :
    textElement .asciiz (String.ofList (Literal.quoted s.toList)) =
      .ok ⟨.text s, (terminated s.toList).map some, none, none, 1⟩ := by
  rw [textElement, String.toList_ofList, Literal.string?_quoted, String.ofList_toList]
  simp [terminated, Function.comp_def]

theorem emit_quoted (label s : String) (tag : SourceTag) (short : s.length < Memory.maxString) :
    { start with segment := .data, waiting := [label] }.emit ".asciiz" .asciiz
      [String.ofList (Literal.quoted s.toList)] tag = .ok (ofText label s tag) := by
  have made (a : Word) : elements ".asciiz" .asciiz a
      [String.ofList (Literal.quoted s.toList)] =
        .ok [(0, ⟨.text s, (terminated s.toList).map some, none, none, 1⟩)] := by
    simp only [elements, List.mapM_cons, List.mapM_nil, textElement_quoted]
    rfl
  have bound : { start with segment := .data, waiting := [label] }.bindLabels =
      .ok { start with
        segment := .data, symbols := (∅ : SymbolTable).insert label MemoryMap.dataBase } := by
    simp only [bindLabels, SymbolTable.define?, start, pc, List.foldlM_cons, List.foldlM_nil,
      ExtTreeMap.contains_empty]
    rfl
  have length : ((terminated s.toList).map some).length = s.length + 1 := by
    rw [List.length_map, length_terminated, String.length_toList]
  have room : MemoryMap.dataBase.toNat + (s.length + 1) ≤ MemoryMap.heapBase.toNat := by
    have limit : Memory.maxString = 0x10000 := rfl
    have base : MemoryMap.dataBase.toNat = 0x10010000 := rfl
    have top : MemoryMap.heapBase.toNat = 0x10040000 := rfl
    omega
  rw [emit, if_neg (by simp), if_neg (by simp), if_neg (by simp [DataKind.align, Nat.mod_one]),
    bound]
  simp only [bind, Except.bind, made, List.flatMap_singleton, List.replicate_one,
    List.flatten_singleton, length]
  exact if_pos room

theorem line_stringLine {label : List Char} (identifier : isIdentifier label = true) (s : String)
    (tag : SourceTag) (short : s.length < Memory.maxString) :
    { start with segment := .data }.line ⟨stringLine label s.toList, tag⟩ =
      .ok (ofText (String.ofList label) s tag) := by
  have filled : (Text.trim (stringLine label s.toList)).isEmpty = false := by
    rw [trim_stringLine s.toList identifier]
    simp [stringLine]
  exact line_of_statement filled (lex_stringLine s.toList identifier)
    (emit_quoted (String.ofList label) s tag short)

theorem ofLines_stringLine {label : List Char} (identifier : isIdentifier label = true) (s : String)
    (tag here : SourceTag) (short : s.length < Memory.maxString) :
    ofLines [⟨".data".toList, tag⟩, ⟨stringLine label s.toList, here⟩] =
      .ok (ofText (String.ofList label) s here) := by
  have run : [⟨".data".toList, tag⟩, ⟨stringLine label s.toList, here⟩].foldlM Layout.line start =
      .ok (ofText (String.ofList label) s here) := by
    rw [List.foldlM_cons, start_data]
    exact congrArg (· >>= pure) (line_stringLine identifier s here short)
  rw [ofLines, run]
  rfl

end Layout

namespace Memory

theorem load_writeKnown (data : ExtTreeMap Word Byte) (garbage : Bool) (a : Word)
    (bytes : List Byte) : load (Layout.writeKnown data a (bytes.map some)) garbage =
      (load data garbage).pokeBytes a bytes := by
  induction bytes generalizing data a with
  | nil => rfl
  | cons b bytes ih => exact ih (data.insert a b) (a + 1)

/-- A text that the loader put somewhere is read there, whatever is read where nothing was put. -/
theorem readString_terminated {s : List Char} {a : Word}
    (latin : ∀ c ∈ s, c.toNat < 256 ∧ c ≠ '\x00') (short : s.length < maxString)
    (permitted : Permitted a (s.length + 1)) (data : ExtTreeMap Word Byte) (garbage : Bool) :
    (load (Layout.writeKnown data a ((Layout.terminated s).map some)) garbage).readString a =
      .ok (s.map Text.charByte) := by
  have nonzero : ∀ b ∈ s.map Text.charByte, b ≠ 0 := by
    intro b member
    obtain ⟨c, inside, rfl⟩ := List.mem_map.mp member
    exact Text.charByte_ne_zero (latin c inside).1 (latin c inside).2
  have length := Layout.length_terminated s
  have stored : ((load data garbage).pokeBytes a (Layout.terminated s)).peekBytes a
      (Layout.terminated s).length = Layout.terminated s :=
    peekBytes_pokeBytes _ a (length ▸ permitted.length_le)
  rw [length] at stored
  rw [load_writeKnown]
  exact readStringTo_stored (by rwa [List.length_map]) (by rwa [List.length_map]) nonzero
    (by rwa [List.length_map])

end Memory

theorem permitted_data {n : Nat} (short : n ≤ Memory.maxString) :
    Permitted MemoryMap.dataBase n := by
  intro i less
  have base : MemoryMap.dataBase.toNat = 0x10010000 := rfl
  have limit : Memory.maxString = 0x10000 := rfl
  rw [MemoryMap.mapped_iff, toNat_add_ofNat (by omega)]
  omega

/-- A text is stored at its label just as it was written, with one byte for each character and one
that ends it. Quotes and marks in it and names that are defined do not matter. -/
theorem labelText_stringLine (settings : Settings) (names : PathNames) (eqv : EqvTable)
    (file : String) (tag : SourceTag) (label s : String)
    (identifier : isIdentifier label.toList = true)
    (latin : ∀ c ∈ s.toList, c.toNat < 256 ∧ c ≠ '\x00') (short : s.length < 65536) :
    ∃ assembled, assembleLines settings (⟨".data".toList, tag⟩ ::
        processText eqv file (stringLine label.toList s.toList ++ ['\n'])) names = .ok assembled ∧
      assembled.program.declarations =
        [⟨some label, .asciiz, [.text s], MemoryMap.dataBase, s.length + 1, ⟨file, 1⟩⟩] ∧
      ∀ garbage, (Memory.load assembled.program.data garbage).labelText
        assembled.program.symbols.labels label = .ok (some s) := by
  rw [processText_stringLine s.toList eqv file identifier]
  have placed := Layout.ofLines_stringLine identifier s tag ⟨file, 1⟩ short
  rw [String.ofList_toList] at placed
  refine ⟨⟨_, _⟩, by rw [assembleLines, placed]; rfl, rfl, fun garbage => ?_⟩
  have found : (Layout.ofText label s ⟨file, 1⟩).symbols.labels label =
      some MemoryMap.dataBase := ExtTreeMap.getElem?_insert_self
  have length : s.toList.length = s.length := String.length_toList
  have read := Memory.readString_terminated latin (length ▸ short)
    (permitted_data (length ▸ short)) ∅ garbage
  have same := Text.byteText_charByte fun c member => (latin c member).1
  rw [String.ofList_toList] at same
  rw [Memory.labelText, found]
  exact (congrArg (Except.map fun bytes => some (Text.byteText bytes)) read).trans
    (congrArg (Except.ok <| some ·) same)

/-- Marks of all kinds, and names that are defined. -/
def markedText : String := "size: \"n\", 'x' # \\ \n\t\r\u00e9\u00ff"

theorem labelText_stringLine_marked : (isIdentifier "lab".toList = true ∧
      (∀ c ∈ markedText.toList, c.toNat < 256 ∧ c ≠ '\x00') ∧ markedText.length < 65536) ∧
    ∃ assembled, assembleLines {} (⟨".data".toList, ⟨"main.asm", 1⟩⟩ ::
        processText ⟨[("size", "4"), ("lab", "\""), ("asciiz", "word"), ("", "x")]⟩ "main.asm"
          (stringLine "lab".toList markedText.toList ++ ['\n'])) (.new [] fun _ => none) =
        .ok assembled ∧
      assembled.program.declarations =
        [⟨some "lab", .asciiz, [.text markedText], MemoryMap.dataBase, markedText.length + 1,
          ⟨"main.asm", 1⟩⟩] ∧
      ∀ garbage, (Memory.load assembled.program.data garbage).labelText
        assembled.program.symbols.labels "lab" = .ok (some markedText) := by
  have identifier : isIdentifier "lab".toList = true := by decide
  have latin : ∀ c ∈ markedText.toList, c.toNat < 256 ∧ c ≠ '\x00' := by
    simp [markedText]
  have short : markedText.length < 65536 := by decide
  exact ⟨⟨identifier, latin, short⟩,
    labelText_stringLine _ _ _ _ _ "lab" markedText identifier latin short⟩

end MipsLab
