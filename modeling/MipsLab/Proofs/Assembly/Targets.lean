import MipsLab.Proofs.Assembly.Reassembly
import Mathlib

/-! The targets that a program shows. A jump or branch goes where the last operand of its line says.
It is shown with the label or the number of that operand, and without the offset from the label. -/
namespace MipsLab

open Selection (fitsWord word)

namespace Operand

/-- The address that an operand stands for. -/
def address? (labels : Labels) : Operand → Option Word
  | label name offset => (labels name).map (· + word offset)
  | int v => if fitsWord v then some (word v) else none
  | _ => none

/-- How far from its label an operand points. -/
def shift : Operand → Word
  | label _ offset => word offset
  | _ => 0

end Operand

/-- What is shown of a target that was written as an operand. -/
structure Target.Shown (t : Target) (labels : Labels) (written : Operand) : Prop where
  goes : written.address? labels = some t.address
  label : ∀ name offset, written = .label name offset → t.text = name
  number : ∀ v, written = .int v → t.text = hexWord t.address
  read : Operand.ofToken t.text.toList = .ok t.operand
  /-- What is shown stands for the target less the offset. -/
  shown : t.operand.address? labels = some (t.address - written.shift)

section Shown

variable {labels : Labels} {written : Operand} {t : Target}

/-- A number is shown as the number of the same word. -/
theorem address?_word (w : Word) : Operand.address? labels (.int w.toNat) = some w := by
  rw [Operand.address?, if_pos (Selection.fitsWord_natural w.isLt), Selection.word_toNat]

theorem shown_of_resolves (resolves : Selection.Resolves labels written t) (named : t.Named) :
    t.Shown labels written := by
  have read := (spells_target named).read
  cases written with
  | label name offset =>
    obtain ⟨base, known, rfl⟩ := resolves
    refine ⟨?_, ?_, ?_, read, ?_⟩
    · rw [Operand.address?, known]
      rfl
    · rintro name offset ⟨⟩
      rfl
    · rintro v ⟨⟩
    · have least : (Operand.label name 0).address? labels = some base := by
        rw [Operand.address?, known]
        simp [word]
      rw [Target.operand, least, Operand.shift, BitVec.add_sub_cancel]
  | int v =>
    obtain ⟨fits, rfl⟩ := resolves
    refine ⟨if_pos fits, ?_, fun _ _ => rfl, read, ?_⟩
    · rintro name offset ⟨⟩
    · rw [Target.operand, address?_word]
      exact congrArg some (sub_zero (word v)).symm
  | _ => exact absurd resolves id

/-- What is shown stands for the target, unless there is an offset. -/
theorem Target.Shown.real_iff (shows : t.Shown labels written) :
    t.operand.address? labels = some t.address ↔ written.shift = 0 := by
  rw [shows.shown, Option.some_inj, sub_eq_self]

end Shown

theorem getLast?_of_forall₂ {α β : Type} {related : α → β → Prop} {as : List α} {bs : List β}
    (all : List.Forall₂ related as bs) {b : β} (last : bs.getLast? = some b) :
    ∃ a, as.getLast? = some a ∧ related a b := by
  have turned := List.forall₂_reverse_iff.mpr all
  rw [← List.head?_reverse] at last ⊢
  generalize as.reverse = as, bs.reverse = bs at turned last ⊢
  cases turned with
  | nil => cases last
  | cons first _ =>
    cases last
    exact ⟨_, rfl, first⟩

/-- The text of an assembled jump or branch ends in its target. The target is the address of the
last operand on the line that the tag names, and it is shown without the offset of this operand. -/
theorem assembleLines_shown {settings : Settings} {lines : List SourceLine} {names : PathNames}
    {assembled : Assembled} (done : assembleLines settings lines names = .ok assembled) {a : Word}
    {entry : TextEntry} (found : assembled.program.text[a]? = some entry) {t : Target}
    (goes : entry.instr.target? = some t) :
    ∃ line ∈ lines, entry.tag = line.tag ∧
      ∃ token written head tokens, line.statement.args.getLast? = some token ∧
        Operand.ofToken token.toList = .ok written ∧
        lex entry.instr.text.toList = .ok ⟨[], some head, tokens⟩ ∧
        tokens.getLast? = some t.text ∧
        t.Shown assembled.program.symbols.labels written ∧
        (t.operand.address? assembled.program.symbols.labels = some t.address ↔
          written.shift = 0) := by
  obtain ⟨line, linked, -, tag, _, ops, -, -, read, made⟩ := made_of_assembled done found
  obtain ⟨written, last, resolves⟩ := made.goes t goes
  obtain ⟨token, ends, spelled⟩ := getLast?_of_forall₂ (forall₂_of_operands read) last
  have named : ∀ t, entry.instr.target? = some t → t.Named := fun t goes =>
    named_of_made read made goes
  have shows := shown_of_resolves resolves (named t goes)
  exact ⟨line, linked, tag, token, written, entry.instr.mnemonic.name, entry.instr.tokens, ends,
    spelled, lex_text made.fits (Instruction.displayed_of_target goes) named,
    Instruction.getLast?_tokens goes, shows, shows.real_iff⟩

/-- A jump behind a label. -/
def targetSample : List SourceLine :=
  let texts := ["foo: nop", "j foo+4"]
  texts.zipIdx.map fun (text, n) => ⟨text.toList, ⟨"sample", n + 1⟩⟩

theorem assembleLines_shown_sample : ∃ assembled entry t,
    assembleLines {} targetSample (.new [] fun _ => none) = .ok assembled ∧
      assembled.program.text[(0x400004 : Word)]? = some entry ∧ entry.instr.target? = some t ∧
      ∃ line ∈ targetSample, entry.tag = line.tag ∧
        ∃ token written head tokens, line.statement.args.getLast? = some token ∧
          Operand.ofToken token.toList = .ok written ∧
          lex entry.instr.text.toList = .ok ⟨[], some head, tokens⟩ ∧
          tokens.getLast? = some t.text ∧
          t.Shown assembled.program.symbols.labels written ∧
          (t.operand.address? assembled.program.symbols.labels = some t.address ↔
            written.shift = 0) := by
  have read : (assembleLines {} targetSample (.new [] fun _ => none)).map (fun assembled =>
      (assembled.program.text[(0x400004 : Word)]?).map (·.instr)) =
      .ok (some (.jump false ⟨0x400004, some "foo"⟩)) := by decide +kernel
  obtain ⟨assembled, done, seen⟩ := except_map_ok read
  obtain ⟨entry, found, same⟩ := Option.map_eq_some_iff.mp seen
  have goes : entry.instr.target? = some ⟨0x400004, some "foo"⟩ := by
    rw [same]
    rfl
  exact ⟨assembled, entry, _, done, found, goes, assembleLines_shown done found goes⟩

/-- The jump goes behind the label, and what is shown is the label alone. -/
theorem shown_target_differs : ∃ assembled entry t,
    assembleLines {} targetSample (.new [] fun _ => none) = .ok assembled ∧
      assembled.program.text[(0x400004 : Word)]? = some entry ∧
      entry.instr = .jump false t ∧ entry.instr.text = "j foo" ∧ t.address = 0x400004 ∧
      (Operand.label "foo" 0).address? assembled.program.symbols.labels = some 0x400000 := by
  have read : (assembleLines {} targetSample (.new [] fun _ => none)).map (fun assembled =>
      ((assembled.program.text[(0x400004 : Word)]?).map (·.instr),
        (Operand.label "foo" 0).address? assembled.program.symbols.labels)) =
      .ok (some (.jump false ⟨0x400004, some "foo"⟩), some 0x400000) := by decide +kernel
  obtain ⟨assembled, done, seen⟩ := except_map_ok read
  obtain ⟨seen, least⟩ := Prod.mk.inj seen
  obtain ⟨entry, found, same⟩ := Option.map_eq_some_iff.mp seen
  refine ⟨assembled, entry, ⟨0x400004, some "foo"⟩, done, found, same, ?_, rfl, least⟩
  rw [same]
  decide +kernel

end MipsLab
