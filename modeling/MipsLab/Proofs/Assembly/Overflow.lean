import MipsLab.Proofs.Assembly.Checked

/-! When assembling overflows. Whatever the lines are, all numbers fit but for two: an alignment may
go past the last address, and a declaration may have more bytes of text than a word counts. Where no
such line is reached, the checked assembler does what the assembler does. -/
namespace MipsLab

open Std (ExtTreeMap)

namespace Checked

variable {ε α : Type}

/-- A line makes a number too large for a word: it aligns the data segment past the last address,
or the texts that it declares have more bytes than a word counts. -/
inductive Overruns (l : Layout) (line : SourceLine) : Prop
  | align {token : String} {n : Nat} : line.role = .align → l.segment = .data →
      line.statement.args = [token] → Literal.int? token.toList = some (n : Int) → n ≤ 3 →
      0x100000000 ≤ roundedUp l.dataPc (Nat.pow 2 n) → Overruns l line
  | declaration {kind : DataKind} {b : Layout} {made : List (Nat × Element)} :
      line.role = .declaration kind → kind = .ascii ∨ kind = .asciiz → l.segment = .data →
      (l.awaiting line.labels).bindLabels = .ok b →
      Layout.elements line.statement.name kind b.dataPc line.statement.args = .ok made →
      0x100000000 ≤ (Layout.laid made).length → Overruns l line

section Lines

variable {l : Layout} {line : SourceLine}

theorem role_of_directive {head : String} {directive : Directive}
    (given : line.statement.head = some head) (dotted : head.toList.head? = some '.')
    (found : Directive.ofName? head = some directive) : line.role = match directive with
      | .enter segment => .enter segment
      | .align => .align
      | .emit kind => .declaration kind
      | .eqv | .includeFile | .globl => .idle := by
  simp only [SourceLine.role, Statement.role, given, if_pos dotted, found]
  cases directive <;> rfl

theorem statement_eq (calm : ¬ Overruns l line) :
    statement l line.statement line = refusing (l.statement line.statement line) := by
  unfold statement Layout.statement
  dsimp only
  cases given : line.statement.head with
  | none => rfl
  | some head =>
    dsimp only
    by_cases dotted : head.toList.head? = some '.'
    · rw [if_pos dotted, if_pos dotted]
      cases found : Directive.ofName? head with
      | none => rfl
      | some directive =>
        have role := role_of_directive given dotted found
        cases directive with
        | enter | eqv | includeFile | globl => rfl
        | align =>
          refine align_eq _ head _ fun token n inData same read small => ?_
          by_contra far
          exact calm (.align role inData same read small (not_lt.mp far))
        | emit kind =>
          have named : line.statement.name = head := by rw [Statement.name, given]; rfl
          refine emit_eq _ _ fun b made inData bound found => ?_
          by_contra long
          have string : kind = .ascii ∨ kind = .asciiz := by
            by_contra other
            exact long (Layout.length_laid_lt found other)
          exact calm (.declaration role string inData bound (named ▸ found) (not_lt.mp long))
    · rw [if_neg dotted, if_neg dotted]
      exact instruction_eq _ _ _ _

/-- A line that is no instruction and does not only wait has a directive. -/
theorem exists_directive (line : SourceLine) (busy : line.role ≠ .idle)
    (directs : line.role ≠ .instruction) (known : line.role ≠ .unknown) :
    ∃ directive, line.statement.head = some line.statement.name ∧
      line.statement.name.toList.head? = some '.' ∧
      Directive.ofName? line.statement.name = some directive := by
  cases given : line.statement.head with
  | none => exact absurd (by rw [SourceLine.role, Statement.role, given]) busy
  | some head =>
    have named : line.statement.name = head := by rw [Statement.name, given]; rfl
    rw [named]
    by_cases dotted : head.toList.head? = some '.'
    · cases found : Directive.ofName? head with
      | none =>
        exact absurd (by simp only [SourceLine.role, Statement.role, given, if_pos dotted, found])
          known
      | some directive => exact ⟨directive, rfl, dotted, rfl⟩
    · exact absurd (by simp only [SourceLine.role, Statement.role, given, if_neg dotted]) directs

theorem statement_align (role : line.role = .align) : statement l line.statement line =
    align (l.awaiting line.labels) line.statement.name line.statement.args := by
  obtain ⟨directive, given, dotted, found⟩ :=
    exists_directive line (by simp [role]) (by simp [role]) (by simp [role])
  have played := role_of_directive given dotted found
  rw [role] at played
  cases directive <;> cases played
  simp only [statement, given, if_pos dotted, found]
  rfl

theorem statement_emit {kind : DataKind} (role : line.role = .declaration kind) :
    statement l line.statement line =
      emit (l.awaiting line.labels) line.statement.name kind line.statement.args line.tag := by
  obtain ⟨directive, given, dotted, found⟩ :=
    exists_directive line (by simp [role]) (by simp [role]) (by simp [role])
  have played := role_of_directive given dotted found
  rw [role] at played
  cases directive <;> cases played
  simp only [statement, given, if_pos dotted, found]
  rfl

theorem Overruns.statement (overruns : Overruns l line) :
    statement l line.statement line = .error .overflow := by
  cases overruns with
  | @align token n role inData same read small far =>
    have inData : (l.awaiting line.labels).segment = .data := inData
    have allowed : (0 : Int) ≤ n ∧ (n : Int) ≤ 3 := by omega
    have past : (word (roundedUp (l.awaiting line.labels).dataPc (Nat.pow 2 (n : Int).toNat)) :
        Except (Stop AssemblyError) Word) = .error .overflow := if_neg (not_lt.mpr far)
    rw [statement_align role, same, Checked.align, if_neg (not_not.mpr inData)]
    simp only [read, if_pos allowed, past]
    rfl
  | @declaration kind b made role string inData bound found long =>
    have inData : (l.awaiting line.labels).segment = .data := inData
    have filled : ¬ line.statement.args.isEmpty = true := by
      intro empty
      rw [List.isEmpty_iff.mp empty] at found
      rcases string with rfl | rfl <;> cases found <;> simp [Layout.laid] at long
    have aligned : ¬ (l.awaiting line.labels).dataPc.toNat % kind.align ≠ 0 := by
      rcases string with rfl | rfl <;> simp [DataKind.align, Nat.mod_one]
    have laidOut : elements line.statement.name kind b.dataPc line.statement.args = .ok made := by
      rw [elements_eq, found, refusing_ok]
    have past : (word (Layout.laid made).length : Except (Stop AssemblyError) Word) =
        .error .overflow := if_neg (not_lt.mpr long)
    rw [statement_emit role, emit, if_neg (not_not.mpr inData), if_neg filled, if_neg aligned,
      bound]
    change (elements _ _ b.dataPc _ >>= _) = _
    rw [laidOut]
    change (word _ >>= _) = _
    rw [past]
    rfl

theorem refusing_mapError (x : Except AssemblyError α) (tag : SourceTag) :
    refusing (x.mapError (⟨tag, ·⟩ : AssemblyError → LocatedError)) =
      (refusing x).mapError (locate tag) := by
  cases x <;> rfl

theorem line_of_lex {s : Statement} (filled : ¬ (Text.trim line.text).isEmpty = true)
    (read : lex line.text = .ok s) :
    Checked.line l line = (statement l line.statement line).mapError (locate line.tag) ∧
      l.line line = (l.statement line.statement line).mapError (⟨line.tag, ·⟩) := by
  have known : line.statement = s := by rw [SourceLine.statement, if_neg filled, read]
  rw [Checked.line, Layout.line, if_neg filled, if_neg filled, read, known]
  exact ⟨rfl, rfl⟩

theorem line_eq (calm : ¬ Overruns l line) : Checked.line l line = refusing (l.line line) := by
  by_cases blank : (Text.trim line.text).isEmpty = true
  · rw [Checked.line, Layout.line, if_pos blank, if_pos blank]
    rfl
  · cases read : lex line.text with
    | error e =>
      rw [Checked.line, Layout.line, if_neg blank, if_neg blank, read]
      rfl
    | ok s =>
      obtain ⟨checked, plain⟩ := line_of_lex (l := l) blank read
      rw [checked, plain, statement_eq calm, refusing_mapError]

theorem Overruns.busy (overruns : Overruns l line) : line.role ≠ .idle := by
  cases overruns with
  | align role => simp [role]
  | declaration role => simp [role]

theorem Overruns.overflow (overruns : Overruns l line) :
    Checked.line l line = .error .overflow := by
  have filled := Layout.filled_of_role overruns.busy
  cases read : lex line.text with
  | error e =>
    exact absurd (by rw [SourceLine.role, SourceLine.statement, if_neg filled, read]; rfl)
      overruns.busy
  | ok s =>
    obtain ⟨checked, -⟩ := line_of_lex (l := l) filled read
    rw [checked, overruns.statement]
    rfl

/-- A line that makes a number too large is reached from a layout. -/
def Reaches (l : Layout) (lines : List SourceLine) : Prop :=
  ∃ before line after l', lines = before ++ line :: after ∧
    before.foldlM Layout.line l = .ok l' ∧ Overruns l' line

theorem Reaches.foldlM {lines : List SourceLine} (reaches : Reaches l lines) :
    lines.foldlM Checked.line l = .error .overflow := by
  obtain ⟨before, line, after, l', rfl, run, overruns⟩ := reaches
  induction before generalizing l with
  | nil =>
    cases run
    rw [List.nil_append, List.foldlM_cons, overruns.overflow]
    rfl
  | cons first before ih =>
    rw [List.foldlM_cons] at run
    obtain ⟨next, placed, run⟩ := except_bind_ok run
    rw [List.cons_append, List.foldlM_cons]
    by_cases early : Overruns l first
    · rw [early.overflow]
      rfl
    · rw [line_eq early, placed]
      exact ih run

end Lines

section Binding

variable {labels : Labels} {placed : List PlacedLine} {data : ExtTreeMap Word Byte}
  {fixups : List Fixup}

theorem patch_eq {fixup : Fixup}
    (room : fixup.address.toNat + 4 ≤ MemoryMap.heapBase.toNat) (data : ExtTreeMap Word Byte) :
    patch labels data fixup = refusing (Assembler.patch labels data fixup) := by
  have top : MemoryMap.heapBase.toNat = 0x10040000 := rfl
  have inside : ∀ n ∈ (List.range 4).map (fixup.address.toNat + ·), n < 0x100000000 := by
    intro n member
    obtain ⟨i, less, rfl⟩ := List.mem_map.mp member
    have below := List.mem_range.mp less
    omega
  rw [patch, words_of_lt inside]
  cases Assembler.patch labels data fixup <;> rfl

theorem foldlM_patch (room : ∀ fixup ∈ fixups,
    fixup.address.toNat + 4 ≤ MemoryMap.heapBase.toNat) (data : ExtTreeMap Word Byte) :
    fixups.foldlM (patch labels) data =
      refusing (fixups.foldlM (Assembler.patch labels) data) := by
  induction fixups generalizing data with
  | nil => rfl
  | cons fixup fixups ih =>
    obtain ⟨here, later⟩ := List.forall_mem_cons.mp room
    rw [List.foldlM_cons, List.foldlM_cons, patch_eq here, refusing_bind]
    exact refusing_bind_congr fun data _ => ih later data

end Binding

end Checked

end MipsLab
