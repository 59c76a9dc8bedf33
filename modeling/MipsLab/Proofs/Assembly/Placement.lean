import MipsLab.Assembly.Layout
import Mathlib

/-! What the first pass does with a stream of lines. A line either waits, opens a segment, aligns,
declares data or places an instruction; the labels met since the last line that did more than wait
are bound where that line finds its segment. -/
namespace MipsLab

open Std (ExtTreeMap)

theorem except_bind_ok {ε α β : Type} {x : Except ε α} {f : α → Except ε β} {result : β}
    (done : (x >>= f) = .ok result) : ∃ a, x = .ok a ∧ f a = .ok result := by
  cases x with
  | error e => cases done
  | ok a => exact ⟨a, rfl, done⟩

theorem except_map_ok {ε α β : Type} {x : Except ε α} {f : α → β} {result : β}
    (done : x.map f = .ok result) : ∃ a, x = .ok a ∧ f a = result := by
  cases x with
  | error e => cases done
  | ok a => exact ⟨a, rfl, Except.ok.inj done⟩

theorem except_mapError_ok {ε ε' α : Type} {x : Except ε α} {f : ε → ε'} {result : α}
    (done : x.mapError f = .ok result) : x = .ok result := by
  cases x with
  | error e => cases done
  | ok a =>
    cases done
    rfl

/-- What a statement makes the first pass do. -/
inductive Role where
  | idle
  | enter (segment : Segment)
  | align
  | declaration (kind : DataKind)
  | instruction
  | unknown
  deriving DecidableEq

def Statement.role (s : Statement) : Role :=
  match s.head with
  | none => .idle
  | some head =>
    if head.toList.head? = some '.' then
      match Directive.ofName? head with
      | none => .unknown
      | some (.enter segment) => .enter segment
      | some .align => .align
      | some (.emit kind) => .declaration kind
      | some .eqv | some .includeFile | some .globl => .idle
    else .instruction

def Statement.name (s : Statement) : String := s.head.getD ""

namespace SourceLine

/-- The statement of a line that can be read; a blank line has an empty one. -/
def statement (line : SourceLine) : Statement :=
  if (Text.trim line.text).isEmpty then ⟨[], none, []⟩
  else
    match lex line.text with
    | .ok s => s
    | .error _ => ⟨[], none, []⟩

def labels (line : SourceLine) : List String := line.statement.labels

def role (line : SourceLine) : Role := line.statement.role

def isInstruction (line : SourceLine) : Bool := line.role = .instruction

def isDeclaration (line : SourceLine) : Bool :=
  match line.role with
  | .declaration _ => true
  | _ => false

end SourceLine

namespace Layout

variable {l l' b : Layout} {line : SourceLine}

def awaiting (l : Layout) (labels : List String) : Layout :=
  { l with waiting := l.waiting ++ labels }

/-- `b` is `l` with the waiting labels bound where its segment stands. -/
structure Binds (l b : Layout) : Prop where
  rest : b = { l with symbols := b.symbols, waiting := [] }
  distinct : l.waiting.Nodup
  fresh : ∀ name ∈ l.waiting, l.symbols[name]? = none
  symbols : ∀ name, b.symbols[name]? = if name ∈ l.waiting then some l.pc else l.symbols[name]?

/-- The table with one more label, unless it is there already. -/
def defineAt (address : Word) (symbols : SymbolTable) (name : String) :
    Except AssemblyError SymbolTable :=
  if symbols[name]? = none then .ok (symbols.insert name address)
  else .error (.duplicateLabel name)

theorem bindLabels_eq (l : Layout) : l.bindLabels =
    (l.waiting.foldlM (defineAt l.pc) l.symbols).map fun symbols =>
      { l with symbols, waiting := [] } := by
  have steps (define : SymbolTable → String → Except AssemblyError SymbolTable)
      (same : ∀ symbols name, define symbols name = defineAt l.pc symbols name) :
      (l.waiting.foldlM define l.symbols >>= fun symbols =>
        (pure { l with symbols, waiting := [] } : Except AssemblyError Layout)) =
      (l.waiting.foldlM (defineAt l.pc) l.symbols).map fun symbols =>
        { l with symbols, waiting := [] } := by
    obtain rfl : define = defineAt l.pc := funext₂ same
    cases l.waiting.foldlM (defineAt l.pc) l.symbols <;> rfl
  refine steps _ fun symbols name => ?_
  unfold SymbolTable.define? defineAt
  rw [← ExtTreeMap.isSome_getElem?_eq_contains]
  cases symbols[name]? <;> rfl

theorem foldlM_defineAt {names : List String} {address : Word} {symbols bound : SymbolTable}
    (done : names.foldlM (defineAt address) symbols = .ok bound) :
    names.Nodup ∧ (∀ name ∈ names, symbols[name]? = none) ∧
      ∀ name, bound[name]? = if name ∈ names then some address else symbols[name]? := by
  induction names generalizing symbols with
  | nil =>
    cases done
    simp
  | cons first names ih =>
    rw [List.foldlM_cons, defineAt] at done
    by_cases free : symbols[first]? = none
    · rw [if_pos free] at done
      obtain ⟨distinct, fresh, values⟩ := ih done
      have notLater : first ∉ names := fun mem => by simpa using fresh first mem
      refine ⟨List.nodup_cons.mpr ⟨notLater, distinct⟩, fun name mem => ?_, fun name => ?_⟩
      · rcases List.mem_cons.mp mem with rfl | mem
        · exact free
        · have absent := fresh name mem
          rw [ExtTreeMap.getElem?_insert] at absent
          split at absent
          · cases absent
          · exact absent
      · rw [values, ExtTreeMap.getElem?_insert]
        by_cases same : first = name
        · subst same
          simp [notLater]
        · have differ : compare first name ≠ .eq := by simpa using same
          simp [Ne.symm same, differ]
    · rw [if_neg free] at done
      cases done

theorem binds_of_bindLabels (bound : l.bindLabels = .ok b) : Binds l b := by
  rw [bindLabels_eq] at bound
  cases defined : l.waiting.foldlM (defineAt l.pc) l.symbols with
  | error e =>
    rw [defined] at bound
    cases bound
  | ok symbols =>
    rw [defined] at bound
    cases bound
    obtain ⟨distinct, fresh, values⟩ := foldlM_defineAt defined
    exact ⟨rfl, distinct, fresh, values⟩

/-- The bytes of the elements of a declaration, one behind another. -/
def laid (made : List (Nat × Element)) : List (Option Byte) :=
  made.flatMap fun (_, e) => (List.replicate e.count e.bytes).flatten

/-- The declaration that a line makes where the data segment stands, and its elements. -/
structure Declares (l : Layout) (line : SourceLine) (d : Declaration)
    (made : List (Nat × Element)) : Prop where
  role : line.role = .declaration d.kind
  address : d.address = l.dataPc
  tag : d.tag = line.tag
  aligned : d.kind.align ∣ d.address.toNat
  elements : ∃ head, elements head d.kind d.address line.statement.args = .ok made
  values : d.values = made.map (·.2.value)
  size : d.size = (laid made).length
  room : d.address.toNat + d.size ≤ MemoryMap.heapBase.toNat

/-- Everything a line can do to the layout, with what it has checked. -/
inductive Step (l : Layout) (line : SourceLine) : Layout → Prop
  | idle : line.role = .idle → Step l line (l.awaiting line.labels)
  | enter {b : Layout} {segment : Segment} {textPc dataPc : Word} :
      line.role = .enter segment → Binds (l.awaiting line.labels) b →
      (line.statement.args = [] → textPc = l.textPc ∧ dataPc = l.dataPc) →
      Step l line { b with segment, textPc, dataPc }
  | align {b : Layout} {dataPc : Word} :
      line.role = .align → l.segment = .data →
      Binds { l.awaiting line.labels with dataPc } b →
      (∃ n ≤ 3, dataPc = alignUp l.dataPc (Nat.pow 2 n)) → Step l line b
  | declaration {b : Layout} {d : Declaration} {made : List (Nat × Element)}
      {warnings : List Warning} :
      l.segment = .data → Binds (l.awaiting line.labels) b → Declares l line d made →
      Step l line { b with
        dataPc := d.address + BitVec.ofNat 32 d.size
        data := writeKnown b.data d.address (laid made)
        declarations := d :: b.declarations
        fixups := (made.flatMap (elementFixups d.address d.tag)).reverse ++ b.fixups
        warnings }
  | instruction {b : Layout} {sized : Expansion} :
      line.role = .instruction → l.segment = .text → Binds (l.awaiting line.labels) b →
      expand line.statement.name line.statement.args unplaced = .ok sized →
      l.textPc.toNat + 4 * sized.instrs.length ≤ MemoryMap.textLimit.toNat →
      Step l line { b with
        textPc := l.textPc + BitVec.ofNat 32 (4 * sized.instrs.length)
        placed := ⟨l.textPc, line.statement.name, line.statement.args, line.tag,
          String.ofList (statementText line.text)⟩ :: b.placed }

theorem step_of_enter {segment : Segment} (role : line.role = .enter segment) {head : String}
    (done : (l.awaiting line.labels).enter head segment line.statement.args = .ok l') :
    Step l line l' := by
  obtain ⟨b, bound, done⟩ := except_bind_ok done
  have binds := binds_of_bindLabels bound
  have same : b.textPc = l.textPc ∧ b.dataPc = l.dataPc := by
    rw [binds.rest]
    exact ⟨rfl, rfl⟩
  split at done
  · cases done
    exact .enter role binds fun _ => same
  · rename_i address given
    have noStay : line.statement.args ≠ [] := by rw [given]; simp
    split at done
    · cases done
    · split at done
      · split at done <;> cases done <;> exact .enter role binds fun none => absurd none noStay
      · cases done
  · cases done

theorem step_of_align (role : line.role = .align) {head : String}
    (done : (l.awaiting line.labels).align head line.statement.args = .ok l') :
    Step l line l' := by
  unfold Layout.align at done
  split at done
  · cases done
  rename_i inData
  split at done
  · split at done
    · cases done
    · split at done
      · next n _ allowed =>
        refine .align role (not_not.mp inData) (binds_of_bindLabels done) ⟨n.toNat, ?_, rfl⟩
        omega
      · cases done
  · cases done

theorem step_of_emit {kind : DataKind} (role : line.role = .declaration kind) {head : String}
    (done : (l.awaiting line.labels).emit head kind line.statement.args line.tag = .ok l') :
    Step l line l' := by
  unfold Layout.emit at done
  split at done
  · cases done
  rename_i inData
  split at done
  · cases done
  split at done
  · cases done
  rename_i aligned
  obtain ⟨b, bound, done⟩ := except_bind_ok done
  obtain ⟨made, found, done⟩ := except_bind_ok done
  have binds := binds_of_bindLabels bound
  have here : b.dataPc = l.dataPc := by
    rw [binds.rest]
    rfl
  dsimp only at done
  split at done
  · rename_i room
    cases done
    have inSegment : l.segment = .data := not_not.mp inData
    have even : kind.align ∣ b.dataPc.toNat := by
      rw [here]
      exact Nat.dvd_of_mod_eq_zero (not_not.mp aligned)
    have declares : Declares l line ⟨(l.awaiting line.labels).waiting.getLast?, kind,
        made.map (·.2.value), b.dataPc, (laid made).length, line.tag⟩ made :=
      ⟨role, here, rfl, even, ⟨head, found⟩, rfl, rfl, room⟩
    exact .declaration inSegment binds declares
  · cases done

theorem step_of_instruction (role : line.role = .instruction)
    (done : (l.awaiting line.labels).instruction line.statement.name line.statement.args line =
      .ok l') : Step l line l' := by
  unfold Layout.instruction at done
  split at done
  · cases done
  rename_i inText
  obtain ⟨b, bound, done⟩ := except_bind_ok done
  obtain ⟨sized, sizing, done⟩ := except_bind_ok done
  have binds := binds_of_bindLabels bound
  have same : b.textPc = l.textPc := by
    rw [binds.rest]
    rfl
  dsimp only at done
  rw [same] at done
  split at done
  · rename_i room
    cases done
    exact .instruction role (not_not.mp inText) binds sizing room
  · cases done

theorem step_of_statement (done : l.statement line.statement line = .ok l') : Step l line l' := by
  unfold Layout.statement at done
  dsimp only at done
  split at done
  · rename_i bare
    cases done
    exact .idle (by rw [SourceLine.role, Statement.role, bare])
  rename_i head given
  have named : line.statement.name = head := by rw [Statement.name, given]; rfl
  split at done
  · rename_i dotted
    have role : line.role = match Directive.ofName? head with
        | none => .unknown
        | some (.enter segment) => .enter segment
        | some .align => .align
        | some (.emit kind) => .declaration kind
        | some .eqv | some .includeFile | some .globl => .idle := by
      simp only [SourceLine.role, Statement.role, given, if_pos dotted]
    split at done
    · cases done
    · rename_i segment found
      exact step_of_enter (by rw [role, found]) done
    · rename_i found
      exact step_of_align (by rw [role, found]) done
    · rename_i kind found
      exact step_of_emit (by rw [role, found]) done
    all_goals
      rename_i found
      cases done
      exact .idle (by rw [role, found])
  · rename_i plain
    rw [← named] at done
    exact step_of_instruction (by simp only [SourceLine.role, Statement.role, given, if_neg plain])
      done

/-- A line that is placed takes a step. -/
theorem statement_of_line (filled : ¬ (Text.trim line.text).isEmpty = true)
    (done : l.line line = .ok l') : l.statement line.statement line = .ok l' := by
  rw [Layout.line, if_neg filled] at done
  obtain ⟨s, read, stated⟩ := except_bind_ok (except_mapError_ok done)
  have known : line.statement = s := by
    rw [SourceLine.statement, if_neg filled, except_mapError_ok read]
  rwa [known]

theorem step_of_line (done : l.line line = .ok l') : Step l line l' := by
  by_cases blank : (Text.trim line.text).isEmpty = true
  · rw [Layout.line, if_pos blank] at done
    cases done
    have none : line.statement = ⟨[], none, []⟩ := by rw [SourceLine.statement, if_pos blank]
    have same : l.awaiting line.labels = l := by
      rw [SourceLine.labels, none, awaiting, List.append_nil]
    have idle : Step l line (l.awaiting line.labels) :=
      .idle (by rw [SourceLine.role, none]; rfl)
    rwa [same] at idle
  · exact step_of_statement (statement_of_line blank done)

/-- Nothing that is bound or placed is ever taken back. -/
structure Extends (l l' : Layout) : Prop where
  symbols : ∀ (name : String) (address : Word),
    l.symbols[name]? = some address → l'.symbols[name]? = some address
  placed : l.placed <:+ l'.placed
  declarations : l.declarations <:+ l'.declarations

theorem Extends.refl (l : Layout) : Extends l l :=
  ⟨fun _ _ found => found, List.suffix_rfl, List.suffix_rfl⟩

theorem Extends.trans {l'' : Layout} (first : Extends l l') (second : Extends l' l'') :
    Extends l l'' where
  symbols name address found := second.symbols name address (first.symbols name address found)
  placed := first.placed.trans second.placed
  declarations := first.declarations.trans second.declarations

theorem Binds.symbols_extend (binds : Binds l b) {name : String} {address : Word}
    (found : l.symbols[name]? = some address) : b.symbols[name]? = some address := by
  rw [binds.symbols]
  split
  · rename_i waits
    cases found.symm.trans (binds.fresh name waits)
  · exact found

/-- A line and the place it has got. -/
structure Places (line : SourceLine) (p : PlacedLine) : Prop where
  name : p.name = line.statement.name
  args : p.args = line.statement.args
  tag : p.tag = line.tag
  source : p.source = String.ofList (statementText line.text)
  sized : ∃ sized, expand p.name p.args unplaced = .ok sized

/-- An instruction line is placed where its segment stands, and no other line is. -/
theorem Step.placed (step : Step l line l') :
    (line.isInstruction = false ∧ l'.placed = l.placed) ∨
      (line.isInstruction = true ∧
        ∃ p, Places line p ∧ p.address = l.pc ∧ l'.placed = p :: l.placed) := by
  cases step with
  | idle role => exact .inl ⟨by simp [SourceLine.isInstruction, role], rfl⟩
  | enter role binds _ =>
    exact .inl ⟨by simp [SourceLine.isInstruction, role], by rw [binds.rest]; rfl⟩
  | align role _ binds _ =>
    exact .inl ⟨by simp [SourceLine.isInstruction, role], by rw [binds.rest]; rfl⟩
  | declaration _ binds declares =>
    exact .inl ⟨by simp [SourceLine.isInstruction, declares.role], by rw [binds.rest]; rfl⟩
  | instruction role inText binds sizing _ =>
    refine .inr ⟨by simp [SourceLine.isInstruction, role], ⟨l.textPc, _, _, _, _⟩,
      ⟨rfl, rfl, rfl, rfl, _, sizing⟩, by rw [pc, inText], ?_⟩
    rw [binds.rest]
    rfl

/-- A declaration is laid down where its segment stands, and no other line is. -/
theorem Step.declarations (step : Step l line l') :
    (line.isDeclaration = false ∧ l'.declarations = l.declarations) ∨
      (line.isDeclaration = true ∧
        ∃ d, d.tag = line.tag ∧ d.address = l.pc ∧ l'.declarations = d :: l.declarations) := by
  cases step with
  | idle role => exact .inl ⟨by simp [SourceLine.isDeclaration, role], rfl⟩
  | enter role binds _ =>
    exact .inl ⟨by simp [SourceLine.isDeclaration, role], by rw [binds.rest]; rfl⟩
  | align role _ binds _ =>
    exact .inl ⟨by simp [SourceLine.isDeclaration, role], by rw [binds.rest]; rfl⟩
  | declaration inData binds declares =>
    refine .inr ⟨by simp [SourceLine.isDeclaration, declares.role], _, declares.tag, ?_, ?_⟩
    · rw [pc, inData, declares.address]
    · rw [binds.rest]
      rfl
  | instruction role _ binds _ _ =>
    exact .inl ⟨by simp [SourceLine.isDeclaration, role], by rw [binds.rest]; rfl⟩

/-- The labels of a line wait with the others, and are bound unless the line is idle. -/
theorem Step.labels (step : Step l line l') :
    (line.role = .idle ∧ l' = l.awaiting line.labels) ∨
      ∃ before b, Binds before b ∧ before.waiting = l.waiting ++ line.labels ∧
        before.symbols = l.symbols ∧ (line.role ≠ .align → before.pc = l.pc) ∧
        l'.symbols = b.symbols ∧ l'.waiting = b.waiting := by
  cases step with
  | idle role => exact .inl ⟨role, rfl⟩
  | enter role binds _ => exact .inr ⟨_, _, binds, rfl, rfl, fun _ => rfl, rfl, rfl⟩
  | align role _ binds _ =>
    exact .inr ⟨_, _, binds, rfl, rfl, fun other => absurd role other, rfl, rfl⟩
  | declaration _ binds _ => exact .inr ⟨_, _, binds, rfl, rfl, fun _ => rfl, rfl, rfl⟩
  | instruction role _ binds _ _ => exact .inr ⟨_, _, binds, rfl, rfl, fun _ => rfl, rfl, rfl⟩

theorem Binds.extends (binds : Binds l b) : Extends l b where
  symbols _ _ := binds.symbols_extend
  placed := by rw [binds.rest]
  declarations := by rw [binds.rest]

theorem Step.extends (step : Step l line l') : Extends l l' where
  symbols name address found := by
    rcases step.labels with ⟨-, rfl⟩ | ⟨before, b, binds, -, known, -, result, -⟩
    · exact found
    · rw [result]
      exact binds.symbols_extend (known ▸ found)
  placed := by
    rcases step.placed with ⟨-, same⟩ | ⟨-, p, -, -, more⟩
    · rw [same]
    · rw [more]
      exact List.suffix_cons _ _
  declarations := by
    rcases step.declarations with ⟨-, same⟩ | ⟨-, d, -, -, more⟩
    · rw [same]
    · rw [more]
      exact List.suffix_cons _ _

/-- The labels met so far, in order: first those that are bound, then those that wait. -/
def Named (labels : List String) (l : Layout) : Prop :=
  ∃ bound, labels = bound ++ l.waiting ∧ bound.Nodup ∧
    ∀ name, name ∈ bound ↔ (l.symbols[name]?).isSome

theorem Named.awaiting {labels : List String} (named : Named labels l) (more : List String) :
    Named (labels ++ more) (l.awaiting more) := by
  obtain ⟨bound, rfl, distinct, known⟩ := named
  exact ⟨bound, by rw [Layout.awaiting, List.append_assoc], distinct, known⟩

theorem Named.congr {labels : List String} (named : Named labels l)
    (waiting : l'.waiting = l.waiting) (symbols : l'.symbols = l.symbols) : Named labels l' := by
  rwa [Named, waiting, symbols]

theorem Named.binds {labels : List String} (named : Named labels l) (binds : Binds l b) :
    Named labels b := by
  obtain ⟨bound, rfl, distinct, known⟩ := named
  have none : b.waiting = [] := by rw [binds.rest]
  refine ⟨bound ++ l.waiting, by rw [none, List.append_nil], ?_, fun name => ?_⟩
  · refine List.nodup_append.mpr ⟨distinct, binds.distinct, ?_⟩
    rintro name old name' waits rfl
    have some := (known name).mp old
    rw [binds.fresh name waits] at some
    cases some
  · rw [List.mem_append, binds.symbols]
    split
    · rename_i waits
      simp [waits]
    · rename_i settled
      simp [settled, known]

theorem Step.named (step : Step l line l') {labels : List String} (named : Named labels l) :
    Named (labels ++ line.labels) l' := by
  have waits := named.awaiting line.labels
  rcases step.labels with ⟨-, rfl⟩ | ⟨before, b, binds, waiting, known, -, symbols, none⟩
  · exact waits
  · have ready : Named (labels ++ line.labels) before := waits.congr waiting known
    exact (ready.binds binds).congr none symbols

/-- What the layout has made of the lines so far. -/
structure Follows (done : List SourceLine) (l : Layout) : Prop where
  named : Named (done.flatMap (·.labels)) l
  placed : List.Forall₂ Places (done.filter (·.isInstruction)) l.placed.reverse
  declared : List.Forall₂ (fun line d => d.tag = line.tag) (done.filter (·.isDeclaration))
    l.declarations.reverse

theorem follows_start : Follows [] start := by
  refine ⟨⟨[], rfl, List.nodup_nil, fun name => ?_⟩, .nil, .nil⟩
  simp [start]

theorem forall₂_concat {α β : Type} {related : α → β → Prop} {as : List α} {bs : List β} {a : α}
    {b : β} (before : List.Forall₂ related as bs) (last : related a b) :
    List.Forall₂ related (as ++ [a]) (bs ++ [b]) :=
  List.rel_append before (.cons last .nil)

theorem Step.follows {done : List SourceLine} (step : Step l line l') (follows : Follows done l) :
    Follows (done ++ [line]) l' := by
  refine ⟨?_, ?_, ?_⟩
  · rw [List.flatMap_append, List.flatMap_singleton]
    exact step.named follows.named
  · rw [List.filter_append]
    rcases step.placed with ⟨other, same⟩ | ⟨here, p, places, -, more⟩
    · rw [List.filter_cons_of_neg (by simp [other]), List.filter_nil, List.append_nil, same]
      exact follows.placed
    · rw [List.filter_cons_of_pos here, List.filter_nil, more, List.reverse_cons]
      exact forall₂_concat follows.placed places
  · rw [List.filter_append]
    rcases step.declarations with ⟨other, same⟩ | ⟨here, d, tag, -, more⟩
    · rw [List.filter_cons_of_neg (by simp [other]), List.filter_nil, List.append_nil, same]
      exact follows.declared
    · rw [List.filter_cons_of_pos here, List.filter_nil, more, List.reverse_cons]
      exact forall₂_concat follows.declared tag

/-- One line after another. -/
inductive Steps : Layout → List SourceLine → Layout → Prop
  | nil {l : Layout} : Steps l [] l
  | cons {l next l' : Layout} {line : SourceLine} {lines : List SourceLine} :
      Step l line next → Steps next lines l' → Steps l (line :: lines) l'

theorem steps_of_foldlM {lines : List SourceLine} (run : lines.foldlM Layout.line l = .ok l') :
    Steps l lines l' := by
  induction lines generalizing l with
  | nil =>
    cases run
    exact .nil
  | cons line lines ih =>
    rw [List.foldlM_cons] at run
    obtain ⟨next, placed, run⟩ := except_bind_ok run
    exact .cons (step_of_line placed) (ih run)

theorem steps_append {before after : List SourceLine} (steps : Steps l (before ++ after) l') :
    ∃ mid, Steps l before mid ∧ Steps mid after l' := by
  induction before generalizing l with
  | nil => exact ⟨l, .nil, steps⟩
  | cons line before ih =>
    cases steps with
    | cons step steps =>
      obtain ⟨mid, front, back⟩ := ih steps
      exact ⟨mid, .cons step front, back⟩

theorem Steps.extends {lines : List SourceLine} (steps : Steps l lines l') : Extends l l' := by
  induction steps with
  | nil => exact .refl _
  | cons step _ ih => exact step.extends.trans ih

theorem Steps.follows {done lines : List SourceLine} (steps : Steps l lines l')
    (follows : Follows done l) : Follows (done ++ lines) l' := by
  induction steps generalizing done with
  | nil => rwa [List.append_nil]
  | cons step _ ih =>
    have more := ih (step.follows follows)
    rwa [List.append_assoc, List.singleton_append] at more

theorem Steps.idle {lines : List SourceLine} (steps : Steps l lines l')
    (idle : ∀ line ∈ lines, line.role = .idle) : l' = l.awaiting (lines.flatMap (·.labels)) := by
  induction steps with
  | nil => rw [List.flatMap_nil, awaiting, List.append_nil]
  | @cons l next l' line lines step _ ih =>
    have role := idle line List.mem_cons_self
    have waits : next = l.awaiting line.labels := by
      cases step with
      | idle => rfl
      | declaration _ _ declares => exact absurd (role.symm.trans declares.role) nofun
      | _ => simp_all
    rw [ih fun line mem => idle line (List.mem_cons_of_mem _ mem), waits, List.flatMap_cons]
    simp only [awaiting, List.append_assoc]

theorem unit_role (unit : line.isInstruction = true ∨ line.isDeclaration = true) :
    line.role ≠ .idle ∧ line.role ≠ .align := by
  constructor <;> intro role <;>
    simp [SourceLine.isInstruction, SourceLine.isDeclaration, role] at unit

/-- A unit binds the labels of its own line and of the idle lines before it. -/
theorem Steps.unit_labels {between : List SourceLine} {mid : Layout} (steps : Steps l between mid)
    (idle : ∀ line ∈ between, line.role = .idle) (step : Step mid line l')
    (unit : line.isInstruction = true ∨ line.isDeclaration = true) {label : String}
    (heads : label ∈ (between ++ [line]).flatMap (·.labels)) :
    l'.symbols[label]? = some mid.pc := by
  obtain ⟨busy, still⟩ := unit_role unit
  rcases step.labels with ⟨role, -⟩ | ⟨before, b, binds, waiting, -, pc, symbols, -⟩
  · exact absurd role busy
  · rw [symbols, binds.symbols, if_pos, pc still]
    rw [waiting, steps.idle idle, awaiting]
    rw [List.flatMap_append, List.flatMap_singleton] at heads
    rcases List.mem_append.mp heads with old | new
    · exact List.mem_append_left _ (List.mem_append_right _ old)
    · exact List.mem_append_right _ new

theorem steps_of_ofLines {lines : List SourceLine} (done : ofLines lines = .ok l) :
    ∃ last, Steps start lines last ∧ Binds last l := by
  unfold ofLines at done
  obtain ⟨last, run, done⟩ := except_bind_ok done
  exact ⟨last, steps_of_foldlM run, binds_of_bindLabels (except_mapError_ok done)⟩

theorem Binds.follows {done : List SourceLine} (binds : Binds l b) (follows : Follows done l) :
    Follows done b := by
  refine ⟨follows.named.binds binds, ?_, ?_⟩
  · rw [binds.rest]
    exact follows.placed
  · rw [binds.rest]
    exact follows.declared

theorem ofLines_follows {lines : List SourceLine} (done : ofLines lines = .ok l) :
    Follows lines l ∧ l.waiting = [] := by
  obtain ⟨last, steps, binds⟩ := steps_of_ofLines done
  refine ⟨binds.follows (steps.follows follows_start), ?_⟩
  rw [binds.rest]

theorem getElem?_reverse_of_suffix {α : Type} {a : α} {older all : List α}
    (suffix : a :: older <:+ all) : all.reverse[older.length]? = some a := by
  obtain ⟨newer, rfl⟩ := suffix
  simp

/-- The address that a label gets when only idle lines stand between its line and a unit. -/
theorem ofLines_unit {before between after : List SourceLine} {unit : SourceLine} {label : String}
    (done : ofLines (before ++ between ++ unit :: after) = .ok l)
    (idle : ∀ line ∈ between, line.role = .idle)
    (heads : label ∈ (between ++ [unit]).flatMap (·.labels)) :
    (unit.isInstruction = true → ∃ p, Places unit p ∧ l.symbols[label]? = some p.address ∧
      l.placed.reverse[before.countP (·.isInstruction)]? = some p) ∧
    (unit.isDeclaration = true → ∃ d, d.tag = unit.tag ∧ l.symbols[label]? = some d.address ∧
      l.declarations.reverse[before.countP (·.isDeclaration)]? = some d) := by
  obtain ⟨last, steps, binds⟩ := steps_of_ofLines done
  obtain ⟨mid, front, back⟩ := steps_append steps
  obtain ⟨first, lead, waits⟩ := steps_append front
  have follows : Follows before first := lead.follows follows_start
  have same := waits.idle idle
  cases back with
  | cons step rest =>
    have kept := (rest.extends).trans binds.extends
    constructor
    · intro here
      have bound := waits.unit_labels idle step (.inl here) heads
      rcases step.placed with ⟨other, -⟩ | ⟨-, p, places, address, placed⟩
      · cases here.symm.trans other
      have length : mid.placed.length = before.countP (·.isInstruction) := by
        have lengths := follows.placed.length_eq
        rw [List.length_reverse] at lengths
        rw [List.countP_eq_length_filter, lengths, same]
        rfl
      refine ⟨p, places, ?_, ?_⟩
      · rw [address]
        exact kept.symbols label _ bound
      · rw [← length]
        exact getElem?_reverse_of_suffix (placed ▸ kept.placed)
    · intro here
      have bound := waits.unit_labels idle step (.inr here) heads
      rcases step.declarations with ⟨other, -⟩ | ⟨-, d, tag, address, declared⟩
      · cases here.symm.trans other
      have length : mid.declarations.length = before.countP (·.isDeclaration) := by
        have lengths := follows.declared.length_eq
        rw [List.length_reverse] at lengths
        rw [List.countP_eq_length_filter, lengths, same]
        rfl
      refine ⟨d, tag, ?_, ?_⟩
      · rw [address]
        exact kept.symbols label _ bound
      · rw [← length]
        exact getElem?_reverse_of_suffix (declared ▸ kept.declarations)

end Layout

end MipsLab
