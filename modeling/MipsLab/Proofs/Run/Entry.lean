import MipsLab.Proofs.Assembly.Segments
import MipsLab.Proofs.Run.Faults
import MipsLab.Proofs.Run.Heap

/-! Where a run starts. Unless a label is asked for, it starts at the base of the text segment,
wherever lines have put their instructions. So the first tick depends on whether one of these lies
there, and if not, on whether any lies behind. -/
namespace MipsLab

open Std (ExtTreeMap)

/-- What a line puts into the text segment where the segment stands. -/
def SourceLine.placement (line : SourceLine) (place : Word) : PlacedLine :=
  ⟨place, line.statement.name, line.statement.args, line.tag,
    String.ofList (statementText line.text)⟩

/-- The instruction lines with their places: one behind another, or where a line in between has put
the text segment. -/
def placementsFrom : Word → List SourceLine → List PlacedLine
  | _, [] => []
  | place, line :: lines =>
    if line.isInstruction then
      line.placement place ::
        placementsFrom (place + BitVec.ofNat 32 (4 * (line.placement place).count)) lines
    else placementsFrom ((line.origin? .text).getD place) lines

def placements (lines : List SourceLine) : List PlacedLine :=
  placementsFrom MemoryMap.textBase lines

/-- Lines without instructions only say where the next instruction goes. -/
theorem placementsFrom_append {before : List SourceLine}
    (none : ∀ line ∈ before, line.isInstruction = false) (place : Word)
    (lines : List SourceLine) : placementsFrom place (before ++ lines) = placementsFrom
      (((before.filterMap (·.origin? .text)).getLast?).getD place) lines := by
  induction before generalizing place with
  | nil => rfl
  | cons line before ih =>
    obtain ⟨here, later⟩ := List.forall_mem_cons.mp none
    rw [List.cons_append, placementsFrom, here, if_neg Bool.false_ne_true, ih later]
    cases moved : line.origin? .text with
    | none => rw [List.filterMap_cons_none moved, Option.getD_none]
    | some origin =>
      rw [List.filterMap_cons_some moved, List.getLast?_cons, Option.getD_some, Option.getD_some]

/-- The first instruction lies where the text segment has been put before it. -/
theorem placement_mem_placements {before : List SourceLine} {line : SourceLine}
    (after : List SourceLine) (none : ∀ other ∈ before, other.isInstruction = false)
    (first : line.isInstruction = true) :
    line.placement (originAfter .text before) ∈ placements (before ++ line :: after) := by
  rw [placements, placementsFrom_append none, placementsFrom, if_pos first]
  exact List.mem_cons_self

/-- A placed line has an instruction at an address. -/
def PlacedLine.Spans (q : PlacedLine) (a : Word) : Prop :=
  ∃ k < q.count, a.toNat = q.address.toNat + 4 * k

namespace Layout

variable {l l' : Layout} {line : SourceLine} {lines : List SourceLine}

theorem textPc_of_line (other : line.isInstruction = false) (placing : l.line line = .ok l') :
    l'.textPc = (line.origin? .text).getD l.textPc := by
  by_cases enters : ∃ segment, line.role = .enter segment
  · obtain ⟨segment, role⟩ := enters
    exact (origin_of_line role placing).1
  · have stays := not_exists.mp enters
    rw [origin?_of_role stays, Option.getD_none]
    cases step_of_line placing with
    | idle => rfl
    | enter role => exact absurd role (stays _)
    | align _ _ binds => rw [binds.rest]; rfl
    | declaration _ binds => rw [binds.rest]; rfl
    | instruction role => simp [SourceLine.isInstruction, role] at other

theorem placed_of_instruction (here : line.isInstruction = true) (placing : l.line line = .ok l') :
    l'.placed = line.placement l.textPc :: l.placed ∧
      l'.textPc = l.textPc + BitVec.ofNat 32 (4 * (line.placement l.textPc).count) := by
  have role : line.role = .instruction := by simpa [SourceLine.isInstruction] using here
  cases step_of_line placing with
  | idle other | enter other | align other => cases role.symm.trans other
  | declaration _ _ declares => cases role.symm.trans declares.role
  | @instruction b sized _ _ binds sizing =>
    have count : (line.placement l.textPc).count = sized.instrs.length := by
      rw [PlacedLine.count, SourceLine.placement, sizing]
    rw [count, binds.rest]
    exact ⟨rfl, rfl⟩

/-- A line leaves the same instructions at the same places, those that are placed together with
those that are still to be placed. -/
theorem placements_of_line (placing : l.line line = .ok l') (lines : List SourceLine) :
    l'.placed.reverse ++ placementsFrom l'.textPc lines =
      l.placed.reverse ++ placementsFrom l.textPc (line :: lines) := by
  rw [placementsFrom]
  cases here : line.isInstruction with
  | true =>
    obtain ⟨placed, textPc⟩ := placed_of_instruction here placing
    rw [if_pos rfl, placed, textPc, List.reverse_cons, List.append_assoc, List.singleton_append]
  | false =>
    rw [if_neg Bool.false_ne_true, textPc_of_line here placing]
    rcases (step_of_line placing).placed with ⟨-, same⟩ | ⟨instruction, -⟩
    · rw [same]
    · rw [here] at instruction
      cases instruction

theorem placements_of_foldlM (run : lines.foldlM Layout.line l = .ok l') :
    l'.placed.reverse = l.placed.reverse ++ placementsFrom l.textPc lines := by
  induction lines generalizing l with
  | nil =>
    cases run
    rw [placementsFrom, List.append_nil]
  | cons line lines ih =>
    rw [List.foldlM_cons] at run
    obtain ⟨next, placing, run⟩ := except_bind_ok run
    rw [ih run, placements_of_line placing]

theorem ofLines_placements (placing : ofLines lines = .ok l) :
    l.placed.reverse = placements lines := by
  obtain ⟨last, run, placing⟩ := except_bind_ok placing
  rw [(binds_of_bindLabels (except_mapError_ok placing)).rest]
  exact placements_of_foldlM run

end Layout

/-- Where the instructions of a program lie that was assembled from these lines. -/
structure Program.PlacedBy (p : Program) (lines : List SourceLine) : Prop where
  text : ∀ a : Word, a ∈ p.text ↔ ∃ q ∈ placements lines, q.Spans a
  ends : ∀ a ∈ p.text, a.toNat + 4 ≤ MemoryMap.textLimit.toNat
  filled : ∀ q ∈ placements lines, 0 < q.count

theorem placedBy_of_bind {startAtMain : Bool} {lines : List SourceLine} {names : PathNames}
    {l : Layout} {p : Program} (placed : Layout.ofLines lines = .ok l)
    (bound : Assembler.bind startAtMain lines names l = .ok p) : p.PlacedBy lines := by
  have order := Layout.ofLines_placements placed
  obtain ⟨follows, -⟩ := Layout.ofLines_follows placed
  have writes := Assembler.writes_of_mapM (Assembler.bind_fields bound).1
  obtain ⟨-, extents, filled⟩ := Assembler.forall₂_written follows.placed writes
  rw [order] at extents
  obtain ⟨blocks, overlaid⟩ := overlaid_of_bind placed bound
  have contained := contained_of_bind placed bound
  -- both passes give the same lines the same addresses and sizes
  have unit {q : PlacedLine} (member : q ∈ placements lines) :
      ∃ i ∈ p.instructions, i.address = q.address ∧ i.count = q.count := by
    obtain ⟨i, inside, same⟩ := List.mem_map.mp (extents ▸ List.mem_map_of_mem member)
    exact ⟨i, inside, Prod.ext_iff.mp same⟩
  have line {i : SourceInstruction} (member : i ∈ p.instructions) :
      ∃ q ∈ placements lines, q.address = i.address ∧ q.count = i.count := by
    obtain ⟨q, stands, same⟩ := exists_placed_of_bind placed bound member
    exact ⟨q, order ▸ List.mem_reverse.mpr stands, same⟩
  refine ⟨fun a => ?_, fun a member => ?_, fun q member => ?_⟩
  · rw [← ExtTreeMap.isSome_getElem?_iff_mem, Option.isSome_iff_exists]
    simp only [overlaid.text, exists_shows_iff]
    constructor
    · rintro ⟨i, inside, covers⟩
      obtain ⟨q, member, address, count⟩ := line inside
      refine ⟨q, member, ?_⟩
      rw [PlacedLine.Spans, address, count]
      exact (overlaid.ends i inside).covers_iff.mp covers
    · rintro ⟨q, member, spans⟩
      obtain ⟨i, inside, address, count⟩ := unit member
      rw [PlacedLine.Spans, ← address, ← count] at spans
      exact ⟨i, inside, (overlaid.ends i inside).covers_iff.mpr spans⟩
  · obtain ⟨entry, found⟩ := Option.isSome_iff_exists.mp
      (ExtTreeMap.isSome_getElem?_iff_mem.mpr member)
    exact (contained.text a entry found).1
  · obtain ⟨i, inside, -, count⟩ := unit member
    rw [← count]
    exact List.length_pos_iff.mpr (filled i inside)

theorem isLE_compare_iff (a b : Word) : (compare a b).isLE = true ↔ a.toNat ≤ b.toNat := by
  change (compareOfLessAndEq a b).isLE = true ↔ _
  unfold compareOfLessAndEq
  split
  · simp
    bv_omega
  · split
    all_goals
      simp
      bv_omega

namespace Program

variable {p : Program} {x : Word}

/-- The text ends where all of its instructions do, but never before the base. -/
theorem textEnd_le_iff (ends : ∀ a ∈ p.text, a.toNat + 4 ≤ MemoryMap.textLimit.toNat)
    (high : MemoryMap.textBase ≤ x) :
    p.textEnd ≤ x ↔ ∀ a ∈ p.text, a.toNat + 4 ≤ x.toNat := by
  unfold textEnd
  cases last : p.text.maxKey? with
  | none =>
    have empty : p.text = ∅ := ExtTreeMap.maxKey?_eq_none_iff.mp last
    refine iff_of_true high fun a member => ?_
    rw [empty] at member
    exact absurd member ExtTreeMap.not_mem_empty
  | some top =>
    obtain ⟨member, highest⟩ := ExtTreeMap.maxKey?_eq_some_iff_mem_and_forall.mp last
    have limit : MemoryMap.textLimit.toNat < 2 ^ 32 := MemoryMap.textLimit.isLt
    have room := ends top member
    change (top + BitVec.ofNat 32 4).toNat ≤ x.toNat ↔ _
    rw [toNat_add_ofNat (by omega)]
    refine ⟨fun behind a inside => ?_, fun all => all top member⟩
    have below := (isLE_compare_iff a top).mp (highest a inside)
    omega

theorem isPastEnd_iff (ends : ∀ a ∈ p.text, a.toNat + 4 ≤ MemoryMap.textLimit.toNat)
    (high : MemoryMap.textBase ≤ x) (low : x < MemoryMap.textLimit) :
    p.isPastEnd x = true ↔ ∀ a ∈ p.text, a.toNat + 4 ≤ x.toNat := by
  rw [isPastEnd, Bool.and_eq_true, decide_eq_true_iff, decide_eq_true_iff,
    textEnd_le_iff ends high, and_iff_left low]

/-- How a tick goes at an address of the text segment, by what lies there and behind it. -/
structure Leads (p : Program) (pc : Word) (result : TickResult) : Prop where
  on : pc ∈ p.text → result ≠ .ok .finished ∧
    ∀ e a, result = .error e → e.fault ≠ .invalidProgramCounter a
  before : pc ∉ p.text → (∃ a ∈ p.text, pc.toNat < a.toNat + 4) →
    result = .error ⟨pc, none, .invalidProgramCounter pc⟩
  behind : (∀ a ∈ p.text, a.toNat + 4 ≤ pc.toNat) → result = .ok .finished

end Program

namespace Run

theorem executeEntry_ne_finished (r : Run) (pc : Word) (entry : TextEntry) :
    (r.executeEntry pc entry).1 ≠ .ok .finished := by
  unfold executeEntry
  split
  · nofun
  · split
    · nofun
    · nofun
    · next control _ _ _ => cases control <;> nofun

theorem leads_tick {r : Run} (running : r.ended = false)
    (ends : ∀ a ∈ r.program.text, a.toNat + 4 ≤ MemoryMap.textLimit.toNat)
    (high : MemoryMap.textBase ≤ r.pc) (low : r.pc < MemoryMap.textLimit) :
    r.program.Leads r.pc r.tick.1 := by
  have past := Program.isPastEnd_iff ends high low
  constructor
  · intro there
    have inside : ¬ r.program.isPastEnd r.pc = true := fun behind => by
      have here := past.mp behind r.pc there
      omega
    have fetched : r.entry? ≠ none := by
      change r.program.text[r.pc]? ≠ none
      exact Option.isSome_iff_ne_none.mp (ExtTreeMap.isSome_getElem?_iff_mem.mpr there)
    constructor
    · intro finished
      have ways := r.ways_tick
      generalize r.tick = outcome at ways finished
      cases ways with
      | ended ended => exact absurd (running.symm.trans ended) Bool.false_ne_true
      | pastEnd _ behind => exact inside behind
      | astray | pausing | exhausted => cases finished
      | executing entry => exact r.executeEntry_ne_finished r.pc entry finished
    · intro e a failed same
      have fails := fails_tick failed
      rw [same] at fails
      cases fails with
      | astray _ _ missing => exact fetched missing
      | executing _ _ _ plain => cases plain
  · rintro missing ⟨a, member, later⟩
    have inside : r.program.isPastEnd r.pc = false := by
      refine Bool.eq_false_iff.mpr fun behind => ?_
      have below := past.mp behind a member
      omega
    have none : r.program.entryAt? r.pc = none := ExtTreeMap.getElem?_eq_none missing
    rw [tick_astray running inside none, fail, none]
    rfl
  · intro all
    rw [tick_pastEnd running (past.mpr all)]

theorem pc_launch (p : Program) (settings : Settings) (tree : FileTree) (args : List String) :
    (launch p settings tree args).pc = p.entry := by
  unfold launch setArguments
  split
  · rfl
  · simp only [Machine.setArguments, pc, Machine.setReg]
    rfl

theorem running_launch (p : Program) (settings : Settings) (tree : FileTree)
    (args : List String) : (launch p settings tree args).ended = false := by
  unfold launch setArguments
  split <;> rfl

theorem leads_launch {p : Program}
    (ends : ∀ a ∈ p.text, a.toNat + 4 ≤ MemoryMap.textLimit.toNat)
    (high : MemoryMap.textBase ≤ p.entry) (low : p.entry < MemoryMap.textLimit)
    (settings : Settings) (tree : FileTree) (args : List String) :
    p.Leads p.entry (launch p settings tree args).tick.1 := by
  have running := running_launch p settings tree args
  have pc := pc_launch p settings tree args
  obtain ⟨same, -⟩ := launch_fresh p settings tree args
  generalize launch p settings tree args = r at running pc same
  rw [← same] at ends
  rw [← pc] at high low
  have leads := leads_tick running ends high low
  rwa [same, pc] at leads

end Run

theorem entryPoint_false (symbols : SymbolTable) :
    Assembler.entryPoint false symbols = MemoryMap.textBase := by
  unfold Assembler.entryPoint
  split <;> rfl

/-- A program starts at the base of the text segment unless it is to start at a label. The text lies
where the lines put it, so there need not be an instruction, but there is one if the first has not
been put anywhere else; and the first tick finds out which. -/
theorem assembleLines_entry (settings : Settings) (lines : List SourceLine) (names : PathNames)
    (assembled : Assembled) (plain : settings.startAtMain = false)
    (done : assembleLines settings lines names = .ok assembled) :
    assembled.program.entry = MemoryMap.textBase ∧
      (∀ a : Word, a ∈ assembled.program.text ↔ ∃ q ∈ placements lines, q.Spans a) ∧
      (∀ before line after, lines = before ++ line :: after → line.isInstruction = true →
        (∀ other ∈ before, other.isInstruction = false) →
        originAfter .text before = MemoryMap.textBase →
          assembled.program.entry ∈ assembled.program.text) ∧
      ∀ tree args, assembled.program.Leads assembled.program.entry
        (Run.launch assembled.program settings tree args).tick.1 := by
  obtain ⟨l, placed, done⟩ := except_bind_ok done
  obtain ⟨p, bound, done⟩ := except_bind_ok done
  cases done
  have lies := placedBy_of_bind placed bound
  have entry : p.entry = MemoryMap.textBase := by
    obtain ⟨is, -, bound⟩ := except_bind_ok bound
    obtain ⟨data, -, bound⟩ := except_bind_ok bound
    cases bound
    rw [plain]
    exact entryPoint_false _
  refine ⟨entry, lies.text, ?_, ?_⟩
  · rintro before line after rfl here none base
    have member := placement_mem_placements after none here
    rw [base] at member
    refine (lies.text _).mpr ⟨_, member, 0, lies.filled _ member, ?_⟩
    rw [entry]
    rfl
  · intro tree args
    refine Run.leads_launch lies.ends ?_ ?_ settings tree args
    all_goals
      rw [entry]
      decide

/-- The first instruction is behind the base for as long as the text segment is not put back. -/
def putBackSample : List SourceLine :=
  let texts := [".text 0x00400100", ".data", ".word 7", ".text 0x00400000", "li $t0, 65536", "nop"]
  texts.zipIdx.map fun (text, n) => ⟨text.toList, ⟨"sample", n + 1⟩⟩

theorem assembleLines_entry_putBackSample : ∃ assembled,
    assembleLines {} putBackSample (.new [] fun _ => none) = .ok assembled ∧
      assembled.program.entry ∈ assembled.program.text ∧
      (Run.launch assembled.program {} ⟨[], []⟩ []).tick.1 ≠ .ok .finished := by
  have assembles : (assembleLines {} putBackSample (.new [] fun _ => none)).map (fun _ => ()) =
      .ok () := by decide +kernel
  obtain ⟨assembled, done, -⟩ := except_map_ok assembles
  obtain ⟨-, -, first, leads⟩ := assembleLines_entry {} putBackSample _ assembled rfl done
  have there := first (putBackSample.take 4) putBackSample[4] (putBackSample.drop 5)
    (by decide +kernel) (by decide +kernel) (by decide +kernel) (by decide +kernel)
  exact ⟨assembled, done, there, ((leads ⟨[], []⟩ []).on there).1⟩

def putAwaySample : List SourceLine :=
  let texts := [".text 0x00400100", "nop"]
  texts.zipIdx.map fun (text, n) => ⟨text.toList, ⟨"sample", n + 1⟩⟩

theorem tick_putAwaySample : ∃ assembled,
    assembleLines {} putAwaySample (.new [] fun _ => none) = .ok assembled ∧
      assembled.program.text.keys = [0x00400100] ∧
      assembled.program.entry ∉ assembled.program.text ∧
      (Run.launch assembled.program {} ⟨[], []⟩ []).tick.1 =
        .error ⟨0x00400000, none, .invalidProgramCounter 0x00400000⟩ := by
  have read : (assembleLines {} putAwaySample (.new [] fun _ => none)).map (fun assembled =>
      (assembled.program.text.keys, assembled.program.entry)) =
      .ok ([0x00400100], 0x00400000) := by decide +kernel
  obtain ⟨assembled, done, found⟩ := except_map_ok read
  obtain ⟨keys, entry⟩ := Prod.ext_iff.mp found
  dsimp only at keys entry
  have text (a : Word) : a ∈ assembled.program.text ↔ a = 0x00400100 := by
    rw [← ExtTreeMap.mem_keys, keys, List.mem_singleton]
  have missing : assembled.program.entry ∉ assembled.program.text := by
    rw [text, entry]
    decide
  have leads : assembled.program.Leads assembled.program.entry
      (Run.launch assembled.program {} ⟨[], []⟩ []).tick.1 := by
    refine Run.leads_launch (fun a member => ?_) ?_ ?_ _ _ _
    · rw [(text a).mp member]
      decide
    all_goals
      rw [entry]
      decide
  have behind : ∃ a ∈ assembled.program.text, assembled.program.entry.toNat < a.toNat + 4 := by
    refine ⟨_, (text _).mpr rfl, ?_⟩
    rw [entry]
    decide
  have tick := leads.before missing behind
  rw [entry] at tick
  exact ⟨assembled, done, keys, missing, tick⟩

end MipsLab
