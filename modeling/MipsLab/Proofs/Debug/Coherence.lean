import MipsLab.Proofs.Debug.Moves

/-! What the state of a debugger says about it. The state, the mark of a continuation and the switch
are changed by different moves, so each of them tells which of its own moves was the last. The state
is at odds with the switch exactly when the last move that decided the state is not of the kind of
the last move of the switch. -/
namespace MipsLab

section Last

variable {α : Type} {p q : α → Prop} {items : List α} {x : α}

/-- One of the items is a `p`, and none behind it is a `q`. -/
def Last (p q : α → Prop) (items : List α) : Prop :=
  ∃ before x after, items = before ++ x :: after ∧ p x ∧ ∀ y ∈ after, ¬ q y

theorem not_last_nil : ¬ Last p q [] := by
  rintro ⟨before, x, after, split, -⟩
  simp at split

theorem last_concat : Last p q (items ++ [x]) ↔ p x ∨ Last p q items ∧ ¬ q x := by
  constructor
  · rintro ⟨before, y, after, split, here, clear⟩
    rcases List.eq_nil_or_concat after with rfl | ⟨front, z, rfl⟩
    · obtain ⟨-, same⟩ := List.append_inj' split rfl
      obtain rfl : x = y := List.head_eq_of_cons_eq same
      exact .inl here
    · rw [List.concat_eq_append] at split clear
      rw [← List.cons_append, ← List.append_assoc] at split
      obtain ⟨rfl, same⟩ := List.append_inj' split rfl
      obtain rfl : x = z := List.head_eq_of_cons_eq same
      obtain ⟨early, other⟩ := List.forall_mem_append.mp clear
      exact .inr ⟨⟨before, y, front, rfl, here, early⟩, other x (List.mem_singleton_self x)⟩
  · rintro (here | ⟨⟨before, y, after, rfl, here, clear⟩, other⟩)
    · exact ⟨items, x, [], rfl, here, by simp⟩
    · refine ⟨before, y, after ++ [x], by simp, here, List.forall_mem_append.mpr ⟨clear, ?_⟩⟩
      simpa using other

theorem Last.exists (last : Last p q items) : ∃ x ∈ items, p x := by
  obtain ⟨before, x, after, rfl, here, -⟩ := last
  exact ⟨x, by simp, here⟩

theorem Last.imp {r : α → Prop} (last : Last p q items) (weaker : ∀ x, r x → q x) :
    Last p r items := by
  obtain ⟨before, x, after, split, here, clear⟩ := last
  exact ⟨before, x, after, split, here, fun y member met => clear y member (weaker y met)⟩

end Last

namespace Debugger

/-- A move, and the debugger as it was before it. -/
structure Turn where
  before : Debugger
  move : Move

def turns : Debugger → List Move → List Turn
  | _, [] => []
  | d, m :: rest => ⟨d, m⟩ :: (d.move m).turns rest

theorem turns_concat (d : Debugger) (moves : List Move) (m : Move) :
    d.turns (moves ++ [m]) = d.turns moves ++ [⟨d.play moves, m⟩] := by
  induction moves generalizing d with
  | nil => rfl
  | cons first moves ih =>
    rw [List.cons_append, turns, ih]
    rfl

theorem mem_moves_of_turn {d : Debugger} {moves : List Move} {t : Turn}
    (member : t ∈ d.turns moves) : t.move ∈ moves := by
  induction moves generalizing d with
  | nil => cases member
  | cons m moves ih =>
    rcases List.mem_cons.mp member with rfl | later
    · exact List.mem_cons_self
    · exact List.mem_cons_of_mem m (ih later)

namespace Turn

@[simp]
def SwitchesOn (t : Turn) : Prop := t.move = .enable true

@[simp]
def SwitchesOff (t : Turn) : Prop := t.move = .enable false

@[simp]
def Resumes (t : Turn) : Prop := ∃ mode, t.move = .resume mode

@[simp]
def Continues (t : Turn) : Prop := t.move = .resume .continue

/-- The debugger is asked, and has the run pause. -/
def Pauses (t : Turn) : Prop :=
  ∃ entry, t.move = .ask entry ∧ (t.before.shouldBreak entry).1 = true

/-- The debugger is asked at the beginning of a line with a breakpoint, and has the run pause. -/
def Meets (t : Turn) : Prop := ∃ entry, t.move = .ask entry ∧
  (t.before.shouldBreak entry).1 = true ∧ entry.first = true ∧ entry.tag ∈ t.before.breakpoints

/-- The state is decided. -/
@[simp]
def Decides (t : Turn) : Prop := t.SwitchesOff ∨ t.Resumes ∨ t.Pauses

/-- A continuation begins or ends. -/
@[simp]
def Directs (t : Turn) : Prop := t.Resumes ∨ t.Meets

variable {d : Debugger} {entry : TextEntry} {m : Move}

@[simp]
theorem pauses_ask : Pauses ⟨d, .ask entry⟩ ↔ (d.shouldBreak entry).1 = true := by
  simp [Pauses]

@[simp]
theorem meets_ask : Meets ⟨d, .ask entry⟩ ↔
    (d.shouldBreak entry).1 = true ∧ entry.first = true ∧ entry.tag ∈ d.breakpoints := by
  simp [Meets]

theorem Directs.decides {t : Turn} (directs : t.Directs) : t.Decides :=
  directs.elim (fun resumes => .inr (.inl resumes))
    fun ⟨entry, asked, pause, _⟩ => .inr (.inr ⟨entry, asked, pause⟩)

theorem unasked (other : ∀ entry, m ≠ .ask entry) : ¬ Pauses ⟨d, m⟩ ∧ ¬ Meets ⟨d, m⟩ := by
  simp [Pauses, Meets, other]

end Turn

/-- What a debugger shows of the turns that led to it. -/
structure Shows (d : Debugger) (past : List Turn) : Prop where
  enabled : d.enabled = false ↔ Last Turn.SwitchesOff Turn.SwitchesOn past
  continuing : d.continuing = true ↔ Last Turn.Continues Turn.Directs past
  running : d.state = .running ↔ Last Turn.SwitchesOff Turn.Decides past
  continues : d.state = .continuing ↔ Last Turn.Continues Turn.Decides past
  paused : d.state = .paused ↔ Last Turn.Meets Turn.Decides past
  /-- A continuation is under way, or was cut off by switching. -/
  marked : d.continuing = true → d.state = .continuing ∨ d.state = .running

variable {d : Debugger} {past : List Turn}

namespace Shows

theorem idle {t : Turn} (shows : d.Shows past) {next : Debugger}
    (same : next.enabled = d.enabled ∧ next.continuing = d.continuing ∧ next.state = d.state)
    (on : ¬ t.SwitchesOn) (decided : ¬ t.Decides) : next.Shows (past ++ [t]) := by
  obtain ⟨enabled, continuing, state⟩ := same
  have off : ¬ t.SwitchesOff := fun same => decided (.inl same)
  have directs : ¬ t.Directs := fun same => decided same.decides
  have continues : ¬ t.Continues := fun same => directs (.inl ⟨_, same⟩)
  have meets : ¬ t.Meets := fun met => directs (.inr met)
  constructor
  · rw [enabled, last_concat, shows.enabled, or_iff_right off, and_iff_left on]
  · rw [continuing, last_concat, shows.continuing, or_iff_right continues, and_iff_left directs]
  · rw [state, last_concat, shows.running, or_iff_right off, and_iff_left decided]
  · rw [state, last_concat, shows.continues, or_iff_right continues, and_iff_left decided]
  · rw [state, last_concat, shows.paused, or_iff_right meets, and_iff_left decided]
  · rw [continuing, state]
    exact shows.marked

theorem ask (shows : d.Shows past) (entry : TextEntry) :
    (d.shouldBreak entry).2.Shows (past ++ [⟨d, .ask entry⟩]) := by
  rcases d.shouldBreak_cases entry with passes | ⟨first, set, pauses⟩ | ⟨other, ends, pauses⟩
  · refine shows.idle ?_ (by simp) (by simp [passes])
    rw [passes]
    exact ⟨rfl, rfl, rfl⟩
  · rw [pauses]
    constructor <;> simp [last_concat, pauses, first, set, shows.enabled]
  · have ended : ¬ Last Turn.Continues Turn.Directs past := by
      rw [← shows.continuing, ends]
      exact Bool.false_ne_true
    rw [pauses]
    constructor <;> simp [last_concat, pauses, other, ends, ended, shows.enabled]

theorem move (shows : d.Shows past) (m : Move) : (d.move m).Shows (past ++ [⟨d, m⟩]) := by
  cases m with
  | ask entry => exact shows.ask entry
  | enable on =>
    have unasked := Turn.unasked (d := d) (m := .enable on) (by simp)
    cases on with
    | false =>
      constructor <;> simp [last_concat, Debugger.move, setEnabled, unasked, shows.continuing]
    | true =>
      constructor
      case marked => exact shows.marked
      all_goals simp [last_concat, Debugger.move, setEnabled, unasked, shows.running,
        shows.continues, shows.paused, shows.continuing]
  | resume mode =>
    have unasked := Turn.unasked (d := d) (m := .resume mode) (by simp)
    cases mode <;> constructor <;>
      simp [last_concat, Debugger.move, Debugger.resume, unasked, shows.enabled]
  | setBreakpoint file line =>
    refine shows.idle ?_ (by simp) (by simp [Turn.unasked])
    rw [Debugger.move, addBreakpoint]
    split <;> exact ⟨rfl, rfl, rfl⟩
  | remember change =>
    refine shows.idle ?_ (by simp) (by simp [Turn.unasked])
    rw [Debugger.move, remember]
    split <;> exact ⟨rfl, rfl, rfl⟩
  | removeBreakpoint | clearBreakpoints | forget =>
    exact shows.idle ⟨rfl, rfl, rfl⟩ (by simp) (by simp [Turn.unasked])

theorem play (shows : d.Shows past) (moves : List Move) :
    (d.play moves).Shows (past ++ d.turns moves) := by
  induction moves using List.reverseRecOn with
  | nil => simpa [turns, Debugger.play] using shows
  | append_singleton moves m ih =>
    rw [play_concat, turns_concat, ← List.append_assoc]
    exact ih.move m

end Shows

/-- The state says that debugging is disabled, or that the run goes on to a breakpoint, exactly when
that is so. -/
def Coherent (d : Debugger) : Prop :=
  (d.state = .running ↔ d.enabled = false) ∧
    (d.state = .continuing ↔ d.enabled = true ∧ d.continuing = true)

instance (d : Debugger) : Decidable d.Coherent := inferInstanceAs (Decidable (_ ∧ _))

/-- What happened to a debugger from its construction on, which is told as the first switch. -/
def history (enabled : Bool) (names : PathNames) (moves : List Move) : List Turn :=
  (new true names).turns (.enable enabled :: moves)

theorem shows_new (names : PathNames) : (new true names).Shows [] := by
  constructor <;> simp [new, not_last_nil]

theorem shows_history (enabled : Bool) (names : PathNames) (moves : List Move) :
    ((new enabled names).play moves).Shows (history enabled names moves) := by
  have shows := (shows_new names).play (.enable enabled :: moves)
  have first : (new true names).move (.enable enabled) = new enabled names := by
    cases enabled <;> rfl
  rw [Debugger.play, List.foldl_cons, first] at shows
  exact shows

/-- A state that agrees with the switch also agrees with the mark of a continuation. -/
theorem Shows.coherent_iff (shows : d.Shows past) : d.Coherent ↔
    (Last Turn.SwitchesOff Turn.SwitchesOn past ↔ Last Turn.SwitchesOff Turn.Decides past) := by
  rw [← shows.enabled, ← shows.running]
  constructor
  · intro coherent
    exact coherent.1.symm
  · intro agree
    refine ⟨agree.symm, fun state => ⟨?_, ?_⟩, fun ⟨on, going⟩ => ?_⟩
    · have other : d.enabled ≠ false := fun off => by
        rw [agree.mp off] at state
        cases state
      simpa using other
    · exact shows.continuing.mpr ((shows.continues.mp state).imp fun _ => Turn.Directs.decides)
    · refine (shows.marked going).resolve_right fun state => ?_
      rw [agree.mpr state] at on
      cases on

/-- A debugger that was constructed enabled, and has been told anything but to switch. -/
def Unswitched (d : Debugger) : Prop :=
  ∃ names, ∃ moves : List Move, (∀ m ∈ moves, ∀ on, m ≠ .enable on) ∧ (new true names).play moves = d

theorem unswitched_new (names : PathNames) : (new true names).Unswitched :=
  ⟨names, [], by simp, rfl⟩

namespace Unswitched

theorem move (unswitched : d.Unswitched) {m : Move} (other : ∀ on, m ≠ .enable on) :
    (d.move m).Unswitched := by
  obtain ⟨names, moves, clear, rfl⟩ := unswitched
  refine ⟨names, moves ++ [m], List.forall_mem_append.mpr ⟨clear, ?_⟩, play_concat _ moves m⟩
  simpa using other

theorem advance (unswitched : d.Unswitched) {next : Debugger} (advances : d.Advances next) :
    next.Unswitched := by
  obtain ⟨moves, own, rfl⟩ := advances
  induction moves generalizing d with
  | nil => exact unswitched
  | cons m moves ih =>
    obtain ⟨here, later⟩ := List.forall_mem_cons.mp own
    refine ih (unswitched.move fun on same => ?_) later
    rw [same] at here
    exact here

theorem coherent (unswitched : d.Unswitched) : d.Coherent := by
  obtain ⟨names, moves, clear, rfl⟩ := unswitched
  have shows := (shows_new names).play moves
  have none {q : Turn → Prop} :
      ¬ Last Turn.SwitchesOff q ([] ++ (new true names).turns moves) := by
    intro last
    obtain ⟨t, member, off⟩ := last.exists
    exact clear t.move (mem_moves_of_turn member) false off
  exact shows.coherent_iff.mpr (iff_of_false none none)

end Unswitched

/-- What the state says is coherent exactly when the last switch was to disabled just in case the
last move that decided the state was; and the state, the mark and the switch are what the last moves
that concern them made of them. In particular a debugger is paused only if it met a breakpoint when
it last had the run pause, and nobody has resumed or disabled it since. -/
theorem state_of_history (enabled : Bool) (names : PathNames) (moves : List Move) :
    let d := (new enabled names).play moves
    let past := history enabled names moves
    (d.Coherent ↔ (Last Turn.SwitchesOff Turn.SwitchesOn past ↔
      Last Turn.SwitchesOff Turn.Decides past)) ∧
    (d.state = .running ↔ Last Turn.SwitchesOff Turn.Decides past) ∧
    (d.state = .continuing ↔ Last Turn.Continues Turn.Decides past) ∧
    (d.state = .paused ↔ Last Turn.Meets Turn.Decides past) ∧
    (d.continuing = true ↔ Last Turn.Continues Turn.Directs past) ∧
    (d.enabled = false ↔ Last Turn.SwitchesOff Turn.SwitchesOn past) := by
  have shows := shows_history enabled names moves
  exact ⟨shows.coherent_iff, shows.running, shows.continues, shows.paused, shows.continuing,
    shows.enabled⟩

/-- A debugger that is enabled late goes on to say that it is disabled; and so does one that was
switched off and on again in the middle of a continuation, which is under way all the same. -/
theorem switched_not_coherent :
    let names := PathNames.new [] fun _ => none
    let late := (new false names).play [.enable true]
    let cut := (new true names).play [.resume .continue, .enable false, .enable true]
    (late.enabled = true ∧ late.continuing = false ∧ late.state = .running ∧ ¬ late.Coherent) ∧
      cut.enabled = true ∧ cut.continuing = true ∧ cut.state = .running ∧ ¬ cut.Coherent := by
  decide

end Debugger

end MipsLab
