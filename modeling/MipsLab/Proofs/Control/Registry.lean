import MipsLab.Proofs.Debug.Coherence

/-! The breakpoints of a controller and those of its run. The controller keeps them as they were
spelled, from one run to the next; a run keeps the lines that the spellings mean. A run is given the
lines of all spellings that are held, and loses a line as soon as it is removed under any spelling,
while the controller still holds the others. -/
namespace MipsLab

/-- The line that is meant by a breakpoint as it was spelled. -/
def PathNames.meant (names : PathNames) (spelled : SourceTag) : SourceTag :=
  ⟨names.normalize spelled.file, spelled.line⟩

namespace Debugger

variable {d : Debugger} {spelled tag : SourceTag}

theorem mem_addBreakpoint : tag ∈ (d.addBreakpoint spelled.file spelled.line).2.2.breakpoints ↔
    d.names.meant spelled = tag ∨ tag ∈ d.breakpoints := by
  have same : d.breakpoint spelled.file spelled.line = d.names.meant spelled := rfl
  rw [addBreakpoint, same]
  split
  · next held =>
    have member : d.names.meant spelled ∈ d.breakpoints := by simpa using held
    constructor
    · exact .inr
    · rintro (rfl | old)
      · exact member
      · exact old
  · exact List.mem_cons.trans (or_congr_left eq_comm)

theorem mem_removeBreakpoint : tag ∈ (d.removeBreakpoint spelled.file spelled.line).2.breakpoints ↔
    tag ∈ d.breakpoints ∧ d.names.meant spelled ≠ tag := by
  have same : d.breakpoint spelled.file spelled.line = d.names.meant spelled := rfl
  simp only [removeBreakpoint, same, List.mem_filter, decide_eq_true_eq, ne_comm]

theorem names_addBreakpoint (file : String) (line : Nat) :
    (d.addBreakpoint file line).2.2.names = d.names := by
  rw [addBreakpoint]
  split <;> rfl

/-- The debugger with all of these breakpoints set, as a run is given them when it is installed. -/
def addAll (d : Debugger) (held : List SourceTag) : Debugger :=
  held.foldl (fun d s => (d.addBreakpoint s.file s.line).2.2) d

theorem names_addAll (held : List SourceTag) (d : Debugger) : (d.addAll held).names = d.names := by
  induction held generalizing d with
  | nil => rfl
  | cons s held ih => exact (ih _).trans (names_addBreakpoint s.file s.line)

theorem mem_addAll (held : List SourceTag) (d : Debugger) : tag ∈ (d.addAll held).breakpoints ↔
    (∃ s ∈ held, d.names.meant s = tag) ∨ tag ∈ d.breakpoints := by
  induction held generalizing d with
  | nil => simp [addAll]
  | cons s held ih =>
    have later := ih (d.addBreakpoint s.file s.line).2.2
    rw [names_addBreakpoint, mem_addBreakpoint] at later
    refine later.trans ?_
    rw [List.exists_mem_cons_iff, or_left_comm, or_assoc]

theorem Unswitched.addAll (unswitched : d.Unswitched) (held : List SourceTag) :
    (d.addAll held).Unswitched := by
  induction held generalizing d with
  | nil => exact unswitched
  | cons s held ih =>
    have told : (d.move (.setBreakpoint s.file s.line)).Unswitched := unswitched.move (by simp)
    exact ih told

end Debugger

namespace Controller

/-- What is done with a controller. -/
inductive Action where
  | start (fuel : Nat) (program : Program)
  | startPaused (fuel : Nat) (program : Program)
  | stop (fuel : Nat)
  | send (command : WorkerCommand)
  | settle (fuel : Nat)
  | drain
  | setBreakpoint (spelled : SourceTag)
  | removeBreakpoint (spelled : SourceTag)

def act (c : Controller) : Action → Controller
  | .start fuel program => c.start fuel program
  | .startPaused fuel program => c.startPaused fuel program
  | .stop fuel => (c.stop fuel).2
  | .send command => (c.send command).2
  | .settle fuel => c.settle fuel
  | .drain => c.drain.2
  | .setBreakpoint spelled => (c.addBreakpoint spelled.file spelled.line).2
  | .removeBreakpoint spelled => (c.removeBreakpoint spelled.file spelled.line).2

def actAll (c : Controller) (actions : List Action) : Controller := actions.foldl act c

namespace Action

@[simp]
def Installs (program : Program) : Action → Prop
  | .start _ p | .startPaused _ p => p = program
  | _ => False

/-- The run that was installed is gone. -/
@[simp]
def Replaces : Action → Prop
  | .start _ _ | .startPaused _ _ | .stop _ => True
  | _ => False

@[simp]
def Sets (p : SourceTag → Prop) : Action → Prop
  | .setBreakpoint spelled => p spelled
  | _ => False

@[simp]
def Removes (p : SourceTag → Prop) : Action → Prop
  | .removeBreakpoint spelled => p spelled
  | _ => False

end Action

/-- A line was removed, under whatever spelling, and has not been set again. -/
def Struck (names : PathNames) (since : List Action) (tag : SourceTag) : Prop :=
  Last (Action.Removes (names.meant · = tag)) (Action.Sets (names.meant · = tag)) since

/-- What a debugger keeps of the spellings that are held, when these actions have happened since its
run was installed. -/
structure Registers (names : PathNames) (held : List SourceTag) (since : List Action)
    (d : Debugger) : Prop where
  known : d.names = names
  breakpoints : ∀ tag, tag ∈ d.breakpoints ↔
    (∃ s ∈ held, names.meant s = tag) ∧ ¬ Struck names since tag

variable {c : Controller} {names : PathNames} {held : List SourceTag} {since : List Action}
  {d next : Debugger}

theorem registers_new (held : List SourceTag) (d : Debugger) (fresh : d.breakpoints = []) :
    Registers d.names held [] (d.addAll held) := by
  refine ⟨Debugger.names_addAll held d, fun tag => ?_⟩
  rw [Debugger.mem_addAll, fresh]
  simp [Struck, not_last_nil]

namespace Registers

theorem advance (registers : Registers names held since d) (advances : d.Advances next)
    {x : Action} (sets : ∀ p, ¬ x.Sets p) (removes : ∀ p, ¬ x.Removes p) :
    Registers names held (since ++ [x]) next := by
  obtain ⟨-, breakpoints, same⟩ := advances.keeps
  refine ⟨same.trans registers.known, fun tag => ?_⟩
  rw [breakpoints, registers.breakpoints, Struck, Struck, last_concat,
    or_iff_right (removes _), and_iff_left (sets _)]

theorem set (registers : Registers names held since d) (spelled : SourceTag) {all : List SourceTag}
    (grown : ∀ s, s ∈ all ↔ s = spelled ∨ s ∈ held) :
    Registers names all (since ++ [.setBreakpoint spelled])
      (d.addBreakpoint spelled.file spelled.line).2.2 := by
  refine ⟨(Debugger.names_addBreakpoint _ _).trans registers.known, fun tag => ?_⟩
  have meant : (∃ s ∈ all, names.meant s = tag) ↔
      names.meant spelled = tag ∨ ∃ s ∈ held, names.meant s = tag := by
    simp [grown, or_and_right, exists_or]
  rw [Debugger.mem_addBreakpoint, registers.breakpoints, registers.known, meant, Struck, Struck,
    last_concat]
  simp only [Action.Removes, Action.Sets, false_or]
  by_cases same : names.meant spelled = tag
  · simp only [same, true_or, not_true_eq_false, and_false, not_false_eq_true, and_true]
  · simp only [same, false_or, not_false_eq_true, and_true]

theorem remove (registers : Registers names held since d) (spelled : SourceTag)
    {rest : List SourceTag} (shrunk : ∀ s, s ∈ rest ↔ s ∈ held ∧ s ≠ spelled) :
    Registers names rest (since ++ [.removeBreakpoint spelled])
      (d.removeBreakpoint spelled.file spelled.line).2 := by
  refine ⟨registers.known, fun tag => ?_⟩
  rw [Debugger.mem_removeBreakpoint, registers.breakpoints, registers.known, Struck, Struck,
    last_concat]
  simp only [Action.Removes, Action.Sets, not_false_eq_true, and_true, shrunk]
  constructor
  · rintro ⟨⟨⟨s, member, rfl⟩, kept⟩, other⟩
    refine ⟨⟨s, ⟨member, fun same => other (same ▸ rfl)⟩, rfl⟩, ?_⟩
    exact not_or.mpr ⟨other, kept⟩
  · rintro ⟨⟨s, ⟨member, -⟩, rfl⟩, kept⟩
    obtain ⟨other, before⟩ := not_or.mp kept
    exact ⟨⟨⟨s, member, rfl⟩, before⟩, other⟩

end Registers

/-- The controller goes on without a change of breakpoints, and without another run. -/
structure Follows (c next : Controller) : Prop where
  settings : next.settings = c.settings
  breakpoints : next.breakpoints = c.breakpoints
  active : ∀ a, next.active = some a → ∃ b, c.active = some b ∧
    b.worker.run.debugger.Advances a.worker.run.debugger

theorem Follows.refl (c : Controller) : c.Follows c :=
  ⟨rfl, rfl, fun a installed => ⟨a, installed, .refl _⟩⟩

theorem follows_send (c : Controller) (command : WorkerCommand) :
    c.Follows (c.send command).2 := by
  unfold send
  split
  · exact .refl c
  · next a installed =>
    split
    · exact .refl c
    · refine ⟨rfl, rfl, fun b sent => ?_⟩
      obtain rfl := Option.some.inj sent
      exact ⟨a, installed, .refl _⟩

theorem follows_settle (c : Controller) (fuel : Nat) : c.Follows (c.settle fuel) := by
  unfold settle
  split
  · exact .refl c
  · next a installed =>
    refine ⟨rfl, rfl, fun b settled => ?_⟩
    obtain rfl := Option.some.inj settled
    have goes := (⟨a.worker, a.queue, false⟩ : Exchange).goes_history (List.replicate fuel .moved)
    rw [← Worker.exchange_settle] at goes
    exact ⟨a, installed, goes.advances⟩

theorem follows_drain (c : Controller) : c.Follows c.drain.2 := by
  unfold drain
  split
  · exact .refl c
  · next a installed =>
    refine ⟨rfl, rfl, fun b drained => ?_⟩
    obtain rfl := Option.some.inj drained
    exact ⟨a, installed, .refl _⟩

theorem follows_stop (c : Controller) (fuel : Nat) :
    c.Follows (c.stop fuel).2 ∧ (c.stop fuel).2.active = none := by
  have sent := follows_send c .stop
  have settled := follows_settle (c.send .stop).2 fuel
  have settings := settled.settings.trans sent.settings
  have breakpoints := settled.breakpoints.trans sent.breakpoints
  have follows {x : Controller} (settings : x.settings = c.settings)
      (breakpoints : x.breakpoints = c.breakpoints) (idle : x.active = none) :
      c.Follows x ∧ x.active = none := by
    refine ⟨⟨settings, breakpoints, fun a installed => ?_⟩, idle⟩
    rw [idle] at installed
    cases installed
  unfold stop
  dsimp only
  split
  · next idle => exact follows settings breakpoints idle
  · exact follows settings breakpoints rfl

/-- What a controller keeps after these actions: the spellings that it holds, and the debugger of
the run that is installed. -/
structure Keeps (c : Controller) (actions : List Action) : Prop where
  debug : c.settings.debug = true
  held : ∀ spelled, spelled ∈ c.breakpoints ↔
    Last (Action.Sets (· = spelled)) (Action.Removes (· = spelled)) actions
  run : ∀ a, c.active = some a → a.worker.run.debugger.Unswitched ∧
    ∃ before install program since, actions = before ++ install :: since ∧
      Action.Installs program install ∧ (∀ x ∈ since, ¬ x.Replaces) ∧
      Registers program.names c.breakpoints since a.worker.run.debugger

namespace Keeps

variable {actions : List Action}

theorem held_idle (keeps : c.Keeps actions) {x : Action} (sets : ∀ p, ¬ x.Sets p)
    (removes : ∀ p, ¬ x.Removes p) (spelled : SourceTag) : spelled ∈ c.breakpoints ↔
      Last (Action.Sets (· = spelled)) (Action.Removes (· = spelled)) (actions ++ [x]) := by
  rw [keeps.held, last_concat, or_iff_right (sets _), and_iff_left (removes _)]

theorem follow (keeps : c.Keeps actions) {next : Controller} (follows : c.Follows next) {x : Action}
    (replaces : ¬ x.Replaces) (sets : ∀ p, ¬ x.Sets p) (removes : ∀ p, ¬ x.Removes p) :
    next.Keeps (actions ++ [x]) := by
  refine ⟨follows.settings ▸ keeps.debug, ?_, fun a installed => ?_⟩
  · rw [follows.breakpoints]
    exact keeps.held_idle sets removes
  · obtain ⟨b, before, advances⟩ := follows.active a installed
    obtain ⟨unswitched, front, install, program, since, rfl, installs, calm, registers⟩ :=
      keeps.run b before
    refine ⟨unswitched.advance advances, front, install, program, since ++ [x], by simp, installs,
      ?_, ?_⟩
    · exact List.forall_mem_append.mpr ⟨calm, by simpa using replaces⟩
    · rw [follows.breakpoints]
      exact registers.advance advances sets removes

theorem install (keeps : c.Keeps actions) (fuel : Nat) (program : Program) (prepare : Run → Run)
    (prepared : ∀ r : Run, r.debugger.Advances (prepare r).debugger) (x : Action)
    (installs : x.Installs program) (sets : ∀ p, ¬ x.Sets p) (removes : ∀ p, ¬ x.Removes p) :
    (c.install fuel program prepare).Keeps (actions ++ [x]) := by
  obtain ⟨follows, -⟩ := c.follows_stop fuel
  have held : (c.install fuel program prepare).breakpoints = c.breakpoints := follows.breakpoints
  have debug : (c.stop fuel).2.settings.debug = true := follows.settings ▸ keeps.debug
  refine ⟨debug, ?_, fun a installed => ?_⟩
  · rw [held]
    exact keeps.held_idle sets removes
  · obtain rfl := Option.some.inj installed
    let fresh : Run := .start program (c.stop fuel).2.settings (c.stop fuel).2.tree
    have unswitched : fresh.debugger.Unswitched := by
      change (Debugger.new (c.stop fuel).2.settings.debug program.names).Unswitched
      rw [debug]
      exact Debugger.unswitched_new program.names
    obtain ⟨-, none, names⟩ := (prepared fresh).keeps
    have registers := registers_new (c.stop fuel).2.breakpoints _ none
    rw [names] at registers
    exact ⟨(unswitched.advance (prepared fresh)).addAll _, actions, x, program, [], rfl, installs,
      by simp, registers⟩

/-- A breakpoint of the controller and of its run is changed, by one move of the debugger. -/
theorem edit (keeps : c.Keeps actions) (next : Controller) (m : Debugger.Move)
    (settings : next.settings = c.settings)
    (active : next.active = (c.withDebugger (·.move m)).active) (other : ∀ on, m ≠ .enable on)
    {x : Action} (replaces : ¬ x.Replaces)
    (held : ∀ spelled, spelled ∈ next.breakpoints ↔
      Last (Action.Sets (· = spelled)) (Action.Removes (· = spelled)) (actions ++ [x]))
    (registers : ∀ names since d, Registers names c.breakpoints since d →
      Registers names next.breakpoints (since ++ [x]) (d.move m)) :
    next.Keeps (actions ++ [x]) := by
  refine ⟨settings ▸ keeps.debug, held, fun a installed => ?_⟩
  rw [active] at installed
  obtain ⟨b, before, rfl⟩ := Option.map_eq_some_iff.mp installed
  obtain ⟨unswitched, front, install, program, since, rfl, installs, calm, kept⟩ :=
    keeps.run b before
  refine ⟨unswitched.move other, front, install, program, since ++ [x], by simp, installs, ?_,
    registers _ _ _ kept⟩
  exact List.forall_mem_append.mpr ⟨calm, by simpa using replaces⟩

theorem set (keeps : c.Keeps actions) (spelled : SourceTag) :
    (c.addBreakpoint spelled.file spelled.line).2.Keeps (actions ++ [.setBreakpoint spelled]) := by
  let m : Debugger.Move := .setBreakpoint spelled.file spelled.line
  let next := (c.addBreakpoint spelled.file spelled.line).2
  have added : next.settings = c.settings ∧ next.active = (c.withDebugger (·.move m)).active ∧
      ∀ s, s ∈ next.breakpoints ↔ s = spelled ∨ s ∈ c.breakpoints := by
    unfold next addBreakpoint
    dsimp only
    split
    · next held =>
      have member : spelled ∈ c.breakpoints := by simpa [withDebugger] using held
      refine ⟨rfl, rfl, fun s => ⟨.inr, ?_⟩⟩
      rintro (rfl | old)
      · exact member
      · exact old
    · exact ⟨rfl, rfl, fun s => List.mem_cons⟩
  obtain ⟨settings, active, grown⟩ := added
  refine keeps.edit next m settings active (by simp [m]) (by simp) (fun s => ?_)
    fun names since d registers => registers.set spelled grown
  rw [grown, keeps.held, last_concat]
  simp [eq_comm]

theorem remove (keeps : c.Keeps actions) (spelled : SourceTag) :
    (c.removeBreakpoint spelled.file spelled.line).2.Keeps
      (actions ++ [.removeBreakpoint spelled]) := by
  let m : Debugger.Move := .removeBreakpoint spelled.file spelled.line
  let next := (c.removeBreakpoint spelled.file spelled.line).2
  have shrunk (s : SourceTag) : s ∈ next.breakpoints ↔ s ∈ c.breakpoints ∧ s ≠ spelled := by
    refine List.mem_filter.trans (and_congr_right fun _ => ?_)
    exact decide_eq_true_iff
  refine keeps.edit next m rfl rfl (by simp [m]) (by simp) (fun s => ?_)
    fun names since d registers => registers.remove spelled shrunk
  rw [shrunk, keeps.held, last_concat]
  simp [eq_comm]

theorem act (keeps : c.Keeps actions) (x : Action) : (c.act x).Keeps (actions ++ [x]) := by
  cases x with
  | start fuel program =>
    exact keeps.install fuel program (fun r => { r with debugger := r.debugger.resume .continue })
      (fun r => Debugger.advances_move r.debugger (m := .resume .continue) trivial)
      (.start fuel program) rfl (by simp) (by simp)
  | startPaused fuel program =>
    exact keeps.install fuel program id (fun r => .refl r.debugger) (.startPaused fuel program) rfl
      (by simp) (by simp)
  | send command => exact keeps.follow (follows_send c command) (by simp) (by simp) (by simp)
  | settle fuel => exact keeps.follow (follows_settle c fuel) (by simp) (by simp) (by simp)
  | drain => exact keeps.follow (follows_drain c) (by simp) (by simp) (by simp)
  | stop fuel =>
    obtain ⟨follows, idle⟩ := c.follows_stop fuel
    refine ⟨follows.settings ▸ keeps.debug, ?_, fun a installed => ?_⟩
    · rw [Controller.act, follows.breakpoints]
      exact keeps.held_idle (by simp) (by simp)
    · rw [Controller.act, idle] at installed
      cases installed
  | setBreakpoint spelled => exact keeps.set spelled
  | removeBreakpoint spelled => exact keeps.remove spelled

theorem all (actions : List Action) (settings : Settings) (tree : FileTree) :
    ((new settings tree).actAll actions).Keeps actions := by
  induction actions using List.reverseRecOn with
  | nil => exact ⟨rfl, by simp [actAll, new, not_last_nil], by simp [actAll, new]⟩
  | append_singleton actions x ih =>
    rw [actAll, List.foldl_concat]
    exact ih.act x

end Keeps

/-- In a controlled run the state of the debugger always agrees with its switch and with the mark of
a continuation. -/
theorem coherent_run (settings : Settings) (tree : FileTree) (actions : List Action) {r : Run}
    (installed : ((new settings tree).actAll actions).run? = some r) : r.debugger.Coherent := by
  obtain ⟨a, active, rfl⟩ := Option.map_eq_some_iff.mp installed
  exact ((Keeps.all actions settings tree).run a active).1.coherent

/-- The breakpoints of the run that is installed are the lines of the spellings that the controller
holds, but for those lines that were removed under some spelling since the run was installed, and
not set again. So they are the lines of all spellings that are held exactly if no such line is held
under another spelling; if one is, a run that is installed later has the breakpoint again. -/
theorem run_breakpoints (settings : Settings) (tree : FileTree) (actions : List Action)
    (a : ControlledRun) (installed : ((new settings tree).actAll actions).active = some a) :
    let held := ((new settings tree).actAll actions).breakpoints
    let breakpoints := a.worker.run.debugger.breakpoints
    (∀ spelled, spelled ∈ held ↔
      Last (Action.Sets (· = spelled)) (Action.Removes (· = spelled)) actions) ∧
    ∃ before install program since, actions = before ++ install :: since ∧
      Action.Installs program install ∧ (∀ x ∈ since, ¬ x.Replaces) ∧
      a.worker.run.debugger.names = program.names ∧
      (∀ tag, tag ∈ breakpoints ↔
        (∃ s ∈ held, program.names.meant s = tag) ∧ ¬ Struck program.names since tag) ∧
      ((∀ tag, tag ∈ breakpoints ↔ ∃ s ∈ held, program.names.meant s = tag) ↔
        ∀ s ∈ held, ¬ Struck program.names since (program.names.meant s)) := by
  have keeps := Keeps.all actions settings tree
  obtain ⟨-, before, install, program, since, split, installs, calm, registers⟩ :=
    keeps.run a installed
  refine ⟨keeps.held, before, install, program, since, split, installs, calm, registers.known,
    registers.breakpoints, ?_⟩
  simp only [registers.breakpoints, and_iff_left_iff_imp]
  constructor
  · intro all s member
    exact all _ ⟨s, member, rfl⟩
  · rintro clear _ ⟨s, member, rfl⟩
    exact clear s member

/-- A program of one file, which has no instructions. -/
def blankProgram : Program :=
  { text := ∅, data := ∅, symbols := ∅, declarations := [], instructions := []
    names := ((PathNames.new ["p"] fun _ => none).insert ["p", "main.asm"]).2
    linked := [], entry := MemoryMap.textBase }

/-- A breakpoint is set, and removed under another spelling. -/
def respelled : List Action :=
  [.startPaused 0 blankProgram, .setBreakpoint ⟨"main.asm", 2⟩, .removeBreakpoint ⟨"./main.asm", 2⟩]

theorem run_breakpoints_respelled :
    ∃ a, ((new {} ⟨[], []⟩).actAll respelled).active = some a ∧
      ∃ before install program since, respelled = before ++ install :: since ∧
        Action.Installs program install ∧ (∀ x ∈ since, ¬ x.Replaces) ∧
        ∀ tag, tag ∈ a.worker.run.debugger.breakpoints ↔
          (∃ s ∈ [(⟨"main.asm", 2⟩ : SourceTag)], program.names.meant s = tag) ∧
            ¬ Struck program.names since tag := by
  have held : ((new {} ⟨[], []⟩).actAll respelled).breakpoints = [⟨"main.asm", 2⟩] := by
    decide +kernel
  obtain ⟨-, before, install, program, since, split, installs, calm, -, breakpoints, -⟩ :=
    run_breakpoints {} ⟨[], []⟩ respelled _ rfl
  rw [held] at breakpoints
  exact ⟨_, rfl, before, install, program, since, split, installs, calm, breakpoints⟩

/-- The run has no breakpoint any more, but the controller still holds one that means the line, and
gives it to the next run. -/
theorem run_breakpoints_stale :
    let c := (new {} ⟨[], []⟩).actAll respelled
    let next := c.act (.start 0 blankProgram)
    c.breakpoints.map blankProgram.names.meant = [⟨"main.asm", 2⟩] ∧
      c.run?.map (·.debugger.breakpoints) = some [] ∧
      next.run?.map (·.debugger.breakpoints) = some [⟨"main.asm", 2⟩] := by
  decide +kernel

end Controller

end MipsLab
