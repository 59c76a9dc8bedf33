import MipsLab.Proofs.Run.Services

/-! The ways in which a tick can end. Every fact about single ticks is a case analysis over these;
none of them opens the instruction that was executed. -/
namespace MipsLab

open Exec

namespace Debugger

variable {d next : Debugger} {entry : TextEntry}

/-- Asked before an entry, the debugger lets the run pass and stays as it is, or it has met a
breakpoint, or there is no continuation under way. -/
theorem shouldBreak_cases (d : Debugger) (entry : TextEntry) :
    d.shouldBreak entry = (false, d) ∨
      (entry.first = true ∧ entry.tag ∈ d.breakpoints ∧
        d.shouldBreak entry = (true, { d with state := .paused, continuing := false })) ∨
      (¬ (entry.first = true ∧ entry.tag ∈ d.breakpoints) ∧ d.continuing = false ∧
        d.shouldBreak entry = (true, { d with state := .stepping })) := by
  unfold shouldBreak
  split
  · exact .inl rfl
  · split
    · next met =>
      simp only [Bool.and_eq_true, List.contains_iff_mem] at met
      exact .inr (.inl ⟨met.1, met.2, rfl⟩)
    · next other =>
      simp only [Bool.and_eq_true, List.contains_iff_mem] at other
      split
      · exact .inl rfl
      · next still => exact .inr (.inr ⟨other, by simpa using still, rfl⟩)

theorem shouldBreak_pass (passed : d.shouldBreak entry = (false, next)) : next = d := by
  rcases d.shouldBreak_cases entry with passes | ⟨-, -, pauses⟩ | ⟨-, -, pauses⟩
  · exact (Prod.mk.inj (passed.symm.trans passes)).2
  · cases passed.symm.trans pauses
  · cases passed.symm.trans pauses

theorem shouldBreak_hit (hit : d.shouldBreak entry = (true, next)) :
    ∃ state continuing, next = { d with state, continuing } := by
  rcases d.shouldBreak_cases entry with passes | ⟨-, -, pauses⟩ | ⟨-, -, pauses⟩
  · cases hit.symm.trans passes
  · exact ⟨_, _, (Prod.mk.inj (hit.symm.trans pauses)).2⟩
  · exact ⟨_, _, (Prod.mk.inj (hit.symm.trans pauses)).2⟩

end Debugger

namespace Run

/-- Taking over a station changes what has been printed and reported, besides what the station
holds. -/
theorem absorb_eq (r : Run) (s : Station) : ∃ console events,
    r.absorb s = { r with machine := s.machine, channels := s.channels, console, events } := by
  unfold absorb
  generalize s.printed = texts
  induction texts generalizing r with
  | nil => exact ⟨_, _, rfl⟩
  | cons text rest ih => exact ih (r.print text)

theorem absorb_station (r : Run) : r.absorb r.station = r := rfl

theorem absorb_refused {r : Run} {s : Station} (refused : r.station.Refused s) :
    r.absorb s = { r with channels := s.channels } := by
  simp only [absorb, refused.machine, refused.printed, station, List.foldl_nil]

/-- How a tick ends, with what result and in which state. -/
inductive Ticks (r : Run) : TickResult → Run → Prop
  | finished : Ticks r (.ok .finished) (r.finish true)
  | paused (running : r.ended = false) (entry : TextEntry) (d : Debugger)
      (hit : r.debugger.shouldBreak entry = (true, d)) :
      Ticks r (.ok .paused) ({ r with debugger := d, skipCheck := true }.emit (.paused r.pc))
  | failed (running : r.ended = false) (channels : Channels) (fault : Fault) :
      Ticks r ({ r with channels }.fail r.pc fault).1 ({ r with channels }.fail r.pc fault).2
  | awaiting (running : r.ended = false) : Ticks r (.ok .awaiting) r
  /-- An instruction was executed; its record leads back. -/
  | executed (running : r.ended = false) (entry : TextEntry) (change : Change) (s : Station)
      (control : Control) (found : r.entry? = some entry) (pc : change.pc = r.pc)
      (undone : change.prior.restore s.machine = r.machine) :
      Ticks r (.ok (((r.absorb s).complete entry.instr change).follow r.pc control).1)
        (((r.absorb s).complete entry.instr change).follow r.pc control).2

theorem ticks_executeEntry {r : Run} {entry : TextEntry} (running : r.ended = false)
    (found : r.entry? = some entry) :
    r.Ticks (r.executeEntry r.pc entry).1 (r.executeEntry r.pc entry).2 := by
  unfold executeEntry Change.capture
  cases taken : Prior.of r.machine entry.instr with
  | error f => exact .failed running r.channels f
  | ok p =>
    have kept : (react r.pc entry.instr).Meets r.station (r.station.Served p) r.station.Refused :=
      meets_react taken
    simp only [Except.map]
    split
    · next f s ran =>
      rw [absorb_refused (kept.of_error ran)]
      exact .failed running s.channels f
    · next s ran =>
      rw [(kept.of_ok ran).waits rfl, absorb_station]
      exact .awaiting running
    · next control s _ ran =>
      exact .executed running entry ⟨r.pc, p⟩ s control found rfl (kept.of_ok ran).undone

/-- What the debugger says before an entry. Where it lets the run pass, it is left as it was. -/
theorem asked_cases {r : Run} {entry : TextEntry} {pause : Bool} {d : Debugger}
    (asked : (if r.skipCheck then (false, r.debugger) else r.debugger.shouldBreak entry) =
      (pause, d)) :
    (pause = true ∧ r.debugger.shouldBreak entry = (true, d)) ∨
      (pause = false ∧ d = r.debugger) := by
  split at asked
  · obtain ⟨rfl, rfl⟩ := Prod.mk.inj asked
    exact .inr ⟨rfl, rfl⟩
  · cases pause with
    | true => exact .inl ⟨rfl, asked⟩
    | false => exact .inr ⟨rfl, Debugger.shouldBreak_pass asked⟩

theorem ticks_tick (r : Run) : r.Ticks r.tick.1 r.tick.2 := by
  unfold tick
  split
  · next ended =>
    have stays : r.Ticks (.ok .finished) (r.finish true) := .finished
    rwa [show r.finish true = r from if_pos ended] at stays
  · next running =>
    rw [Bool.not_eq_true] at running
    split
    · exact .finished
    · split
      · exact .failed running r.channels _
      · next entry found =>
        dsimp only
        generalize asked : (if r.skipCheck = true then (false, r.debugger)
          else r.debugger.shouldBreak entry) = answer
        obtain ⟨pause, d⟩ := answer
        obtain ⟨rfl, hit⟩ | ⟨rfl, rfl⟩ := asked_cases asked
        · exact .paused running entry d hit
        · rw [if_neg Bool.false_ne_true]
          split
          · exact .failed running r.channels _
          · exact ticks_executeEntry running found

theorem finish_running (r : Run) (running : r.ended = false) (success : Bool) :
    r.finish success = { r with
      ended := true, channels := { r.channels with files := r.channels.files.closeAll },
      events := .ended success :: r.events } := by
  rw [finish, running, if_neg Bool.false_ne_true]
  rfl

/-- A tick that does not execute an instruction leaves the machine, the console, the breakpoints,
the undo log and the counts alone. Waiting changes nothing at all. A pause moves only the debugger
between its states, and says so. A fault ends the run, and the fault and the end are all that is
reported. -/
theorem tick_without_execution (r : Run) :
    match r.tick with
    | (.ok .awaiting, next) => next = r
    | (.ok .paused, next) => ∃ state continuing, next = { r with
        debugger := { r.debugger with state, continuing }, skipCheck := true,
        events := .paused r.pc :: r.events }
    | (.ok .finished, next) => next = r.finish true
    | (.error e, next) => e.pc = r.pc ∧ ∃ channels, next = { r with
        channels, ended := true, events := .ended false :: .error e :: r.events }
    | (.ok .executed, _) | (.ok (.exited _), _) => True := by
  have ways := r.ticks_tick
  generalize r.tick = outcome at ways ⊢
  obtain ⟨result, next⟩ := outcome
  cases ways with
  | finished => rfl
  | paused running entry d hit =>
    obtain ⟨state, continuing, rfl⟩ := Debugger.shouldBreak_hit hit
    exact ⟨state, continuing, rfl⟩
  | failed running channels fault =>
    refine ⟨rfl, { channels with files := channels.files.closeAll }, ?_⟩
    exact finish_running (emit { r with channels } _) running false
  | awaiting running => rfl
  | executed running entry change s control found pc undone =>
    cases control <;> trivial

end Run

end MipsLab
