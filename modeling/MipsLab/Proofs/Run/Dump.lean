import MipsLab.Proofs.Run.Echo

/-! The service that dumps memory. Its loop counts addresses in 32 bits and might go around the end
of the address space without ever reaching its bound; it does not, since no word up there can be
read. So it ends, either behind the last word below the bound or at the first word that cannot be
read, and only in the first case is anything printed. -/
namespace MipsLab

/-- No word that can be read is the last one of the address space. -/
theorem Memory.readWord_inside {m : Memory} {a w : Word} (read : m.readWord a = .ok w) :
    a.toNat + 4 < 0x100000000 := by
  rw [readWord, read_eq] at read
  split at read
  · split at read
    · next permitted =>
      have mapped := permitted 0 (by decide)
      rw [BitVec.add_zero, MemoryMap.mapped_iff] at mapped
      omega
    · cases read
  · cases read

namespace Syscall

/-- The line that is printed for a word. -/
def wordLine (a w : Word) : String := hexWord a ++ ": " ++ hexWord w ++ "\n"

/-- The loop of the service, from the address that it has got to and the text that it has put
together: at or above `last` it is done; below, it adds a line for the word and goes four bytes
further, around the end of the address space if need be, or it fails with the word. -/
inductive Dumps (m : Memory) (last : Word) : Word → String → Except Fault String → Prop
  | done {a : Word} {text : String} (past : last.toNat ≤ a.toNat) : Dumps m last a text (.ok text)
  | line {a w : Word} {text : String} {outcome : Except Fault String}
      (below : a.toNat < last.toNat) (read : m.readWord a = .ok w)
      (rest : Dumps m last (a + 4) (text ++ wordLine a w) outcome) : Dumps m last a text outcome
  | fault {a : Word} {text : String} {f : Fault} (below : a.toNat < last.toNat)
      (refused : m.readWord a = .error f) : Dumps m last a text (.error f)

/-- The places of `count` words from `a` on. -/
def wordPlaces (a : Word) (count : Nat) : List Word :=
  (List.range count).map fun i => a + BitVec.ofNat 32 (4 * i)

/-- The places of the words from `first` on that begin below `last`. -/
def dumpPlaces (first last : Word) : List Word :=
  wordPlaces first ((last.toNat - first.toNat + 3) / 4)

/-- What the words at some places are dumped as: a line for each of them, or the fault of the first
one that cannot be read. -/
inductive Dumped (m : Memory) (places : List Word) : Except Fault (List String) → Prop
  | shown (words : List Word) (read : List.Forall₂ (fun a w => m.readWord a = .ok w) places words) :
      Dumped m places (.ok (places.zipWith wordLine words))
  | refused (before : List Word) (a : Word) (after : List Word) (f : Fault)
      (split : places = before ++ a :: after) (read : ∀ b ∈ before, ∃ w, m.readWord b = .ok w)
      (refused : m.readWord a = .error f) : Dumped m places (.error f)

variable {m : Memory} {first last a : Word} {text : String}

theorem wordPlaces_succ (a : Word) (count : Nat) :
    wordPlaces a (count + 1) = a :: wordPlaces (a + 4) count := by
  have step (i : Nat) :
      a + BitVec.ofNat 32 (4 * (i + 1)) = a + 4 + BitVec.ofNat 32 (4 * i) := by
    rw [BitVec.add_assoc, Nat.mul_succ, Nat.add_comm, ← BitVec.ofNat_add_ofNat]
    rfl
  simp only [wordPlaces, List.range_succ_eq_map, List.map_cons, List.map_map, Function.comp_def,
    Nat.succ_eq_add_one, step, Nat.mul_zero, BitVec.add_zero]

theorem mem_dumpPlaces : a ∈ dumpPlaces first last ↔
    ∃ k, a.toNat = first.toNat + 4 * k ∧ a.toNat < last.toNat := by
  have below := last.isLt
  simp only [dumpPlaces, wordPlaces, List.mem_map, List.mem_range]
  constructor
  · rintro ⟨k, less, rfl⟩
    rw [toNat_add_ofNat (by omega)]
    exact ⟨k, rfl, by omega⟩
  · rintro ⟨k, place, less⟩
    refine ⟨k, by omega, BitVec.eq_of_toNat_eq ?_⟩
    rw [toNat_add_ofNat (by omega), place]

/-- The places come in ascending order, without a wrap between them. -/
theorem dumpPlaces_ascending (first last : Word) :
    (dumpPlaces first last).Pairwise fun a b => a.toNat < b.toNat := by
  have below := last.isLt
  refine List.pairwise_map.mpr (List.pairwise_lt_range.imp_of_mem fun {i k} _ member less => ?_)
  rw [List.mem_range] at member
  rw [toNat_add_ofNat (by omega), toNat_add_ofNat (by omega)]
  omega

/-- Below its bound the loop does just what the recursion over the number of words does. -/
theorem dumps_dumpLines {count : Nat} (words : (last.toNat - a.toNat + 3) / 4 = count) :
    Dumps m last a text ((dumpLines m count a).map fun lines => text ++ String.join lines) := by
  induction count generalizing a text with
  | zero =>
    have ended : Dumps m last a text (.ok text) := .done (by omega)
    have whole : text ++ String.join [] = text := String.append_empty
    simpa only [dumpLines, Except.map, whole] using ended
  | succ count ih =>
    have below : a.toNat < last.toNat := by omega
    cases read : m.readWord a with
    | error f =>
      have failed : dumpLines m (count + 1) a = .error f := by rw [dumpLines, read]; rfl
      rw [failed]
      exact .fault below read
    | ok w =>
      have next : (a + 4).toNat = a.toNat + 4 := toNat_add_ofNat (Memory.readWord_inside read)
      have rest := @ih (a + 4) (text ++ wordLine a w) (by omega)
      refine .line below read ?_
      have unfolded : dumpLines m (count + 1) a =
          (dumpLines m count (a + 4)).map (wordLine a w :: ·) := by
        rw [dumpLines, read]
        rfl
      rw [unfolded]
      cases lines : dumpLines m count (a + 4) with
      | error f => simpa only [lines, Except.map] using rest
      | ok lines' =>
        simpa only [lines, Except.map, String.join_cons, String.append_assoc] using rest

theorem Dumps.unique {outcome other : Except Fault String} (dumps : Dumps m last a text outcome)
    (again : Dumps m last a text other) : other = outcome := by
  induction dumps with
  | done past =>
    cases again with
    | done => rfl
    | line below | fault below => exact absurd past (Nat.not_le_of_lt below)
  | line below read _ ih =>
    cases again with
    | done past => exact absurd past (Nat.not_le_of_lt below)
    | line _ same rest =>
      obtain rfl := Except.ok.inj (read.symm.trans same)
      exact ih rest
    | fault _ refused => cases read.symm.trans refused
  | fault below refused =>
    cases again with
    | done past => exact absurd past (Nat.not_le_of_lt below)
    | line _ read => cases read.symm.trans refused
    | fault _ same => exact congrArg Except.error (Except.error.inj (same.symm.trans refused))

/-- The loop always ends, and in only one way. -/
theorem dumps_iff {outcome : Except Fault String} :
    Dumps m last first "" outcome ↔ outcome = dump m first last := by
  have ends : Dumps m last first "" (dump m first last) := by
    have dumps := @dumps_dumpLines m last first "" _ rfl
    simpa only [dump, String.empty_append] using dumps
  constructor
  · exact ends.unique
  · rintro rfl
    exact ends

theorem dumped_dumpLines (m : Memory) (count : Nat) (a : Word) :
    Dumped m (wordPlaces a count) (dumpLines m count a) := by
  induction count generalizing a with
  | zero => exact .shown [] .nil
  | succ count ih =>
    have rest := ih (a + 4)
    rw [wordPlaces_succ, dumpLines]
    cases read : m.readWord a with
    | error f => exact .refused [] a _ f rfl nofun read
    | ok w =>
      generalize dumpLines m count (a + 4) = lines at rest ⊢
      cases rest with
      | shown words all => exact .shown (w :: words) (.cons read all)
      | refused before b after f split all refused =>
        refine .refused (a :: before) b after f (congrArg (a :: ·) split) ?_ refused
        exact List.forall_mem_cons.mpr ⟨⟨w, read⟩, all⟩

end Syscall

namespace Run

/-- The service that dumps memory comes to an end, whatever its bounds are. If all words that begin
below the upper bound can be read, one text is reported and nothing else happens: it has a line for
each of them, in ascending order. Otherwise the run fails for the first one that cannot be read, and
nothing is printed. -/
theorem tick_dumpMemory {r : Run} (calls : r.Calls .dumpMemory) :
    let first := r.machine.regs.read Register.a0
    let last := r.machine.regs.read Register.a1
    let places := Syscall.dumpPlaces first last
    places.Pairwise (fun a b => a.toNat < b.toNat) ∧
    (∀ a, a ∈ places ↔ ∃ k, a.toNat = first.toNat + 4 * k ∧ a.toNat < last.toNat) ∧
    ∃ dumped, Syscall.Dumped r.machine.mem places dumped ∧
      (∀ outcome, Syscall.Dumps r.machine.mem last first "" outcome ↔
        outcome = dumped.map String.join) ∧
      match dumped with
      | .ok lines => ∃ next, r.tick = (.ok .executed, next) ∧
          next.machine = r.machine.setPc (r.pc + 4) ∧
          next.events = .step (r.pc + 4) :: .console (String.join lines) :: r.events ∧
          next.console = r.console ++ String.join lines
      | .error f => ∃ e next, r.tick = (.error e, next) ∧ e.pc = r.pc ∧ e.fault = f ∧
          next.machine = r.machine ∧ next.events = .ended false :: .error e :: r.events ∧
          next.console = r.console := by
  intro first last places
  refine ⟨Syscall.dumpPlaces_ascending first last, fun a => Syscall.mem_dumpPlaces,
    Syscall.dumpLines r.machine.mem ((last.toNat - first.toNat + 3) / 4) first,
    Syscall.dumped_dumpLines _ _ _, fun outcome => Syscall.dumps_iff, ?_⟩
  have serves : Syscall.serve .dumpMemory r.station =
      Syscall.printing (Syscall.dump r.machine.mem first last) r.station := rfl
  unfold Syscall.dump at serves
  generalize Syscall.dumpLines r.machine.mem ((last.toNat - first.toNat + 3) / 4) first = dumped
    at serves ⊢
  cases dumped with
  | ok lines => exact ⟨_, calls.executed serves, rfl, rfl, rfl⟩
  | error f =>
    have failed := calls.failed serves
    rw [absorb_station] at failed
    refine ⟨_, _, failed, rfl, rfl, ?_⟩
    rw [finish_running _ (by exact calls.running)]
    exact ⟨rfl, rfl, rfl⟩

/-- About to dump the heap up to a place inside its second word. -/
def dumpingHeap : Run := calling 30 0x10040006 none (.empty false)

theorem tick_dumpMemory_heap : dumpingHeap.Calls .dumpMemory ∧ ∃ next,
    dumpingHeap.tick = (.ok .executed, next) ∧
      next.console = "0x10040000: 0x00000000\n0x10040004: 0x00000000\n" := by
  have calls : dumpingHeap.Calls .dumpMemory := calls_calling rfl
  obtain ⟨-, -, dumped, -, loop, outcome⟩ := tick_dumpMemory calls
  have text : Syscall.dump dumpingHeap.machine.mem (dumpingHeap.machine.regs.read Register.a0)
      (dumpingHeap.machine.regs.read Register.a1) =
      .ok "0x10040000: 0x00000000\n0x10040004: 0x00000000\n" := by cbv
  have same := (loop _).mp (Syscall.dumps_iff.mpr text.symm)
  cases dumped with
  | error f => cases same
  | ok lines =>
    obtain ⟨next, ticked, -, -, console⟩ := outcome
    have whole := Except.ok.inj same
    rw [← whole] at console
    exact ⟨calls, next, ticked, console⟩

end Run

end MipsLab
