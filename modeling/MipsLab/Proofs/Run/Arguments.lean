import MipsLab.Proofs.Machine.Sequence
import MipsLab.Proofs.Machine.Stretches
import MipsLab.Proofs.Text.Utf8
import MipsLab.Run.Arguments

/-! Program arguments as the program finds them. The texts lie one behind the other up to the top of
user memory, in their order, and their addresses in a table below; all of it is above the stack
pointer, and nothing below that is touched. -/
namespace MipsLab

/-- The last two bits are cleared. -/
theorem toNat_wordAligned (a : Word) : (a &&& ~~~(3 : Word)).toNat = a.toNat / 4 * 4 := by
  have shifted : a &&& ~~~(3 : Word) = a >>> 2 <<< 2 := by
    ext i inside
    have mask : (~~~(3 : Word))[i] = decide (2 ≤ i) := by
      revert i
      decide
    rw [BitVec.getElem_and, mask, BitVec.getElem_shiftLeft]
    by_cases low : i < 2
    · simp [low]
    · have place : 2 + (i - 2) = i := by omega
      simp [low, place, BitVec.getLsbD_eq_getElem inside]
      omega
  rw [shifted, BitVec.toNat_shiftLeft, BitVec.toNat_ushiftRight, Nat.shiftLeft_eq,
    Nat.shiftRight_eq_div_pow]
  have := a.isLt
  omega

/-- What a text takes up in memory, with the zero byte behind it. -/
def textStretch (a : Word) (text : String) : Stretch := ⟨a, (Text.utf8Bytes text).length + 1⟩

def textBytes (args : List String) : Nat :=
  (args.map fun text => (Text.utf8Bytes text).length + 1).sum

theorem textBytes_cons (text : String) (rest : List String) :
    textBytes (text :: rest) = (Text.utf8Bytes text).length + 1 + textBytes rest := rfl

/-- All addresses of the stretch are user memory above the text segment. -/
def Stretch.Within (low : Nat) (s : Stretch) : Prop :=
  low ≤ s.first.toNat ∧ s.first.toNat + s.size ≤ MemoryMap.userLimit.toNat

namespace Memory

/-- Texts that lie one behind the other from `low` up to the top of user memory, the first of them
lowest, each at its address and with a zero byte behind it. -/
inductive Texts (m : Memory) : Word → List String → List Word → Prop where
  | nil : Texts m MemoryMap.userLimit [] []
  | cons {low top : Word} {text : String} {rest : List String} {pointers : List Word}
      (next : low.toNat + (Text.utf8Bytes text).length + 1 = top.toNat)
      (stored : m.peekBytes low ((Text.utf8Bytes text).length + 1) = Text.utf8Bytes text ++ [0])
      (above : Texts m top rest pointers) : Texts m low (text :: rest) (low :: pointers)

namespace Texts

variable {m k : Memory} {low : Word} {args : List String} {pointers : List Word}

theorem low_add (texts : m.Texts low args pointers) :
    low.toNat + textBytes args = MemoryMap.userLimit.toNat := by
  induction texts with
  | nil => rfl
  | cons next _ _ ih =>
    rw [textBytes_cons]
    omega

theorem length_eq (texts : m.Texts low args pointers) : pointers.length = args.length := by
  induction texts with
  | nil => rfl
  | cons _ _ _ ih => rw [List.length_cons, List.length_cons, ih]

theorem within (texts : m.Texts low args pointers) :
    ∀ s ∈ List.zipWith textStretch pointers args, s.Within low.toNat := by
  induction texts with
  | nil => nofun
  | @cons low top text rest pointers next _ above ih =>
    have whole := above.low_add
    rw [List.zipWith_cons_cons, List.forall_mem_cons]
    refine ⟨⟨le_refl _, ?_⟩, fun s member => ?_⟩
    · simp only [textStretch]
      omega
    · obtain ⟨first, last⟩ := ih s member
      exact ⟨by omega, last⟩

theorem ordered (texts : m.Texts low args pointers) :
    (List.zipWith textStretch pointers args).Pairwise Stretch.Before := by
  induction texts with
  | nil => exact .nil
  | cons next _ above ih =>
    rw [List.zipWith_cons_cons, List.pairwise_cons]
    refine ⟨fun s member => ?_, ih⟩
    obtain ⟨first, -⟩ := above.within s member
    simp only [Stretch.Before, textStretch]
    omega

/-- What is written below the texts leaves them as they are. -/
theorem kept (texts : m.Texts low args pointers) {s : Stretch}
    (same : m.SameOutside k s.addresses) (below : s.first.toNat + s.size ≤ low.toNat) :
    k.Texts low args pointers := by
  induction texts with
  | nil => exact .nil
  | @cons low top text rest pointers next stored above ih =>
    have limit := above.low_add
    have apart : s.addresses.Disjoint (textStretch low text).addresses :=
      Stretch.Before.disjoint below (by
        have := low.isLt
        simp only [textStretch, MemoryMap.userLimit] at *
        omega)
    exact .cons next ((same.peekBytes apart).trans stored) (ih (by omega))

theorem readable (texts : m.Texts low args pointers)
    (high : MemoryMap.dataSegmentBase.toNat ≤ low.toNat)
    (plain : ∀ arg ∈ args, '\x00' ∉ arg.toList ∧ (Text.utf8Bytes arg).length < maxString) :
    List.Forall₂ (fun p arg => m.readString p = .ok (Text.utf8Bytes arg)) pointers args := by
  induction texts with
  | nil => exact .nil
  | @cons low top text rest pointers next stored above ih =>
    rw [List.forall_mem_cons] at plain
    obtain ⟨⟨nonzero, short⟩, plain⟩ := plain
    refine .cons ?_ (ih (by omega) plain)
    refine readStringTo_stored stored (fun i less => .inl ?_) (Text.utf8Bytes_ne_zero nonzero) short
    have limit := above.low_add
    have last : MemoryMap.userLimit.toNat = 0x7FFFFFFF := rfl
    rw [toNat_add_ofNat (by omega)]
    omega

end Texts

theorem texts_storeTexts (m : Memory) {args : List String}
    (room : textBytes args ≤ MemoryMap.userLimit.toNat) :
    ∃ low pointers k, m.storeTexts args = (low, pointers, k) ∧ k.Texts low args pointers ∧
      m.SameOutside k (Stretch.addresses ⟨low, textBytes args⟩) := by
  induction args with
  | nil => exact ⟨_, _, _, rfl, .nil, .refl m _⟩
  | cons text rest ih =>
    rw [textBytes_cons] at room
    obtain ⟨top, pointers, k, stored, texts, same⟩ := ih (by omega)
    have whole := texts.low_add
    have limit : MemoryMap.userLimit.toNat = 0x7FFFFFFF := rfl
    have length : (Text.utf8Bytes text ++ [0]).length = (Text.utf8Bytes text).length + 1 := by
      rw [List.length_append, List.length_singleton]
    have first : (top - BitVec.ofNat 32 ((Text.utf8Bytes text).length + 1)).toNat =
        top.toNat - ((Text.utf8Bytes text).length + 1) := toNat_sub_ofNat (by omega)
    set low := top - BitVec.ofNat 32 ((Text.utf8Bytes text).length + 1)
    have added := sameOutside_pokeBytes k low (Text.utf8Bytes text ++ [0])
    have held : (k.pokeBytes low (Text.utf8Bytes text ++ [0])).peekBytes low
        (Text.utf8Bytes text ++ [0]).length = Text.utf8Bytes text ++ [0] :=
      peekBytes_pokeBytes k low (by omega)
    rw [length] at added held
    have kept := texts.kept (s := textStretch low text) added (by
      simp only [textStretch]
      omega)
    refine ⟨low, low :: pointers, k.pokeBytes low (Text.utf8Bytes text ++ [0]), ?_, ?_, ?_⟩
    · rw [storeTexts, stored]
      dsimp only
      rw [length]
    · exact .cons (by omega) held kept
    · refine SameOutside.trans (same.mono ?_) (added.mono ?_)
      · refine Stretch.subset_addresses ?_ ?_ ?_ <;> simp only [textBytes_cons] <;> omega
      · refine Stretch.subset_addresses (s := textStretch low text) ?_ ?_ ?_ <;>
          simp only [textBytes_cons, textStretch] <;> omega

theorem readWord_user (m : Memory) {a : Word} (aligned : 4 ∣ a.toNat)
    (low : MemoryMap.dataSegmentBase.toNat ≤ a.toNat)
    (high : a.toNat + 4 ≤ MemoryMap.userLimit.toNat) :
    m.readWord a = .ok (BitVec.ofNat 32 (m.peekValue a .word)) := by
  have aligned : Width.word.bytes ∣ a.toNat := aligned
  have permitted : Permitted a Width.word.bytes := by
    intro i less
    have limit : MemoryMap.userLimit.toNat = 0x7FFFFFFF := rfl
    simp only [Width.bytes] at less
    refine .inl ?_
    rw [toNat_add_ofNat (by omega)]
    omega
  rw [readWord, read_eq, if_pos aligned, if_pos permitted]
  rfl

/-- A word that was stored is read back, as long as nothing is written over it. -/
theorem SameOutside.readWord {m k : Memory} {touched : List Word} {a w : Word}
    (same : (m.pokeValue a .word w.toNat).SameOutside k touched) (aligned : 4 ∣ a.toNat)
    (low : MemoryMap.dataSegmentBase.toNat ≤ a.toNat)
    (high : a.toNat + 4 ≤ MemoryMap.userLimit.toNat)
    (apart : touched.Disjoint (addresses a Width.word.bytes)) : k.readWord a = .ok w := by
  have value : k.peekValue a .word = w.toNat % 256 ^ Width.word.bytes := by
    rw [peekValue, same.peekBytes apart]
    exact peekValue_pokeValue m a .word w.toNat
  have whole : w.toNat % 256 ^ Width.word.bytes = w.toNat := Nat.mod_eq_of_lt w.isLt
  rw [readWord_user k aligned low high, value, whole, BitVec.ofNat_toNat, BitVec.setWidth_eq]

/-- Words of a table are read back at their places, and nothing is written around it. -/
theorem words_storeWords (m : Memory) {table : Word} {words : List Word}
    (aligned : 4 ∣ table.toNat) (low : MemoryMap.dataSegmentBase.toNat ≤ table.toNat)
    (high : table.toNat + 4 * words.length ≤ MemoryMap.userLimit.toNat) :
    (∀ (i : Nat) (inside : i < words.length),
      (m.storeWords table words).readWord (table + BitVec.ofNat 32 (4 * i)) = .ok words[i]) ∧
    m.SameOutside (m.storeWords table words) (Stretch.addresses ⟨table, 4 * words.length⟩) := by
  have limit : MemoryMap.userLimit.toNat = 0x7FFFFFFF := rfl
  induction words generalizing m table with
  | nil => exact ⟨nofun, .refl m _⟩
  | cons w rest ih =>
    rw [List.length_cons] at high
    have second : (table + 4).toNat = table.toNat + 4 := toNat_add_ofNat (n := 4) (by omega)
    have aligned' : 4 ∣ (table + 4).toNat := by omega
    obtain ⟨found, same⟩ := ih (m.pokeValue table .word w.toNat) aligned' (by omega) (by omega)
    have added := sameOutside_pokeBytes m table (littleEndian 4 w.toNat)
    rw [length_littleEndian] at added
    rw [storeWords]
    constructor
    · intro i inside
      cases i with
      | zero =>
        have apart : (Stretch.addresses ⟨table + 4, 4 * rest.length⟩).Disjoint
            (addresses table Width.word.bytes) := by
          refine (Stretch.Before.disjoint (s := ⟨table, 4⟩) ?_ ?_).symm
          · exact second.symm.le
          · dsimp only
            omega
        rw [Nat.mul_zero, BitVec.add_zero]
        exact same.readWord aligned low (by omega) apart
      | succ i =>
        have place : table + BitVec.ofNat 32 (4 * (i + 1)) =
            table + 4 + BitVec.ofNat 32 (4 * i) := by
          rw [Nat.mul_succ, Nat.add_comm, BitVec.ofNat_add, ← BitVec.add_assoc]
          rfl
        rw [place]
        exact found i (Nat.lt_of_succ_lt_succ inside)
    · refine SameOutside.trans (added.mono ?_) (same.mono ?_)
      · refine Stretch.subset_addresses (s := ⟨table, 4⟩) ?_ ?_ ?_ <;>
          simp only [List.length_cons] <;> omega
      · refine Stretch.subset_addresses ?_ ?_ ?_ <;> simp only [List.length_cons] <;> omega

end Memory

/-- Where the table of addresses starts, below the texts and at a whole word. -/
def argumentsStart (args : List String) : Nat :=
  (MemoryMap.userLimit.toNat - textBytes args) / 4 * 4 - 4 * (args.length + 1)

/-- All that the arguments take up: the table with a word behind it, and the texts. -/
def argumentStretches (table : Word) (pointers : List Word) (args : List String) : List Stretch :=
  ⟨table, 4 * (pointers.length + 1)⟩ :: List.zipWith textStretch pointers args

/-- `k` is `m` with the texts at `pointers` and these in a table, and with nothing changed below. -/
structure Memory.HoldsArguments (m k : Memory) (table : Word) (args : List String)
    (pointers : List Word) : Prop where
  start : table.toNat = argumentsStart args
  aligned : 4 ∣ table.toNat
  entries (i : Nat) (inside : i < pointers.length) :
    k.readWord (table + BitVec.ofNat 32 (4 * i)) = .ok pointers[i]
  ending : k.readWord (table + BitVec.ofNat 32 (4 * pointers.length)) = .ok 0
  texts : List.Forall₂ (fun p arg => k.readString p = .ok (Text.utf8Bytes arg)) pointers args
  apart : (argumentStretches table pointers args).Pairwise
    fun s t => s.addresses.Disjoint t.addresses
  reachable : ∀ s ∈ argumentStretches table pointers args, ∀ x ∈ s.addresses,
    MemoryMap.Mapped x ∧ table ≤ x
  below : ∀ x < table, k.bytes[x]? = m.bytes[x]?

theorem Memory.holdsArguments (m : Memory) {args : List String}
    (plain : ∀ arg ∈ args,
      '\x00' ∉ arg.toList ∧ (Text.utf8Bytes arg).length < Memory.maxString)
    (room : MemoryMap.heapBase.toNat ≤ argumentsStart args) :
    ∃ low pointers k table, m.storeTexts args = (low, pointers, k) ∧
      (low &&& ~~~(3 : Word)) - BitVec.ofNat 32 (4 * (pointers ++ [0]).length) = table ∧
      m.HoldsArguments (k.storeWords table (pointers ++ [0])) table args pointers := by
  have limit : MemoryMap.userLimit.toNat = 0x7FFFFFFF := rfl
  have heap : MemoryMap.heapBase.toNat = 0x10040000 := rfl
  have data : MemoryMap.dataSegmentBase.toNat = 0x10000000 := rfl
  have fits : textBytes args ≤ MemoryMap.userLimit.toNat := by
    unfold argumentsStart at room
    omega
  obtain ⟨low, pointers, k, stored, texts, added⟩ := m.texts_storeTexts fits
  have whole := texts.low_add
  have length := texts.length_eq
  have words : (pointers ++ [0]).length = pointers.length + 1 := by
    rw [List.length_append, List.length_singleton]
  have cleared : (low &&& ~~~(3 : Word)).toNat =
      (MemoryMap.userLimit.toNat - textBytes args) / 4 * 4 := by
    rw [toNat_wordAligned, ← whole, Nat.add_sub_cancel]
  have start : ((low &&& ~~~(3 : Word)) -
      BitVec.ofNat 32 (4 * (pointers ++ [0]).length)).toNat = argumentsStart args := by
    unfold argumentsStart at room ⊢
    rw [toNat_sub_ofNat (by omega), cleared, words, length]
  set table := (low &&& ~~~(3 : Word)) - BitVec.ofNat 32 (4 * (pointers ++ [0]).length)
  have ends : table.toNat + 4 * (pointers.length + 1) ≤ low.toNat := by
    rw [start, length]
    unfold argumentsStart at room ⊢
    omega
  have aligned : 4 ∣ table.toNat := by
    rw [start]
    unfold argumentsStart
    omega
  have fits : table.toNat + 4 * (pointers ++ [0]).length ≤ MemoryMap.userLimit.toNat := by omega
  obtain ⟨found, same⟩ := k.words_storeWords aligned (by omega) fits
  rw [words] at same
  have kept := texts.kept same ends
  have within : ∀ s ∈ argumentStretches table pointers args, s.Within table.toNat := by
    rw [argumentStretches, List.forall_mem_cons]
    refine ⟨⟨le_refl _, by dsimp only; omega⟩, fun s member => ?_⟩
    obtain ⟨first, last⟩ := kept.within s member
    exact ⟨by omega, last⟩
  have ordered : (argumentStretches table pointers args).Pairwise Stretch.Before := by
    rw [argumentStretches, List.pairwise_cons]
    exact ⟨fun s member => ends.trans (kept.within s member).1, kept.ordered⟩
  refine ⟨low, pointers, k, table, stored, rfl, start, aligned, fun i inside => ?_, ?_,
    kept.readable (by omega) plain, ?_, fun s member x address => ?_, fun x below => ?_⟩
  · rw [found i (by omega), List.getElem_append_left inside]
  · rw [found pointers.length (by omega), List.getElem_concat_length rfl]
  · refine ordered.imp_of_mem fun _ member before => before.disjoint ?_
    have := (within _ member).2
    omega
  · obtain ⟨first, last⟩ := within s member
    rw [Stretch.mem_addresses (by omega)] at address
    rw [BitVec.le_def]
    exact ⟨.inl (by omega), by omega⟩
  · rw [BitVec.lt_def] at below
    refine (same.bytes x fun member => ?_).trans (added.bytes x fun member => ?_)
    · rw [Stretch.mem_addresses (by dsimp only; omega)] at member
      exact absurd member.1 (by dsimp only; omega)
    · rw [Stretch.mem_addresses (by dsimp only; omega)] at member
      exact absurd member.1 (by dsimp only; omega)

/-- `k` is `m` with arguments for the program. -/
structure Machine.HasArguments (m k : Machine) (args : List String) (pointers : List Word) :
    Prop where
  count : (k.regs.read Register.a0).toNat = args.length
  table : k.regs.read Register.a1 = k.regs.read Register.sp
  layout : m.mem.HoldsArguments k.mem (k.regs.read Register.sp) args pointers

theorem Run.setArguments_laidOut (r : Run) {args : List String} (nonempty : args ≠ [])
    (plain : ∀ arg ∈ args,
      '\x00' ∉ arg.toList ∧ (Text.utf8Bytes arg).length < Memory.maxString)
    (room : MemoryMap.heapBase.toNat ≤ argumentsStart args) :
    ∃ pointers, r.machine.HasArguments (r.setArguments args).machine args pointers := by
  obtain ⟨low, pointers, k, table, stored, rfl, layout⟩ := r.machine.mem.holdsArguments plain room
  set table := (low &&& ~~~(3 : Word)) - BitVec.ofNat 32 (4 * (pointers ++ [0]).length)
  have after : (r.setArguments args).machine =
      ((({ r.machine with mem := k.storeWords table (pointers ++ [0]) } : Machine).setReg
        Register.a0 (BitVec.ofNat 32 args.length)).setReg Register.a1 table).setReg
          Register.sp table := by
    rw [Run.setArguments, if_neg (by simpa using nonempty), Machine.setArguments, stored]
  have pointer : (r.setArguments args).machine.regs.read Register.sp = table := by
    rw [after, Machine.read_setReg_self _ (by decide)]
  refine ⟨pointers, ?_, ?_, ?_⟩
  · rw [after, Machine.read_setReg_of_ne _ (by decide), Machine.read_setReg_of_ne _ (by decide),
      Machine.read_setReg_self _ (by decide), BitVec.toNat_ofNat]
    have few : args.length < 2 ^ 32 := by
      unfold argumentsStart at room
      have limit : MemoryMap.userLimit.toNat = 0x7FFFFFFF := rfl
      have heap : MemoryMap.heapBase.toNat = 0x10040000 := rfl
      omega
    exact Nat.mod_eq_of_lt few
  · rw [pointer, after, Machine.read_setReg_of_ne _ (by decide),
      Machine.read_setReg_self _ (by decide)]
  · rw [pointer, after]
    exact layout

/-- A run of no program at all. -/
def bareRun : Run :=
  .start ⟨∅, ∅, ∅, [], [], .new [] fun _ => none, [], MemoryMap.textBase⟩ {} ⟨[], []⟩

theorem Run.setArguments_laidOut_two :
    (bareRun.setArguments ["ab", "c"]).machine.regs.read Register.sp = 0x7FFFFFEC ∧
    ∃ pointers, bareRun.machine.HasArguments (bareRun.setArguments ["ab", "c"]).machine
      ["ab", "c"] pointers :=
  ⟨by cbv, bareRun.setArguments_laidOut (by decide) (by decide +kernel) (by decide +kernel)⟩

end MipsLab
