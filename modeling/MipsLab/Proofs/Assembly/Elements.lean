import MipsLab.Proofs.Assembly.Placement
import MipsLab.Proofs.Text.Bytes
import MipsLab.Proofs.Text.Numerals

/-! What the operands of a data declaration denote. An operand stands for a value that is repeated,
a value has its bytes once the labels are known, and the elements of a declaration are the values of
its operands one behind another. -/
namespace MipsLab

/-- A token is a text with a decimal count behind its last colon, or it stands for itself once. -/
inductive Repeats : (token text : List Char) → (count : Nat) → Prop
  | counted {text digits : List Char} (filled : digits ≠ [])
      (all : ∀ c ∈ digits, c.isDigit = true) :
      Repeats (text ++ ':' :: digits) text (Nat.ofDigitChars 10 digits 0)
  | once {token : List Char} (plain : ∀ text digits, token = text ++ ':' :: digits →
      digits ≠ [] → ∃ c ∈ digits, c.isDigit = false) : Repeats token token 1

/-- What an operand of a declaration denotes, and how often. -/
inductive Denotes : DataKind → String → DataValue → (count : Nat) → Prop
  | int {kind : DataKind} {token : String} {text : List Char} {v : Int} {count : Nat}
      (integral : kind = .word ∨ kind = .half ∨ kind = .byte)
      (repeats : Repeats token.toList text count) (read : Literal.int? text = some v) :
      Denotes kind token (.int v) count
  | label {token name : String} {text : List Char} {offset : Int} {count : Nat}
      (repeats : Repeats token.toList text count)
      (read : Operand.ofToken text = .ok (.label name offset)) :
      Denotes .word token (.label name offset) count
  | float {kind : DataKind} {token : String} {text : List Char} {bits : BitVec 64} {count : Nat}
      (floating : kind = .float ∨ kind = .double) (repeats : Repeats token.toList text count)
      (read : Literal.float? text = some bits) : Denotes kind token (.float bits) count
  | text {kind : DataKind} {token s : String} (string : kind = .ascii ∨ kind = .asciiz)
      (read : Literal.string? token.toList = some s) : Denotes kind token (.text s) 1
  | space {token : String} {n : Int} (read : Literal.int? token.toList = some n) (natural : 0 ≤ n) :
      Denotes .space token (.int n) 1

/-- The kinds whose operands are numbers. -/
def DataKind.IsNumber (kind : DataKind) : Prop :=
  kind = .word ∨ kind = .half ∨ kind = .byte ∨ kind = .float ∨ kind = .double

namespace DataValue

def size (kind : DataKind) : DataValue → Nat
  | .int n => if kind = .space then n.toNat else kind.align
  | .float _ => kind.align
  | .label .. => 4
  | .text s => s.toList.length + if kind = .asciiz then 1 else 0

/-- The pattern in which the bits of a double are stored. -/
def pattern (kind : DataKind) (bits : BitVec 64) : Nat :=
  if kind = .float then Ieee.convert Ieee.double Ieee.single bits.toNat else bits.toNat

/-- The bytes of a value, as far as it has any. An unknown label has zeros. -/
def image (labels : Labels) (kind : DataKind) : DataValue → List (Option Byte)
  | .int n =>
    if kind = .space then List.replicate n.toNat none
    else (littleEndian kind.align (Selection.word n).toNat).map some
  | .float bits => (littleEndian kind.align (pattern kind bits)).map some
  | .label name offset =>
    match labels name with
    | some a => (littleEndian 4 (a + Selection.word offset).toNat).map some
    | none => List.replicate 4 (some 0)
  | .text s =>
    s.toList.map (fun c => some (Text.charByte c)) ++ if kind = .asciiz then [some 0] else []

def label? : DataValue → Option (String × Int)
  | .label name offset => some (name, offset)
  | _ => none

@[simp] theorem length_image (labels : Labels) (kind : DataKind) (v : DataValue) :
    (v.image labels kind).length = v.size kind := by
  cases v with
  | int n =>
    rw [image, size]
    split <;> simp [length_littleEndian]
  | float bits => simp [image, size, length_littleEndian]
  | label name offset =>
    rw [image, size]
    split <;> simp [length_littleEndian]
  | text s =>
    rw [image, size]
    split <;> simp

theorem eq_label {v : DataValue} {name : String} {offset : Int}
    (wanted : v.label? = some (name, offset)) : v = .label name offset := by
  cases v with
  | label => cases wanted; rfl
  | _ => cases wanted

theorem image_of_label?_none {kind : DataKind} {v : DataValue} (plain : v.label? = none)
    (labels others : Labels) : v.image labels kind = v.image others kind := by
  cases v with
  | label name offset => exact absurd plain nofun
  | _ => rfl

end DataValue

theorem DataKind.IsNumber.ne_space {kind : DataKind} (number : kind.IsNumber) : kind ≠ .space := by
  rintro rfl
  simp [IsNumber] at number

def noLabels : Labels := fun _ => none

/-- An element is what its value says. -/
structure Element.Fits (kind : DataKind) (e : Element) : Prop where
  bytes : e.bytes = e.value.image noLabels kind
  label : e.label = e.value.label?

/-- An element is what its operand denotes. -/
structure Element.Reads (kind : DataKind) (token : String) (e : Element) : Prop
    extends Element.Fits kind e where
  denotes : Denotes kind token e.value e.count

namespace Layout

variable {head : String} {kind : DataKind} {address : Word} {used : Nat} {token : String}
  {e : Element} {args : List String} {made : List (Nat × Element)}

theorem int?_digits {digits : List Char} (all : ∀ c ∈ digits, c.isDigit = true) {n : Int}
    (read : Literal.int? digits = some n) : n = Nat.ofDigitChars 10 digits 0 := by
  -- every other form of a literal holds a character that is no digit
  have no {c : Char} (mark : c.isDigit = false) (member : c ∈ digits) : False :=
    Bool.false_ne_true (mark.symm.trans (all c member))
  have magnitude {k : Nat} (found : Literal.magnitude? digits = some k) :
      k = Nat.ofDigitChars 10 digits 0 := by
    unfold Literal.magnitude? at found
    split at found
    · exact (no (c := '\x27') rfl (by simp)).elim
    · exact (no (c := 'x') rfl (by simp)).elim
    · exact (no (c := 'X') rfl (by simp)).elim
    · exact (Text.natural?_iff.mp (Option.filter_eq_some_iff.mp found).1).2.2.symm
  unfold Literal.int? at read
  split at read
  · exact (no (c := '-') rfl (by simp)).elim
  · exact (no (c := '+') rfl (by simp)).elim
  · obtain ⟨k, found, rfl⟩ := Option.map_eq_some_iff.mp read
    rw [magnitude found]
    rfl

theorem repeats_of_repetition {token text : List Char} {count : Nat}
    (done : repetition token = .ok (text, count)) : Repeats token text count := by
  -- the digits of a counted token hold no colon, so that its last colon is the one in front
  have cut {text digits : List Char} (all : ∀ c ∈ digits, c.isDigit = true) :
      Text.cutLast (· = ':') (text ++ ':' :: digits) = some (text, ':', digits) := by
    refine Text.cutLast_append (fun c member => decide_eq_false ?_) (decide_eq_true rfl)
    rintro rfl
    exact Bool.false_ne_true (all ':' member)
  unfold repetition at done
  split at done
  · next value c digits found =>
    split at done
    · next counted =>
      obtain ⟨filled, all⟩ : digits ≠ [] ∧ ∀ c ∈ digits, c.isDigit = true := by
        simpa using counted
      obtain ⟨rfl, colon⟩ := Text.eq_append_of_cutLast found
      obtain rfl : c = ':' := by simpa using colon
      split at done
      · next n read =>
        cases done
        rw [int?_digits all read]
        exact .counted filled all
      · cases done
    · next uncounted =>
      cases done
      refine .once fun front tail same filled => ?_
      by_contra none
      push Not at none
      have all : ∀ c ∈ tail, c.isDigit = true := by simpa using none
      rw [same, cut all] at found
      cases found
      exact uncounted (by simpa using ⟨filled, all⟩)
  · next uncut =>
    cases done
    refine .once fun front tail same filled => ?_
    by_contra none
    push Not at none
    have all : ∀ c ∈ tail, c.isDigit = true := by simpa using none
    rw [same, cut all] at uncut
    cases uncut

theorem integerElement_ok {v : Int} {count : Nat} (filled : kind ≠ .space)
    (done : integerElement head kind v count = .ok e) :
    e.value = .int v ∧ e.count = count ∧ e.Fits kind := by
  unfold integerElement at done
  dsimp only at done
  by_cases large : kind = .word ∧ 0 < count ∧ ¬ Selection.fitsWord v
  · rw [if_pos large] at done
    cases done
  · rw [if_neg large] at done
    cases done
    exact ⟨rfl, rfl, (if_neg filled).symm, rfl⟩

theorem labelElement?_some {text : List Char} {count : Nat}
    (repeats : Repeats token.toList text count)
    (found : labelElement? kind text count = some e) : e.Reads kind token := by
  unfold labelElement? at found
  split at found
  · next name offset read =>
    cases found
    exact ⟨⟨rfl, rfl⟩, .label repeats read⟩
  · cases found

theorem labelElement?_count {text : List Char} {count : Nat}
    (found : labelElement? kind text count = some e) : e.count = count := by
  unfold labelElement? at found
  split at found <;> cases found
  rfl

theorem numberElement_ok (number : kind.IsNumber)
    (done : numberElement head kind address used token = .ok e) : e.Reads kind token := by
  obtain ⟨⟨text, count⟩, split, done⟩ := except_bind_ok done
  have repeats := repeats_of_repetition split
  dsimp only at done
  have whole (integral : kind = .word ∨ kind = .half ∨ kind = .byte) {v : Int}
      (read : Literal.int? text = some v) (made : integerElement head kind v count = .ok e) :
      e.Reads kind token := by
    obtain ⟨value, times, fits⟩ := integerElement_ok number.ne_space made
    refine ⟨fits, ?_⟩
    rw [value, times]
    exact .int integral repeats read
  cases kind with
  | ascii | asciiz | space => simp [DataKind.IsNumber] at number
  | float | double =>
    dsimp only at done
    split at done
    · cases done
    · next bits read =>
      split at done
      · cases done
        exact ⟨⟨rfl, rfl⟩, .float (by simp) repeats read⟩
      · cases done
  | word | half | byte =>
    dsimp only at done
    split at done
    · next v read =>
      split at done
      · exact whole (by simp) read done
      · cases done
    · split at done
      · next element found =>
        split at done
        · cases done
          exact labelElement?_some repeats found
        · cases done
      · cases done

theorem textElement_ok (string : kind = .ascii ∨ kind = .asciiz)
    (done : textElement kind token = .ok e) : e.Reads kind token := by
  unfold textElement at done
  split at done
  · cases done
  · next s read =>
    cases done
    exact ⟨⟨rfl, rfl⟩, .text string read⟩

theorem spaceElement_ok (done : spaceElement head address args = .ok e) :
    ∃ token, args = [token] ∧ e.Reads .space token := by
  unfold spaceElement at done
  split at done
  · next token =>
    split at done
    · cases done
    · next n read =>
      split at done
      · cases done
      · next natural =>
        split at done
        · cases done
          exact ⟨token, rfl, ⟨rfl, rfl⟩, .space read (not_lt.mp natural)⟩
        · cases done
  · cases done

end Layout

theorem Denotes.size_eq {kind : DataKind} {token : String} {v : DataValue} {count : Nat}
    (number : kind.IsNumber) (denotes : Denotes kind token v count) : v.size kind = kind.align := by
  cases denotes with
  | int => exact if_neg number.ne_space
  | label | float => rfl
  | text string => rcases string with rfl | rfl <;> simp [DataKind.IsNumber] at number
  | space => simp [DataKind.IsNumber] at number

theorem Denotes.plain {kind : DataKind} {token : String} {v : DataValue} {count : Nat}
    (unlabelled : kind ≠ .word) (denotes : Denotes kind token v count) : v.label? = none := by
  cases denotes with
  | label => exact absurd rfl unlabelled
  | _ => rfl

theorem exists_of_forall₂ {α β : Type} {related : α → β → Prop} {as : List α} {bs : List β}
    (all : List.Forall₂ related as bs) {b : β} (member : b ∈ bs) : ∃ a ∈ as, related a b := by
  induction all with
  | nil => exact absurd member List.not_mem_nil
  | cons first _ ih =>
    rcases List.mem_cons.mp member with rfl | later
    · exact ⟨_, List.mem_cons_self, first⟩
    · obtain ⟨a, inside, found⟩ := ih later
      exact ⟨a, List.mem_cons_of_mem _ inside, found⟩

/-- A value at its address, as a line declared it. -/
structure Store where
  address : Word
  kind : DataKind
  value : DataValue
  tag : SourceTag

def storesFrom (kind : DataKind) (tag : SourceTag) (a : Word) : List DataValue → List Store
  | [] => []
  | v :: rest =>
    ⟨a, kind, v, tag⟩ :: storesFrom kind tag (a + BitVec.ofNat 32 (v.size kind)) rest

/-- What the second pass has to do about a value. -/
def Store.fixup? (s : Store) : Option Fixup :=
  s.value.label?.map fun (name, offset) => ⟨s.address, name, offset, s.tag⟩

namespace Layout

variable {head token : String} {kind : DataKind} {address : Word} {used : Nat} {tag : SourceTag}
  {e : Element} {args : List String} {made : List (Nat × Element)}

/-- The values of the elements, each as often as it is repeated. -/
def slots (made : List (Nat × Element)) : List DataValue :=
  made.flatMap fun (_, e) => List.replicate e.count e.value

def extent (kind : DataKind) (values : List DataValue) : Nat := (values.map (·.size kind)).sum

@[simp] theorem extent_cons (v : DataValue) (values : List DataValue) :
    extent kind (v :: values) = v.size kind + extent kind values := rfl

theorem laid_eq (fits : ∀ placed ∈ made, placed.2.Fits kind) :
    laid made = (slots made).flatMap (·.image noLabels kind) := by
  rw [laid, slots, List.flatMap_assoc]
  refine List.flatMap_congr fun placed member => ?_
  dsimp only
  rw [(fits placed member).bytes, List.flatMap, List.map_replicate]

theorem length_laid (fits : ∀ placed ∈ made, placed.2.Fits kind) :
    (laid made).length = extent kind (slots made) := by
  rw [laid_eq fits, List.length_flatMap, extent]
  simp only [DataValue.length_image]

theorem storesFrom_append (a : Word) (first second : List DataValue) :
    storesFrom kind tag a (first ++ second) = storesFrom kind tag a first ++
      storesFrom kind tag (a + BitVec.ofNat 32 (extent kind first)) second := by
  induction first generalizing a with
  | nil => simp [storesFrom, extent]
  | cons v first ih =>
    have further : a + BitVec.ofNat 32 (v.size kind) + BitVec.ofNat 32 (extent kind first) =
        a + BitVec.ofNat 32 (extent kind (v :: first)) := by
      rw [BitVec.add_assoc, ← BitVec.ofNat_add]
      rfl
    rw [List.cons_append, storesFrom, ih, further]
    rfl

theorem storesFrom_replicate (a : Word) (v : DataValue) (n : Nat) :
    storesFrom kind tag a (List.replicate n v) = (List.range n).map fun i =>
      ⟨a + BitVec.ofNat 32 (v.size kind * i), kind, v, tag⟩ := by
  induction n generalizing a with
  | zero => rfl
  | succ n ih =>
    rw [List.replicate_succ, storesFrom, ih, List.range_succ_eq_map, List.map_cons, List.map_map]
    congr 1
    · simp
    · refine List.map_congr_left fun i _ => ?_
      simp only [Function.comp_apply, Nat.succ_eq_add_one, Nat.mul_succ]
      rw [Nat.add_comm (v.size kind * i), BitVec.ofNat_add, ← BitVec.add_assoc]

/-- Only labels want an address. -/
theorem filterMap_fixup?_eq_nil {values : List DataValue} (plain : ∀ v ∈ values, v.label? = none)
    (a : Word) : (storesFrom kind tag a values).filterMap Store.fixup? = [] := by
  induction values generalizing a with
  | nil => rfl
  | cons v values ih =>
    obtain ⟨here, later⟩ := List.forall_mem_cons.mp plain
    rw [storesFrom, List.filterMap_cons_none (by rw [Store.fixup?, here]; rfl)]
    exact ih later _

theorem elementFixups_eq (fits : e.Fits kind) : elementFixups address tag (used, e) =
    (storesFrom kind tag (address + BitVec.ofNat 32 used)
      (List.replicate e.count e.value)).filterMap Store.fixup? := by
  rw [elementFixups, fits.label]
  cases value : e.value with
  | label name offset =>
    change List.map _ _ = _
    rw [storesFrom_replicate, List.filterMap_map, ← List.filterMap_eq_map]
    refine congrArg (List.filterMap · _) (funext fun i => ?_)
    simp [Store.fixup?, DataValue.label?, DataValue.size, BitVec.ofNat_add, BitVec.add_assoc]
  | int | float | text =>
    refine (filterMap_fixup?_eq_nil (fun v member => ?_) _).symm
    rw [List.eq_of_mem_replicate member]
    rfl

theorem extent_replicate (v : DataValue) (n : Nat) :
    extent kind (List.replicate n v) = n * v.size kind := by
  simp [extent]

theorem numberElements_ok (number : kind.IsNumber)
    (done : numberElements head kind address used args = .ok made) :
    List.Forall₂ (fun token placed => placed.2.Reads kind token) args made ∧
      ∀ tag, made.flatMap (elementFixups address tag) =
        (storesFrom kind tag (address + BitVec.ofNat 32 used) (slots made)).filterMap
          Store.fixup? := by
  induction args generalizing used made with
  | nil =>
    cases done
    exact ⟨.nil, fun _ => rfl⟩
  | cons token args ih =>
    rw [numberElements] at done
    obtain ⟨e, first, done⟩ := except_bind_ok done
    obtain ⟨others, rest, done⟩ := except_bind_ok done
    cases done
    have reads := numberElement_ok number first
    obtain ⟨all, fixups⟩ := ih rest
    refine ⟨.cons reads all, fun tag => ?_⟩
    have behind : address + BitVec.ofNat 32 used +
        BitVec.ofNat 32 (extent kind (List.replicate e.count e.value)) =
          address + BitVec.ofNat 32 (used + e.count * kind.align) := by
      rw [extent_replicate, reads.denotes.size_eq number, BitVec.add_assoc, ← BitVec.ofNat_add]
    have more : slots ((used, e) :: others) = List.replicate e.count e.value ++ slots others := rfl
    rw [List.flatMap_cons, elementFixups_eq reads.toFits, fixups, more, storesFrom_append,
      List.filterMap_append, behind]

theorem fixups_of_plain (plain : ∀ placed ∈ made, placed.2.value.label? = none)
    (fits : ∀ placed ∈ made, placed.2.Fits kind) : made.flatMap (elementFixups address tag) =
      (storesFrom kind tag address (slots made)).filterMap Store.fixup? := by
  rw [filterMap_fixup?_eq_nil, List.flatMap_eq_nil_iff]
  · intro placed member
    rw [elementFixups, (fits placed member).label, plain placed member]
  · intro v member
    obtain ⟨placed, inside, repeated⟩ := List.mem_flatMap.mp member
    rw [List.eq_of_mem_replicate repeated]
    exact plain placed inside

theorem textElements_ok {texts : List Element} (string : kind = .ascii ∨ kind = .asciiz)
    (done : args.mapM (textElement kind) = .ok texts) :
    List.Forall₂ (fun token e => e.Reads kind token) args texts := by
  induction args generalizing texts with
  | nil =>
    cases done
    exact .nil
  | cons token args ih =>
    rw [List.mapM_cons] at done
    obtain ⟨e, first, done⟩ := except_bind_ok done
    obtain ⟨others, rest, done⟩ := except_bind_ok done
    cases done
    exact .cons (textElement_ok string first) (ih rest)

/-- What the operands of a declaration are laid out as, and which places want an address. -/
theorem elements_ok (done : elements head kind address args = .ok made) :
    List.Forall₂ (fun token placed => placed.2.Reads kind token) args made ∧
      ∀ tag, made.flatMap (elementFixups address tag) =
        (storesFrom kind tag address (slots made)).filterMap Store.fixup? := by
  have plain (unlabelled : kind ≠ .word)
      (all : List.Forall₂ (fun token placed => placed.2.Reads kind token) args made) :
      ∀ tag, made.flatMap (elementFixups address tag) =
        (storesFrom kind tag address (slots made)).filterMap Store.fixup? := by
    refine fun tag => fixups_of_plain (fun placed member => ?_) fun placed member => ?_
    · obtain ⟨token, -, reads⟩ := exists_of_forall₂ all member
      exact reads.denotes.plain unlabelled
    · obtain ⟨token, -, reads⟩ := exists_of_forall₂ all member
      exact reads.toFits
  have string (isString : kind = .ascii ∨ kind = .asciiz)
      (found : (do let texts ← args.mapM (textElement kind); return texts.map (0, ·)) =
        Except.ok made) :
      List.Forall₂ (fun token placed => placed.2.Reads kind token) args made := by
    obtain ⟨texts, read, found⟩ := except_bind_ok found
    cases found
    rw [List.forall₂_map_right_iff]
    exact textElements_ok isString read
  cases kind with
  | word | half | byte | float | double =>
    have numbers := numberElements_ok (by simp [DataKind.IsNumber]) done
    simpa only [BitVec.ofNat_eq_ofNat, BitVec.add_zero] using numbers
  | ascii | asciiz =>
    have all := string (by simp) done
    exact ⟨all, plain (by simp) all⟩
  | space =>
    obtain ⟨e, found, done⟩ := except_bind_ok done
    cases done
    obtain ⟨token, rfl, reads⟩ := spaceElement_ok found
    have all : List.Forall₂ (fun token (placed : Nat × Element) => placed.2.Reads .space token)
        [token] [(0, e)] := .cons reads .nil
    exact ⟨all, plain (by simp) all⟩

/-- Numbers are laid out only if there is room for them. -/
theorem numberElement_room (number : kind.IsNumber)
    (done : numberElement head kind address used token = .ok e) :
    used + e.count * kind.align ≤ MemoryMap.heapBase.toNat - address.toNat := by
  obtain ⟨⟨text, count⟩, -, done⟩ := except_bind_ok done
  dsimp only at done
  cases kind with
  | ascii | asciiz | space => simp [DataKind.IsNumber] at number
  | float | double =>
    dsimp only at done
    split at done
    · cases done
    · split at done
      · next room =>
        cases done
        exact room
      · cases done
  | word | half | byte =>
    dsimp only at done
    split at done
    · split at done
      · next room => rwa [(integerElement_ok number.ne_space done).2.1]
      · cases done
    · split at done
      · next element found =>
        split at done
        · next room =>
          cases done
          rwa [labelElement?_count found]
        · cases done
      · cases done

/-- Numbers have no more bytes than there is room for them. -/
theorem length_numbers (number : kind.IsNumber)
    (done : numberElements head kind address used args = .ok made) :
    made = [] ∨ used + (laid made).length ≤ MemoryMap.heapBase.toNat - address.toNat := by
  induction args generalizing used made with
  | nil =>
    cases done
    exact .inl rfl
  | cons token args ih =>
    rw [numberElements] at done
    obtain ⟨e, first, done⟩ := except_bind_ok done
    obtain ⟨others, rest, done⟩ := except_bind_ok done
    cases done
    have reads := numberElement_ok number first
    have each : e.bytes.length = kind.align := by
      rw [reads.bytes, DataValue.length_image, reads.denotes.size_eq number]
    have size : (laid ((used, e) :: others)).length =
        e.count * kind.align + (laid others).length := by
      simp [laid, each]
    have room := numberElement_room number first
    rw [size]
    rcases ih rest with rfl | more
    · exact .inr room
    · exact .inr (by omega)

theorem length_space (done : spaceElement head address args = .ok e) :
    e.count = 1 ∧ e.bytes.length ≤ MemoryMap.heapBase.toNat - address.toNat := by
  unfold spaceElement at done
  split at done
  · split at done
    · cases done
    · split at done
      · cases done
      · split at done
        · next room =>
          cases done
          exact ⟨rfl, by simpa using room⟩
        · cases done
  · cases done

/-- Only texts can have more bytes than a word counts. -/
theorem length_laid_lt (done : elements head kind address args = .ok made)
    (other : ¬ (kind = .ascii ∨ kind = .asciiz)) : (laid made).length < 0x100000000 := by
  have top : MemoryMap.heapBase.toNat = 0x10040000 := rfl
  cases kind with
  | word | half | byte | float | double =>
    rcases length_numbers (by simp [DataKind.IsNumber]) done with rfl | room
    · exact Nat.zero_lt_succ _
    · omega
  | ascii | asciiz => simp at other
  | space =>
    obtain ⟨e, found, done⟩ := except_bind_ok done
    cases done
    obtain ⟨once, room⟩ := length_space found
    have size : (laid [(0, e)]).length = e.bytes.length := by simp [laid, once]
    omega

end Layout

end MipsLab
