import MipsLab.Debug.Command
import MipsLab.Proofs.Text.Numerals
import MipsLab.Proofs.Text.Words

/-! The grammar of the prompt. Which words make a command is written down as a relation, apart from
the parser: heads by their two names, registers by their names and numbers, and numbers by a
relation that is a parameter. Where these are digits and nothing else it is the documented grammar;
the parser follows the one with a plus sign allowed before a flag or a count. -/
namespace MipsLab

def Radix.letter : Radix → String
  | signed => "i"
  | unsigned => "u"
  | hex => "x"
  | binary => "b"

def Precision.letter : Precision → String
  | single => "f"
  | double => "d"

/-- Doublewords are not printed as integers. -/
def Width.letter? : Width → Option String
  | word => some "w"
  | half => some "h"
  | byte => some "b"
  | double => none

namespace PromptCommand

/-- Decimal digits and the number that they make, below `2 ^ 64`. -/
structure Numeral (word : String) (n : Nat) : Prop where
  filled : word.toList ≠ []
  digits : ∀ c ∈ word.toList, c.isDigit = true
  value : Nat.ofDigitChars 10 word.toList 0 = n
  fits : n < 0x10000000000000000

/-- A numeral, after at most one plus sign. -/
inductive Marked : String → Nat → Prop where
  | plain {word : String} {n : Nat} (numeral : Numeral word n) : Marked word n
  | plus {word : String} {n : Nat} (numeral : Numeral word n) : Marked ("+" ++ word) n

inductive IntRegister : String → Reg → Prop where
  | name {name : String} {r : Reg} (named : Register.names[r.val]? = some name) :
    IntRegister ("$" ++ name) r
  | frame : IntRegister "$s8" Register.fp
  | number {digits : String} {r : Reg} (numeral : Numeral digits r.val) :
    IntRegister ("$" ++ digits) r

inductive FloatRegister : String → FReg → Prop where
  | number {digits : String} {r : FReg} (numeral : Numeral digits r.val) :
    FloatRegister ("$f" ++ digits) r

/-- What may stand behind `print`, if flags and counts are written as in `number`. -/
inductive PrintForm (number : String → Nat → Prop) : List String → Query → Prop where
  | flag {word : String} {f : Flag} (numeral : number word f.val) :
    PrintForm number [word] (.flag f)
  | register {word : String} {r : Reg} (named : IntRegister word r) (radix : Radix) :
    PrintForm number [word, radix.letter] (.register r radix)
  | floatBits {word : String} {r : FReg} (named : FloatRegister word r) (radix : Radix) :
    PrintForm number [word, radix.letter] (.floatBits r radix)
  | float {word : String} {r : FReg} (named : FloatRegister word r) (fmt : Precision) :
    PrintForm number [word, fmt.letter] (.float r fmt)
  | text {label : String} (unnamed : ∀ r, ¬ IntRegister label r)
      (unfloated : ∀ r, ¬ FloatRegister label r) :
    PrintForm number [label, "s"] (.text label)
  | ints {label kind word : String} {width : Width} {count : Nat}
      (letter : width.letter? = some kind) (numeral : number word count) (positive : 1 ≤ count)
      (radix : Radix) :
    PrintForm number [label, kind, word, radix.letter] (.ints label width count radix)
  | floats {label word : String} {count : Nat} (fmt : Precision) (numeral : number word count)
      (positive : 1 ≤ count) :
    PrintForm number [label, fmt.letter, word] (.floats label fmt count)
  | chars {label word : String} {count : Nat} (numeral : number word count) (positive : 1 ≤ count) :
    PrintForm number [label, "c", word] (.chars label count)

/-- The words of a command. Every head has two names. -/
inductive Form (number : String → Nat → Prop) : List String → PromptCommand → Prop where
  | setBreak {head file line : String} {n : Nat} (named : head = "b" ∨ head = "break")
      (numeral : Numeral line n) : Form number [head, file, line] (.setBreak file n)
  | next {head : String} (named : head = "n" ∨ head = "next") : Form number [head] .next
  | continue {head : String} (named : head = "c" ∨ head = "continue") :
    Form number [head] .continue
  | info {head : String} {operands : List String} (named : head = "i" ∨ head = "info")
      (bare : operands = [] ∨ operands = ["b"]) : Form number (head :: operands) .info
  | delete {head : String} (named : head = "d" ∨ head = "delete") : Form number [head] .delete
  | print {head : String} {operands : List String} {q : Query}
      (named : head = "p" ∨ head = "print") (form : PrintForm number operands q) :
    Form number (head :: operands) (.print q)
  | quit {head : String} (named : head = "q" ∨ head = "quit") : Form number [head] .quit
  | reverse {head : String} (named : head = "r" ∨ head = "reverse") :
    Form number [head] .reverse
  | help {head : String} (named : head = "h" ∨ head = "help") : Form number [head] .help

/-- The line is a command in words of the grammar. -/
def Accepts (number : String → Nat → Prop) (line : String) (c : PromptCommand) : Prop :=
  ∃ words, Text.Separates words line.toList ∧ Form number words c

section Numbers

variable {word : String} {n : Nat}

theorem naturalIn?_iff : Text.naturalIn? 10 64 word.toList = some n ↔ Numeral word n := by
  have room : Nat.pow 2 64 = 0x10000000000000000 := by norm_num
  rw [Text.naturalIn?, Option.filter_eq_some_iff, Text.natural?_iff, room]
  constructor
  · rintro ⟨⟨filled, digits, value⟩, fits⟩
    exact ⟨filled, digits, value, by simpa using fits⟩
  · rintro ⟨filled, digits, value, fits⟩
    exact ⟨⟨filled, digits, value⟩, by simpa using fits⟩

theorem Numeral.unmarked (numeral : Numeral word n) :
    Text.dropStart? ['+'] word.toList = none := by
  cases dropped : Text.dropStart? ['+'] word.toList with
  | none => rfl
  | some rest =>
    have plus := numeral.digits '+' (by simp [Text.eq_append_of_dropStart? dropped])
    exact absurd plus (by decide)

theorem unsigned?_iff : Text.unsigned? 64 word.toList = some n ↔ Marked word n := by
  constructor
  · intro read
    rw [Text.unsigned?] at read
    cases dropped : Text.dropStart? ['+'] word.toList with
    | none =>
      rw [dropped, Option.getD_none] at read
      exact .plain (naturalIn?_iff.mp read)
    | some rest =>
      have spelled : word = "+" ++ String.ofList rest := by
        rw [← String.toList_inj, Text.eq_append_of_dropStart? dropped]
        simp
      rw [dropped, Option.getD_some, ← @String.toList_ofList rest] at read
      exact spelled ▸ .plus (naturalIn?_iff.mp read)
  · rintro (numeral | numeral)
    · rw [Text.unsigned?, numeral.unmarked, Option.getD_none]
      exact naturalIn?_iff.mpr numeral
    · next digits =>
      have front : ("+" ++ digits).toList = ['+'] ++ digits.toList := by simp
      rw [Text.unsigned?, front, Text.dropStart?_append, Option.getD_some]
      exact naturalIn?_iff.mpr numeral

theorem count?_iff : count? word = some n ↔ Marked word n ∧ 1 ≤ n := by
  rw [count?, Option.filter_eq_some_iff, unsigned?_iff, decide_eq_true_iff]

theorem flag?_iff {f : Flag} : flag? word = some f ↔ Marked word f.val := by
  rw [flag?, Option.bind_eq_some_iff]
  constructor
  · rintro ⟨n, read, found⟩
    split at found
    · cases found
      exact unsigned?_iff.mp read
    · cases found
  · intro numeral
    exact ⟨f.val, unsigned?_iff.mpr numeral, dif_pos f.isLt⟩

end Numbers

section Registers

variable {word : String} {r : Fin 32}

theorem numeral_of_natural? {digits : List Char} {n : Nat} (small : n < 32)
    (read : Text.natural? 10 digits = some n) : Numeral (String.ofList digits) n := by
  obtain ⟨filled, all, value⟩ := Text.natural?_iff.mp read
  exact ⟨by simpa using filled, by simpa using all, by simpa using value, by omega⟩

theorem Numeral.natural? {n : Nat} (numeral : Numeral word n) :
    Text.natural? 10 word.toList = some n :=
  Text.natural?_iff.mpr ⟨numeral.filled, numeral.digits, numeral.value⟩

theorem ofNat?_iff {n : Nat} : Register.ofNat? n = some r ↔ n = r.val := by
  rw [Register.ofNat?]
  split
  · simp [Fin.ext_iff]
  · next wide =>
    have small := r.isLt
    simp only [reduceCtorEq, false_iff]
    omega

theorem ofToken?_iff : Register.ofToken? word.toList = some r ↔ IntRegister word r := by
  constructor
  · intro found
    unfold Register.ofToken? at found
    split at found
    · next name spelled =>
      have whole : word = "$" ++ String.ofList name := by
        rw [← String.toList_inj, spelled]
        simp
      rw [whole]
      unfold Register.named? at found
      split at found
      · next n read =>
        obtain rfl := ofNat?_iff.mp found
        exact .number (numeral_of_natural? r.isLt read)
      · split at found
        · next same =>
          cases found
          rw [same]
          exact .frame
        · have named := List.find?_some found
          rw [beq_iff_eq, Option.map_eq_some_iff] at named
          obtain ⟨listed, at_r, rfl⟩ := named
          rw [String.ofList_toList]
          exact .name at_r
    · cases found
  · rintro (named | _ | numeral)
    · have canonical : ∀ r : Reg, Register.names[r.val]?.bind
          (fun name => Register.ofToken? ("$" ++ name).toList) = some r := by decide +kernel
      have found := canonical r
      rwa [named] at found
    · decide +kernel
    · next digits =>
      have front : ("$" ++ digits).toList = '$' :: digits.toList := by simp
      rw [front]
      show Register.named? digits.toList = some r
      rw [Register.named?, numeral.natural?]
      exact ofNat?_iff.mpr rfl

theorem floatOfToken?_iff : Register.floatOfToken? word.toList = some r ↔
    FloatRegister word r := by
  constructor
  · intro found
    unfold Register.floatOfToken? at found
    split at found
    · next name spelled =>
      unfold Register.floatNamed? at found
      split at found
      · next digits =>
        have whole : word = "$f" ++ String.ofList digits := by
          rw [← String.toList_inj, spelled]
          simp
        obtain ⟨n, read, same⟩ := Option.bind_eq_some_iff.mp found
        obtain rfl := ofNat?_iff.mp same
        exact whole ▸ .number (numeral_of_natural? r.isLt read)
      · cases found
    · cases found
  · rintro ⟨numeral⟩
    next digits =>
    have front : ("$f" ++ digits).toList = '$' :: 'f' :: digits.toList := by simp
    rw [front]
    show (Text.natural? 10 digits.toList).bind Register.ofNat? = some r
    rw [numeral.natural?]
    exact ofNat?_iff.mpr rfl

theorem ofToken?_eq_none_iff :
    Register.ofToken? word.toList = none ↔ ∀ r, ¬ IntRegister word r := by
  simp only [Option.eq_none_iff_forall_ne_some, Ne, ofToken?_iff]

theorem floatOfToken?_eq_none_iff :
    Register.floatOfToken? word.toList = none ↔ ∀ r, ¬ FloatRegister word r := by
  simp only [Option.eq_none_iff_forall_ne_some, Ne, floatOfToken?_iff]

/-- No word names registers of both kinds. -/
theorem FloatRegister.not_int {f : FReg} (float : FloatRegister word f) : ¬ IntRegister word r := by
  obtain ⟨numeral⟩ := float
  next digits =>
  have spelled {name : String} (same : "$f" ++ digits = "$" ++ name) :
      name.toList = 'f' :: digits.toList := by
    have lists := congrArg String.toList same
    simpa using lists.symm
  generalize whole : "$f" ++ digits = word
  rintro (named | _ | plain)
  · next name =>
    have only : ∀ r : Reg, ∀ name ∈ Register.names[r.val]?, name.toList.head? = some 'f' →
        name.toList = ['f', 'p'] := by decide +kernel
    have letters := only r name named (by rw [spelled whole]; rfl)
    rw [spelled whole] at letters
    have digit := numeral.digits 'p' (by rw [(List.cons.inj letters).2]; simp)
    exact absurd digit (by decide)
  · have letters := @spelled "s8" whole
    exact absurd letters (by simp)
  · have digit := plain.digits 'f' (by rw [spelled whole]; simp)
    exact absurd digit (by decide)

end Registers

section Forms

variable {word letter : String}

theorem radix_iff {radix : Radix} : Radix.ofLetter? word = some radix ↔ word = radix.letter := by
  constructor
  · intro found
    unfold Radix.ofLetter? at found
    split at found <;> first | cases found; rfl | cases found
  · rintro rfl
    cases radix <;> rfl

theorem precision?_iff {fmt : Precision} : precision? word = some fmt ↔ word = fmt.letter := by
  constructor
  · intro found
    unfold precision? at found
    split at found <;> cases found <;> rfl
  · rintro rfl
    cases fmt <;> rfl

theorem width?_iff {width : Width} : width? word = some width ↔ width.letter? = some word := by
  constructor
  · intro found
    unfold width? at found
    split at found <;> cases found <;> rfl
  · intro found
    cases width <;> cases found <;> rfl

/-- Two words behind `print`, a register or a label and a letter. -/
theorem query?_pair {q : Query} :
    query? [word, letter] = some q ↔ PrintForm Marked [word, letter] q := by
  constructor
  · intro found
    rw [query?] at found
    split at found
    · next none_int none_float =>
      split at found
      · next s =>
        cases found
        exact s ▸ .text (ofToken?_eq_none_iff.mp none_int) (floatOfToken?_eq_none_iff.mp none_float)
      · cases found
    · unfold registerQuery? at found
      split at found
      · next radix r letter int =>
        cases found
        exact radix_iff.mp letter ▸ .register (ofToken?_iff.mp int) radix
      · next radix r letter _ float =>
        cases found
        exact radix_iff.mp letter ▸ .floatBits (floatOfToken?_iff.mp float) radix
      · next r _ float =>
        obtain ⟨fmt, letter, rfl⟩ := Option.map_eq_some_iff.mp found
        exact precision?_iff.mp letter ▸ .float (floatOfToken?_iff.mp float) fmt
      · cases found
  · intro form
    generalize operands : [word, letter] = words at form
    cases form with
    | register named radix =>
      cases operands
      simp only [query?, ofToken?_iff.mpr named, registerQuery?, radix_iff.mpr rfl]
    | floatBits named radix =>
      cases operands
      have unnamed := ofToken?_eq_none_iff.mpr fun _ => named.not_int
      simp only [query?, unnamed, floatOfToken?_iff.mpr named, registerQuery?, radix_iff.mpr rfl]
    | float named fmt =>
      cases operands
      have unnamed := ofToken?_eq_none_iff.mpr fun _ => named.not_int
      have other : Radix.ofLetter? fmt.letter = none := by cases fmt <;> rfl
      simp only [query?, unnamed, floatOfToken?_iff.mpr named, registerQuery?, other,
        precision?_iff.mpr rfl, Option.map_some]
    | text unnamed unfloated =>
      cases operands
      simp only [query?, ofToken?_eq_none_iff.mpr unnamed,
        floatOfToken?_eq_none_iff.mpr unfloated, if_true]
    | _ => cases operands

theorem query?_flag {q : Query} : query? [word] = some q ↔ PrintForm Marked [word] q := by
  constructor
  · intro found
    obtain ⟨f, read, rfl⟩ := Option.map_eq_some_iff.mp found
    exact .flag (flag?_iff.mp read)
  · rintro ⟨numeral⟩
    exact Option.map_eq_some_iff.mpr ⟨_, flag?_iff.mpr numeral, rfl⟩

/-- A label, a letter and a count. -/
theorem query?_triple {label : String} {q : Query} :
    query? [label, letter, word] = some q ↔ PrintForm Marked [label, letter, word] q := by
  constructor
  · intro found
    obtain ⟨count, read, found⟩ := Option.bind_eq_some_iff.mp found
    obtain ⟨numeral, positive⟩ := count?_iff.mp read
    split at found
    · next c =>
      cases found
      exact c ▸ .chars numeral positive
    · obtain ⟨fmt, letter, rfl⟩ := Option.map_eq_some_iff.mp found
      exact precision?_iff.mp letter ▸ .floats fmt numeral positive
  · rintro (_ | _ | _ | _ | _ | _ | ⟨fmt, numeral, positive⟩ | ⟨numeral, positive⟩)
    · refine Option.bind_eq_some_iff.mpr ⟨_, count?_iff.mpr ⟨numeral, positive⟩, ?_⟩
      have other : fmt.letter ≠ "c" := by cases fmt <;> decide
      rw [if_neg other, precision?_iff.mpr rfl]
      rfl
    · exact Option.bind_eq_some_iff.mpr ⟨_, count?_iff.mpr ⟨numeral, positive⟩, if_pos rfl⟩

/-- A label, the letters of a width and of a radix, and a count. -/
theorem query?_quadruple {label kind : String} {q : Query} :
    query? [label, kind, word, letter] = some q ↔
      PrintForm Marked [label, kind, word, letter] q := by
  constructor
  · intro found
    obtain ⟨width, wide, found⟩ := Option.bind_eq_some_iff.mp found
    obtain ⟨count, read, found⟩ := Option.bind_eq_some_iff.mp found
    obtain ⟨radix, letter, same⟩ := Option.bind_eq_some_iff.mp found
    obtain ⟨numeral, positive⟩ := count?_iff.mp read
    cases same
    exact radix_iff.mp letter ▸ .ints (width?_iff.mp wide) numeral positive radix
  · rintro (_ | _ | _ | _ | _ | ⟨wide, numeral, positive, radix⟩)
    refine Option.bind_eq_some_iff.mpr ⟨_, width?_iff.mpr wide, ?_⟩
    refine Option.bind_eq_some_iff.mpr ⟨_, count?_iff.mpr ⟨numeral, positive⟩, ?_⟩
    exact Option.bind_eq_some_iff.mpr ⟨_, radix_iff.mpr rfl, rfl⟩

theorem query?_iff {words : List String} {q : Query} :
    query? words = some q ↔ PrintForm Marked words q := by
  rcases words with _ | ⟨first, _ | ⟨second, _ | ⟨third, _ | ⟨fourth, _ | ⟨fifth, more⟩⟩⟩⟩⟩
  · exact iff_of_false (by simp [query?]) (by rintro ⟨⟩)
  · exact query?_flag
  · exact query?_pair
  · exact query?_triple
  · exact query?_quadruple
  · exact iff_of_false (by simp [query?]) (by rintro ⟨⟩)

theorem ofWords?_iff {words : List String} {c : PromptCommand} :
    ofWords? words = some c ↔ Form Marked words c := by
  constructor
  · intro found
    unfold ofWords? at found
    split at found
    · obtain ⟨n, read, same⟩ := Option.bind_eq_some_iff.mp found
      cases same
      exact .setBreak (.inl rfl) (naturalIn?_iff.mp read)
    · obtain ⟨n, read, same⟩ := Option.bind_eq_some_iff.mp found
      cases same
      exact .setBreak (.inr rfl) (naturalIn?_iff.mp read)
    -- `print`, or a command that is a single word
    all_goals first
      | obtain ⟨q, read, rfl⟩ := Option.map_eq_some_iff.mp found
        exact .print (by simp) (query?_iff.mp read)
      | cases found <;> constructor <;> simp
  · rintro (⟨rfl | rfl, numeral⟩ | ⟨rfl | rfl⟩ | ⟨rfl | rfl⟩ | ⟨rfl | rfl, rfl | rfl⟩ | ⟨rfl | rfl⟩ |
      ⟨rfl | rfl, form⟩ | ⟨rfl | rfl⟩ | ⟨rfl | rfl⟩ | ⟨rfl | rfl⟩)
    all_goals first
      | rfl
      | exact Option.bind_eq_some_iff.mpr ⟨_, naturalIn?_iff.mpr numeral, rfl⟩
      | exact Option.map_eq_some_iff.mpr ⟨_, query?_iff.mpr form, rfl⟩

theorem ofLine?_iff {line : String} {c : PromptCommand} :
    ofLine? line = some c ↔ Accepts Marked line c := by
  rw [ofLine?, ofWords?_iff]
  constructor
  · intro form
    exact ⟨_, Text.separates_iff.mpr rfl, form⟩
  · rintro ⟨words, separates, form⟩
    rwa [separates.words_eq]

end Forms

section Signs

variable {number other : String → Nat → Prop} {words : List String} {c : PromptCommand}

theorem PrintForm.mono {q : Query} (form : PrintForm number words q)
    (numbers : ∀ word n, number word n → other word n) : PrintForm other words q := by
  cases form with
  | flag numeral => exact .flag (numbers _ _ numeral)
  | register named radix => exact .register named radix
  | floatBits named radix => exact .floatBits named radix
  | float named fmt => exact .float named fmt
  | text unnamed unfloated => exact .text unnamed unfloated
  | ints letter numeral positive radix => exact .ints letter (numbers _ _ numeral) positive radix
  | floats fmt numeral positive => exact .floats fmt (numbers _ _ numeral) positive
  | chars numeral positive => exact .chars (numbers _ _ numeral) positive

theorem Form.mono (form : Form number words c)
    (numbers : ∀ word n, number word n → other word n) : Form other words c := by
  cases form with
  | setBreak named numeral => exact .setBreak named numeral
  | info named bare => exact .info named bare
  | print named form => exact .print named (form.mono numbers)
  | _ => constructor; assumption

/-- The words are those of the documented grammar but for a plus sign before one of them. -/
def Signed (form : List String → Prop) (words : List String) : Prop :=
  ∃ front digits back, words = front ++ ("+" ++ digits) :: back ∧ form (front ++ digits :: back)

theorem PrintForm.unmarked {q : Query} (form : PrintForm Marked words q) :
    PrintForm Numeral words q ∨ Signed (PrintForm Numeral · q) words := by
  cases form with
  | flag marked =>
    cases marked with
    | plain numeral => exact .inl (.flag numeral)
    | plus numeral => exact .inr ⟨[], _, [], rfl, .flag numeral⟩
  | register named radix => exact .inl (.register named radix)
  | floatBits named radix => exact .inl (.floatBits named radix)
  | float named fmt => exact .inl (.float named fmt)
  | text unnamed unfloated => exact .inl (.text unnamed unfloated)
  | @ints label kind _ _ _ letter marked positive radix =>
    cases marked with
    | plain numeral => exact .inl (.ints letter numeral positive radix)
    | plus numeral => exact .inr ⟨[label, kind], _, [_], rfl, .ints letter numeral positive radix⟩
  | @floats label _ _ fmt marked positive =>
    cases marked with
    | plain numeral => exact .inl (.floats fmt numeral positive)
    | plus numeral => exact .inr ⟨[label, _], _, [], rfl, .floats fmt numeral positive⟩
  | @chars label _ _ marked positive =>
    cases marked with
    | plain numeral => exact .inl (.chars numeral positive)
    | plus numeral => exact .inr ⟨[label, _], _, [], rfl, .chars numeral positive⟩

theorem Form.unmarked (form : Form Marked words c) :
    Form Numeral words c ∨ Signed (Form Numeral · c) words := by
  cases form with
  | setBreak named numeral => exact .inl (.setBreak named numeral)
  | info named bare => exact .inl (.info named bare)
  | @print head _ _ named form =>
    rcases form.unmarked with plain | ⟨front, digits, back, rfl, plain⟩
    · exact .inl (.print named plain)
    · exact .inr ⟨head :: front, digits, back, rfl, .print named plain⟩
  | _ => exact .inl (by constructor; assumption)

/-- A line is understood exactly if it is in the grammar with a plus sign allowed before a flag or a
count, and it is understood as what it says there. Every line of the documented grammar is, and any
other one that is would be documented without its plus sign. -/
theorem ofLine?_grammar (line : String) (c : PromptCommand) :
    (ofLine? line = some c ↔ Accepts Marked line c) ∧
    (Accepts Numeral line c → ofLine? line = some c) ∧
    (ofLine? line = some c → Accepts Numeral line c ∨
      ∃ words, Text.Separates words line.toList ∧ Signed (Form Numeral · c) words) := by
  refine ⟨ofLine?_iff, ?_, ?_⟩
  · rintro ⟨words, separates, form⟩
    have marked := form.mono fun word n => @Marked.plain word n
    exact ofLine?_iff.mpr ⟨words, separates, marked⟩
  · intro understood
    obtain ⟨words, separates, form⟩ := ofLine?_iff.mp understood
    rcases form.unmarked with plain | signed
    · exact .inl ⟨words, separates, plain⟩
    · exact .inr ⟨words, separates, signed⟩

/-- A word may be a label in one place and a letter in the next. -/
example : ofLine? "p w w 4 b" = some (.print (.ints "w" .word 4 .binary)) := by decide +kernel

/-- A flag with a plus sign is printed, and it is in no form of the documented grammar. -/
theorem ofLine?_signed : ¬ (ofLine? "p +3" = some (.print (.flag 3)) ↔
    Accepts Numeral "p +3" (.print (.flag 3))) := by
  have understood : ofLine? "p +3" = some (.print (.flag 3)) := by decide +kernel
  have split : (Text.words "p +3".toList).map String.ofList = ["p", "+3"] := by decide +kernel
  intro documented
  obtain ⟨words, separates, form⟩ := documented.mp understood
  rw [← separates.words_eq, split] at form
  cases form with
  | print named form =>
    cases form with
    | flag numeral => exact absurd (numeral.digits '+' (by simp)) (by decide)

end Signs

end PromptCommand

end MipsLab
