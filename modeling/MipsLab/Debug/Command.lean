import MipsLab.Debug.Query

/-! The commands of the prompt. -/
namespace MipsLab

inductive PromptCommand where
  | setBreak (file : String) (line : Nat)
  | next
  | continue
  | info
  | delete
  | print (q : Query)
  | quit
  | reverse
  | help
  deriving DecidableEq

namespace PromptCommand

/-- A number of elements; at least one is asked for. -/
def count? (word : String) : Option Nat :=
  (Text.unsigned? 64 word.toList).filter (1 ≤ ·)

def flag? (word : String) : Option Flag :=
  (Text.unsigned? 64 word.toList).bind fun n => if h : n < 8 then some ⟨n, h⟩ else none

def precision? : String → Option Precision
  | "f" => some .single
  | "d" => some .double
  | _ => none

def width? : String → Option Width
  | "w" => some .word
  | "h" => some .half
  | "b" => some .byte
  | _ => none

/-- A query about a register: the word behind it is a base, or for a float register a
precision. -/
def registerQuery? (gpr : Option Reg) (fpr : Option FReg) (format : String) : Option Query :=
  match Radix.ofLetter? format, gpr, fpr with
  | some radix, some r, _ => some (.register r radix)
  | some radix, none, some r => some (.floatBits r radix)
  | none, _, some r => (precision? format).map (.float r)
  | _, _, _ => none

def query? : List String → Option Query
  | [word] => (flag? word).map .flag
  | [word, format] =>
    match Register.ofToken? word.toList, Register.floatOfToken? word.toList with
    | none, none => if format = "s" then some (.text word) else none
    | gpr, fpr => registerQuery? gpr fpr format
  | [label, kind, n] => do
    let count ← count? n
    if kind = "c" then some (.chars label count)
    else (precision? kind).map fun fmt => .floats label fmt count
  | [label, kind, n, format] => do
    let width ← width? kind
    let count ← count? n
    let radix ← Radix.ofLetter? format
    return .ints label width count radix
  | _ => none

def ofWords? : List String → Option PromptCommand
  | ["b", file, line] | ["break", file, line] => do
    let n ← Text.naturalIn? 10 64 line.toList
    return .setBreak file n
  | ["n"] | ["next"] => some next
  | ["c"] | ["continue"] => some .continue
  | ["i"] | ["info"] | ["i", "b"] | ["info", "b"] => some info
  | ["d"] | ["delete"] => some delete
  | "p" :: args | "print" :: args => (query? args).map print
  | ["q"] | ["quit"] => some quit
  | ["r"] | ["reverse"] => some reverse
  | ["h"] | ["help"] => some help
  | _ => none

def ofLine? (line : String) : Option PromptCommand :=
  ofWords? ((Text.words line.toList).map String.ofList)

end PromptCommand

end MipsLab
