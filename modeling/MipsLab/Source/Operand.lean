import MipsLab.Source.Literal
import MipsLab.Isa.Register

/-! Operands: registers, integers, label expressions and memory operands. -/
namespace MipsLab

inductive Operand where
  | gpr (r : Reg)
  | fpr (r : FReg)
  | int (value : Int)
  | label (name : String) (offset : Int)
  | mem (label : Option String) (offset : Int) (base : Reg)
  deriving DecidableEq, Inhabited

inductive OperandError where
  | badRegister (token : String)
  | malformedImmediate (token : String)
  deriving DecidableEq

namespace Operand

/-- `name`, `name+N` or `name-N`. The first character belongs to the name. -/
def labelExpression? (text : List Char) : Option (String × Int) :=
  let isSign (c : Char) : Bool := c = '+' || c = '-'
  let name := text.take 1 ++ (text.drop 1).takeWhile (! isSign ·)
  let rest := (text.drop 1).dropWhile (! isSign ·)
  if isIdentifier name then
    if rest.isEmpty then some (String.ofList name, 0)
    else (Literal.int? rest).map fun offset => (String.ofList name, offset)
  else none

/-- A displacement: nothing, an integer or a label expression. -/
def displacement? (text : List Char) : Option (Option String × Int) :=
  if text.isEmpty then some (none, 0)
  else
    match Literal.int? text with
    | some v => some (none, v)
    | none => (labelExpression? text).map fun (name, offset) => (some name, offset)

def ofToken (token : List Char) : Except OperandError Operand :=
  let text := String.ofList token
  match token with
  | '$' :: _ =>
    match Register.floatOfToken? token with
    | some r => .ok (.fpr r)
    | none =>
      match Register.ofToken? token with
      | some r => .ok (.gpr r)
      | none => .error (.badRegister text)
  | _ =>
    match Text.cutFirst (· = '(') token with
    | some (displacement, _, inner) =>
      match Text.dropEnd? [')'] inner with
      | none => .error (.malformedImmediate text)
      | some register =>
        match Register.ofToken? register with
        | none => .error (.badRegister (String.ofList register))
        | some base =>
          match displacement? displacement with
          | none => .error (.malformedImmediate (String.ofList displacement))
          | some (name, offset) => .ok (.mem name offset base)
    | none =>
      match Literal.int? token with
      | some v => .ok (.int v)
      | none =>
        match labelExpression? token with
        | some (name, offset) => .ok (.label name offset)
        | none => .error (.malformedImmediate text)

end Operand

end MipsLab
