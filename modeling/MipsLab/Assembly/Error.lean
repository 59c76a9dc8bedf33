import MipsLab.Source.Operand
import MipsLab.Source.Segment
import MipsLab.Source.Tag
import MipsLab.Isa.Disassembly

/-! What can go wrong while a line is assembled. -/
namespace MipsLab

inductive AssemblyError where
  | badRegister (token : String)
  | malformedImmediate (token : String)
  | immediateOutOfRange (name : String) (value : Int)
  | undefinedLabel (label : String)
  | duplicateLabel (label : String)
  | badLabel (label : String)
  | misaligned (directive : String) (address : Word) (align : Nat)
  | invalidAlignment (exponent : Int)
  | unknownInstruction (name : String)
  | unknownDirective (name : String)
  | wrongOperands (name expected : String)
  | malformedString
  | wrongSegment (name : String) (segment : Segment)
  | segmentOverflow (segment : Segment)
  deriving DecidableEq

namespace AssemblyError

def kind : AssemblyError → String
  | badRegister _ => "BadRegister"
  | malformedImmediate _ => "MalformedImmediate"
  | immediateOutOfRange .. => "ImmediateOutOfRange"
  | undefinedLabel _ => "UndefinedLabel"
  | duplicateLabel _ => "DuplicateLabel"
  | badLabel _ => "BadLabel"
  | misaligned .. => "MisalignedDirective"
  | invalidAlignment _ => "MisalignedDirective"
  | unknownInstruction _ => "UnknownInstruction"
  | unknownDirective _ => "UnknownDirective"
  | wrongOperands .. => "WrongOperands"
  | malformedString => "MalformedString"
  | wrongSegment .. => "WrongSegment"
  | segmentOverflow _ => "SegmentOverflow"

def message : AssemblyError → String
  | badRegister token => "invalid register `" ++ token ++ "`"
  | malformedImmediate token => "malformed immediate `" ++ token ++ "`"
  | immediateOutOfRange name value =>
    "immediate " ++ toString value ++ " is out of range for `" ++ name ++ "`"
  | undefinedLabel label => "undefined label `" ++ label ++ "`"
  | duplicateLabel label => "label `" ++ label ++ "` is already defined"
  | badLabel label => "malformed label `" ++ label ++ "`"
  | misaligned directive address align =>
    directive ++ " at " ++ hexWord address ++ " is not aligned to " ++ toString align ++
      " bytes (use .align)"
  | invalidAlignment exponent =>
    ".align expects a power of two exponent in 0..=3, got " ++ toString exponent
  | unknownInstruction name => "unknown instruction `" ++ name ++ "`"
  | unknownDirective name => "unknown directive `" ++ name ++ "`"
  | wrongOperands name expected => "`" ++ name ++ "` expects " ++ expected
  | malformedString => "malformed string literal"
  | wrongSegment name segment =>
    "`" ++ name ++ "` is not allowed in the " ++ segment.name ++ " segment"
  | segmentOverflow segment => segment.name ++ " segment overflow"

def ofLex : LexError → AssemblyError
  | .badLabel label => badLabel label
  | .malformedString => malformedString

def ofOperand : OperandError → AssemblyError
  | .badRegister token => badRegister token
  | .malformedImmediate token => malformedImmediate token

end AssemblyError

structure LocatedError where
  tag : SourceTag
  error : AssemblyError
  deriving DecidableEq

def LocatedError.message (e : LocatedError) : String := e.tag.text ++ ": " ++ e.error.message

end MipsLab
