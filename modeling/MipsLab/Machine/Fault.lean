import MipsLab.Isa.Disassembly

/-! Faults: why an instruction cannot be executed. -/
namespace MipsLab

inductive Fault where
  | misalignedAccess (address : Word) (width : Nat)
  | addressOutOfRange (address : Word)
  | invalidRegister (name : String)
  | arithmeticOverflow
  | divideByZero
  | invalidProgramCounter (pc : Word)
  | invalidSyscall (code : Int)
  | invalidInput (text : String)
  | instructionLimit (limit : Nat)
  deriving DecidableEq

namespace Fault

def kind : Fault → String
  | misalignedAccess .. => "MisalignedAccess"
  | addressOutOfRange _ => "AddressOutOfRange"
  | invalidRegister _ => "InvalidRegister"
  | arithmeticOverflow => "ArithmeticOverflow"
  | divideByZero => "DivideByZero"
  | invalidProgramCounter _ => "InvalidProgramCounter"
  | invalidSyscall _ => "InvalidSyscall"
  | invalidInput _ => "InvalidInput"
  | instructionLimit _ => "InstructionLimit"

def message : Fault → String
  | misalignedAccess address width =>
    "misaligned " ++ toString width ++ "-byte access at " ++ hexWord address
  | addressOutOfRange address => "address " ++ hexWord address ++ " is out of range"
  | invalidRegister name => "invalid register `" ++ name ++ "`"
  | arithmeticOverflow => "arithmetic overflow"
  | divideByZero => "division by zero"
  | invalidProgramCounter pc => "no instruction at " ++ hexWord pc
  | invalidSyscall code => "invalid syscall " ++ toString code
  | invalidInput text => "invalid input `" ++ text ++ "`"
  | instructionLimit limit => "instruction limit of " ++ toString limit ++ " reached"

end Fault

end MipsLab
