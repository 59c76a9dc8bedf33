import MipsLab.Isa.Mnemonic

/-! The canonical text of a basic instruction. Logical constants, upper halves and memory
displacements are written in hexadecimal with eight digits, all other constants in decimal. -/
namespace MipsLab

def hexWord (w : Word) : String := Text.hexText 8 w.toNat

namespace Target

def text (t : Target) : String := t.label.getD (hexWord t.address)

end Target

namespace Instruction

def line (head : String) (operands : List String) : String :=
  if operands.isEmpty then head else head ++ " " ++ ", ".intercalate operands

def text (i : Instruction) : String :=
  let r (i : Reg) := Register.text i.val
  let f (i : FReg) := Register.floatText i.val
  match i with
  | reg op rd rs rt => line op.name [r rd, r rs, r rt]
  | imm op rt rs value =>
    let shown := if op.isLogical then hexWord (BitVec.ofInt 32 value) else toString value
    line op.name [r rt, r rs, shown]
  | lui rt upper => line "lui" [r rt, hexWord (upper.setWidth 32)]
  | hiLo op rs rt => line op.name [r rs, r rt]
  | count op rd rs => line op.name [r rd, r rs]
  | hiLoMove op rd => line op.name [r rd]
  | jump link target => line (Mnemonic.jump link).name [target.text]
  | jumpReg none rs => line "jr" [r rs]
  | jumpReg (some rd) rs =>
    if rd = Register.ra then line "jalr" [r rs] else line "jalr" [r rd, r rs]
  | branch op rs rt target =>
    if op.comparesRegisters then line op.name [r rs, r rt, target.text]
    else line op.name [r rs, target.text]
  | floatArith op fmt fd fs ft => line (Mnemonic.floatArith op fmt).name [f fd, f fs, f ft]
  | floatUnary op fmt fd fs => line (Mnemonic.floatUnary op fmt).name [f fd, f fs]
  | floatToWord mode fmt fd fs => line (Mnemonic.floatToWord mode fmt).name [f fd, f fs]
  | convert target source fd fs => line (Mnemonic.convert target source).name [f fd, f fs]
  | compare cond fmt flag fs ft =>
    line (Mnemonic.compare cond fmt).name [toString flag.val, f fs, f ft]
  | branchFlag expected flag target =>
    line (Mnemonic.branchFlag expected).name [toString flag.val, target.text]
  | moveWord toFloat rt fs => line (Mnemonic.moveWord toFloat).name [r rt, f fs]
  | floatMoveIf nonzero fmt fd fs rt =>
    line (Mnemonic.floatMoveIf nonzero fmt).name [f fd, f fs, r rt]
  | moveOnFlag expected rd rs flag =>
    line (Mnemonic.moveOnFlag expected).name [r rd, r rs, toString flag.val]
  | floatMoveOnFlag expected fmt fd fs flag =>
    line (Mnemonic.floatMoveOnFlag expected fmt).name [f fd, f fs, toString flag.val]
  | mem op data base offset =>
    let data := if op.isFloat then f data else r data
    line op.name [data, hexWord (BitVec.ofInt 32 offset) ++ "(" ++ r base ++ ")"]
  | nop => "nop"
  | syscall => "syscall"
  | breakpoint code => if code = 0 then "break" else "break " ++ toString code.toNat

end Instruction

end MipsLab
