import MipsLab.Machine.Execute
import MipsLab.Proofs.Exec.Contract

/-! Where control goes behind an instruction of the machine. Nothing that the machine executes waits
or exits; only a service can do that. -/
namespace MipsLab

open Exec

/-- Control goes on or jumps; it does not wait or exit. -/
def Control.Moves (control : Control) : Prop := control = .next ∨ ∃ address, control = .jump address

theorem Machine.moves_execute (pc : Word) (i : Instruction) :
    (execute pc i).Returns Control.Moves := by
  have next : (pure .next : Exec Machine Control).Returns Control.Moves := returns_pure (.inl rfl)
  have jump (address : Word) :
      (pure (.jump address) : Exec Machine Control).Returns Control.Moves :=
    returns_pure (.inr ⟨address, rfl⟩)
  cases i with
  | nop | syscall | breakpoint => exact next
  | reg | lui | count | hiLoMove | floatArith | floatUnary | convert =>
    exact returns_bind fun _ => next
  | moveWord toFloat => cases toFloat <;> exact returns_bind fun _ => next
  | imm | hiLo | floatToWord | compare =>
    exact returns_bind fun _ => returns_bind fun _ => returns_bind fun _ => next
  | mem | floatMoveIf | moveOnFlag | floatMoveOnFlag =>
    exact returns_bind fun _ => returns_bind fun _ => next
  | jump link target => exact returns_bind fun _ => jump _
  | jumpReg link rs => exact returns_bind fun _ => returns_bind fun _ => jump _
  | branchFlag expected flag target =>
    refine returns_bind fun _ => ?_
    split
    · exact jump _
    · exact next
  | branch op rs rt target =>
    refine returns_bind fun _ => returns_bind fun _ => ?_
    split
    · exact jump _
    · exact next

end MipsLab
