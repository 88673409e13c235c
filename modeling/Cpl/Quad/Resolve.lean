import Cpl.Diagnostic
import Cpl.Quad

/-!
# Resolving jumps

Once all instructions are in place, every relative jump target becomes a line number. An
instruction at index `i` is on line `i + 1`. A jump may not go back beyond the first line; of several
that do, the first in the list is reported.
-/

namespace Cpl

/-- The line number of a target held on the given line. -/
def Target.resolve (line : Nat) : Target → Except Problem Target
  | .line number => .ok (.line number)
  | .forward offset => .ok (.line (line + offset))
  | .backward offset =>
    if offset < line then .ok (.line (line - offset))
    else .error (.jumpBeforeFirstLine line offset)

def Operand.resolve (line : Nat) : Operand → Except Problem Operand
  | .jump target => (target.resolve line).map .jump
  | operand => .ok operand

namespace Instruction

def resolve (line : Nat) : Instruction → Except Problem Instruction
  | quad opcode operands => (operands.mapM (Operand.resolve line)).map (quad opcode)
  | openBreak position => .ok (openBreak position)

/-- Resolves instructions of which the first is on the given line. -/
def resolveFrom : Nat → List Instruction → Except Problem (List Instruction)
  | _, [] => .ok []
  | line, i :: is => do
    let first ← i.resolve line
    let rest ← resolveFrom (line + 1) is
    return first :: rest

/-- Resolves the instructions of a whole program. -/
def resolveAll (is : List Instruction) : Except Problem (List Instruction) :=
  resolveFrom 1 is

end Instruction

end Cpl
