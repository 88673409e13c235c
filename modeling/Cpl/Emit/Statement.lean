import Cpl.Emit.Expression

/-!
# Code of statements

A statement's code runs from its first instruction to just past its last one, and its jumps go no
further. A break is left open until the loop or switch around it is complete; `closeBreaks` then
makes it a jump past the end of that code.
-/

namespace Cpl

/-- Makes every open break a jump to just past the code, of which `size` instructions are given. -/
def Instruction.closeBreaksFrom : (size : Nat) → List Instruction → List Instruction
  | _, [] => []
  | size, .openBreak _ :: is => .jump (.forward size) :: closeBreaksFrom (size - 1) is
  | size, i :: is => i :: closeBreaksFrom (size - 1) is

/-- Makes every open break a jump to just past the code. -/
def Instruction.closeBreaks (code : List Instruction) : List Instruction :=
  closeBreaksFrom code.length code

namespace Emit

/-- Assigns a value, which is widened if the target is FLOAT; INT takes no FLOAT. -/
def assignment (target : Ident) (value : Operand) (position : Position) :
    Emit (List Instruction) := do
  let symbol ← lookup target.name target.span.start
  let own ← typeOf value position
  if symbol.type = .int ∧ own = .float then
    throw ⟨.assignFloatToInt target.name, position⟩
  let value ← widenTo symbol.type own value
  return value.code ++ [Template.assign symbol.type target.name value.value]

/-- Prints a value as a real. -/
def printing (value : Operand) (position : Position) : Emit (List Instruction) := do
  let own ← typeOf value position
  let value ← widenTo .float own value
  return value.code ++ [Template.print .float value.value]

/-- The test of a case: compares the selector with the label, and skips a body of `size`
instructions if they differ. -/
def caseTest (selector : Operand) (label : Literal) (dest : String) (size : Nat)
    (position : Position) : Emit (List Instruction) := do
  let pair ← widenPair selector (.literal label) position
  let code ← located position (Template.relational "==" pair.type dest pair.left pair.right)
  return pair.code ++ code ++ [.jumpIfZero (.forward (size + 1)) (.name dest)]

end Emit

open Emit Instruction

mutual

def Statement.emit : Statement → Emit (List Instruction)
  | .assign target value span => do
    let value ← value.emit
    let code ← assignment target value.value span.start
    return value.code ++ code
  | .input target _ => do
    let symbol ← lookup target.name target.span.start
    return [Template.input symbol.type target.name]
  | .output value span => do
    let value ← value.emit
    let code ← printing value.value span.start
    return value.code ++ code
  | .ifThen condition body _ => do
    let condition ← condition.emit
    let body ← body.emit
    return condition.code ++ [jumpIfZero (.forward (body.length + 1)) condition.value] ++ body
  | .ifElse condition body other _ => do
    let condition ← condition.emit
    let body ← body.emit
    let other ← other.emit
    return condition.code ++ [jumpIfZero (.forward (body.length + 2)) condition.value] ++ body ++
      [jump (.forward (other.length + 1))] ++ other
  | .loop condition body _ => do
    let body ← body.emit
    let condition ← condition.emit
    let once :=
      condition.code ++ [jumpIfZero (.forward (body.length + 2)) condition.value] ++ body
    return closeBreaks (once ++ [jump (.backward once.length)])
  | .switch selector cases default _ => do
    let selector ← selector.emit
    let arms ← emitCases selector.value cases
    let default ← default.emit
    return closeBreaks (selector.code ++ arms ++ default)
  | .leave span => return [openBreak span.start]
  | .block block => block.emit

def Block.emit : Block → Emit (List Instruction)
  | ⟨body, _⟩ => emitStatements body

/-- The code of statements, one after the other. -/
def emitStatements : List Statement → Emit (List Instruction)
  | [] => return []
  | first :: rest => do
    let first ← first.emit
    let rest ← emitStatements rest
    return first ++ rest

/-- The code of the cases of a switch: each tests its label and runs its body if it holds, and
either way goes on to the next. -/
def emitCases (selector : Operand) : List Case → Emit (List Instruction)
  | [] => return []
  | ⟨label, body, span⟩ :: rest => do
    let dest ← temporary .int
    let body ← body.emit
    let test ← caseTest selector label dest body.length span.start
    let rest ← emitCases selector rest
    return test ++ body ++ rest

end

end Cpl
