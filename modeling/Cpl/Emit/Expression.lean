import Cpl.Emit
import Cpl.Tree

/-!
# Code of expressions and conditions

The code of an expression computes its value into an operand: a name or literal stands for itself
and needs no code, any operation writes a fresh temporary. In a chain the right operand comes first,
then the chain to its left. Conditions evaluate all their parts and give zero or one.
-/

namespace Cpl

namespace Emit

/-- Joins the values of a chain by an arithmetic operator. -/
def arithmetic (operator : Operator) (left right : Operand) : Emit Emitted := do
  let pair ← widenPair left right operator.position
  let dest ← temporary pair.type
  let code ← located operator.position
    (Template.arithmetic operator.symbol pair.type dest pair.left pair.right)
  return ⟨pair.code ++ code, .name dest⟩

/-- Compares two values, into zero or one. -/
def comparison (operator : Operator) (left right : Operand) : Emit Emitted := do
  let pair ← widenPair left right operator.position
  let dest ← temporary .int
  let code ← located operator.position
    (Template.relational operator.symbol pair.type dest pair.left pair.right)
  return ⟨pair.code ++ code, .name dest⟩

/-- The warning on a cast to the type that the value has. -/
def castWarning (type : NumType) (position : Position) : String :=
  "cast of a " ++ type.name ++ " value to " ++ type.name ++ " has no effect (" ++
    position.text ++ ")"

/-- Casts a value. A cast without effect emits nothing and is warned of. -/
def castTo (type : NumType) (value : Operand) (position : Position) : Emit Emitted := do
  let own ← typeOf value position
  if own = type then
    warn (castWarning type position)
    return ⟨[], value⟩
  else
    let dest ← temporary type
    return ⟨[Template.convert type dest value], .name dest⟩

end Emit

open Emit

/-! ## Expressions -/

mutual

def Expression.emit : Expression → Emit Emitted
  | .term term => term.emit
  | .chain left operator right => do
    let right ← right.emit
    let left ← left.emit
    let result ← arithmetic operator left.value right.value
    return ⟨right.code ++ left.code ++ result.code, result.value⟩

def Term.emit : Term → Emit Emitted
  | .factor factor => factor.emit
  | .chain left operator right => do
    let right ← right.emit
    let left ← left.emit
    let result ← arithmetic operator left.value right.value
    return ⟨right.code ++ left.code ++ result.code, result.value⟩

def Factor.emit : Factor → Emit Emitted
  | .name ident => do
    let _ ← lookup ident.name ident.span.start
    return ⟨[], .name ident.name⟩
  | .literal literal => return ⟨[], .literal literal⟩
  | .parens inner _ => inner.emit
  | .cast type inner span => do
    let inner ← inner.emit
    let result ← castTo type inner.value span.start
    return ⟨inner.code ++ result.code, result.value⟩

end

/-! ## Conditions -/

mutual

def Condition.emit : Condition → Emit Emitted
  | .clause clause => clause.emit
  | .or left right => do
    let right ← right.emit
    let left ← left.emit
    let dest ← temporary .int
    return ⟨right.code ++ left.code ++ Template.logicalOr dest left.value right.value, .name dest⟩

def Clause.emit : Clause → Emit Emitted
  | .test test => test.emit
  | .and left right => do
    let right ← right.emit
    let left ← left.emit
    let dest ← temporary .int
    return ⟨right.code ++ left.code ++ Template.logicalAnd dest left.value right.value, .name dest⟩

def Test.emit : Test → Emit Emitted
  | .compare left operator right => do
    let left ← left.emit
    let right ← right.emit
    let result ← comparison operator left.value right.value
    return ⟨left.code ++ right.code ++ result.code, result.value⟩
  | .not inner _ => do
    let inner ← inner.emit
    let dest ← temporary .int
    return ⟨inner.code ++ [Template.logicalNot dest inner.value], .name dest⟩

end

end Cpl
