import Cpl.Diagnostic
import Cpl.Quad

/-!
# Instruction templates

The instructions for one operation of the language on given operands. The machine compares with
`==`, `!=`, `<` and `>` only: `<=` and `>=` test for equality first and, if that fails, for the strict
order. "And" and "or" evaluate neither side: both are operands already. Jumps inside a template
are relative, so that it can be placed anywhere.
-/

namespace Cpl

/-- The operation that a symbol stands for. -/
def Arith.ofSymbol? : String → Option Arith
  | "+" => some .add
  | "-" => some .sub
  | "*" => some .mul
  | "/" => some .div
  | _ => none

/-- A comparison of the language. -/
inductive Relation where
  | exact (comparison : Compare)
  /-- Equal, or else in the strict order. -/
  | orEqual (strict : Compare)
deriving DecidableEq, Repr

def Relation.ofSymbol? : String → Option Relation
  | "==" => some (.exact .equal)
  | "!=" => some (.exact .unequal)
  | "<" => some (.exact .less)
  | ">" => some (.exact .greater)
  | "<=" => some (.orEqual .less)
  | ">=" => some (.orEqual .greater)
  | _ => none

namespace Template

/-- `dest = left operation right`. -/
def arithmetic (symbol : String) (type : NumType) (dest : String) (left right : Operand) :
    Except Problem (List Instruction) :=
  match Arith.ofSymbol? symbol with
  | none => .error (.unknownOperation symbol)
  | some operation => .ok [.quad (.arith operation type) [.name dest, left, right]]

/-- `dest = left relation right`, with operands of the given type. -/
def relational (symbol : String) (type : NumType) (dest : String) (left right : Operand) :
    Except Problem (List Instruction) :=
  match Relation.ofSymbol? symbol with
  | none => .error (.unknownOperation symbol)
  | some (.exact comparison) => .ok [.quad (.compare comparison type) [.name dest, left, right]]
  | some (.orEqual strict) =>
    .ok [.quad (.compare .equal type) [.name dest, left, right],
      .jumpIfZero (.forward 2) (.name dest),
      .jump (.forward 2),
      .quad (.compare strict type) [.name dest, left, right]]

/-- `dest = value` for a truth value. -/
def setTruth (dest : String) (value : String) : Instruction :=
  .quad (.assign .int) [.name dest, .literal ⟨value⟩]

/-- `dest = left && right`. -/
def logicalAnd (dest : String) (left right : Operand) : List Instruction :=
  [setTruth dest "0",
    .jumpIfZero (.forward 3) left,
    .jumpIfZero (.forward 2) right,
    setTruth dest "1"]

/-- `dest = left || right`. -/
def logicalOr (dest : String) (left right : Operand) : List Instruction :=
  [setTruth dest "0",
    .jumpIfZero (.forward 2) left,
    setTruth dest "1",
    .jumpIfZero (.forward 2) right,
    setTruth dest "1"]

/-- `dest = !value`. -/
def logicalNot (dest : String) (value : Operand) : Instruction :=
  .quad (.compare .equal .int) [.name dest, value, .literal ⟨"0"⟩]

def assign (type : NumType) (dest : String) (value : Operand) : Instruction :=
  .quad (.assign type) [.name dest, value]

def input (type : NumType) (dest : String) : Instruction :=
  .quad (.input type) [.name dest]

def print (type : NumType) (value : Operand) : Instruction :=
  .quad (.print type) [value]

/-- `dest` gets the value, converted to the type from the other one. -/
def convert (goal : NumType) (dest : String) (value : Operand) : Instruction :=
  .quad (.convert goal) [.name dest, value]

end Template

end Cpl
