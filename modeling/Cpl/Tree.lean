import Cpl.Numeric
import Cpl.Position

/-!
# Syntax trees

A program is a list of declarations and a block. Arithmetic has three levels: an `Expression` is a
chain of terms, a `Term` a chain of factors, a `Factor` a name, a literal or an expression in
parentheses, possibly under a cast. Conditions have three levels too: a `Condition` is a
disjunction of clauses, a `Clause` a conjunction of tests, a `Test` a comparison or a negation.
Chains lean to the left: the last operator is at the root.

Operators are kept as they are spelled, so a tree may hold one that the language does not have.
-/

namespace Cpl

/-- A name where it occurs. -/
structure Ident where
  name : String
  span : Span
deriving DecidableEq, Repr

/-- An operator where it occurs. -/
structure Operator where
  symbol : String
  position : Position
deriving DecidableEq, Repr

/-! ## Expressions -/

mutual

/-- Terms joined by addition and subtraction. -/
inductive Expression where
  | term (term : Term)
  | chain (left : Expression) (operator : Operator) (right : Term)

/-- Factors joined by multiplication and division. -/
inductive Term where
  | factor (factor : Factor)
  | chain (left : Term) (operator : Operator) (right : Factor)

inductive Factor where
  | name (ident : Ident)
  | literal (literal : Literal)
  | parens (inner : Expression) (span : Span)
  | cast (type : NumType) (inner : Expression) (span : Span)

end

/-! ## Conditions -/

mutual

/-- Clauses joined by "or". -/
inductive Condition where
  | clause (clause : Clause)
  | or (left : Condition) (right : Clause)

/-- Tests joined by "and". -/
inductive Clause where
  | test (test : Test)
  | and (left : Clause) (right : Test)

inductive Test where
  | compare (left : Expression) (operator : Operator) (right : Expression)
  | not (inner : Condition) (span : Span)

end

/-! ## Statements -/

mutual

inductive Statement where
  | assign (target : Ident) (value : Expression) (span : Span)
  | input (target : Ident) (span : Span)
  | output (value : Expression) (span : Span)
  | ifThen (condition : Condition) (body : Statement) (span : Span)
  | ifElse (condition : Condition) (body : Statement) (other : Statement) (span : Span)
  | loop (condition : Condition) (body : Statement) (span : Span)
  | switch (selector : Expression) (cases : List Case) (default : Block) (span : Span)
  /-- Leaves the innermost loop or switch. -/
  | leave (span : Span)
  | block (block : Block)

structure Block where
  body : List Statement
  span : Span

/-- One arm of a switch. -/
structure Case where
  label : Literal
  body : Block
  span : Span

end

/-! ## Programs -/

/-- Names declared with one type. -/
structure Declaration where
  names : List Ident
  type : NumType
  span : Span
deriving DecidableEq, Repr

structure Program where
  declarations : List Declaration
  body : Block

end Cpl
