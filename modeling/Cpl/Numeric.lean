/-!
# Numbers of the language

The language has two number types. A literal keeps the spelling it has in the source, and the
spelling decides its type.
-/

namespace Cpl

inductive NumType where
  | int
  | float
deriving DecidableEq, Repr

namespace NumType

def isFloat : NumType → Bool
  | int => false
  | float => true

/-- The type in which two operands meet: FLOAT as soon as one of them is. -/
def unify (a b : NumType) : NumType :=
  if a.isFloat || b.isFloat then float else int

def name : NumType → String
  | int => "INT"
  | float => "FLOAT"

@[simp] theorem unify_self (a : NumType) : a.unify a = a := by cases a <;> rfl

theorem unify_comm (a b : NumType) : a.unify b = b.unify a := by cases a <;> cases b <;> rfl

/-- The type in which two operands meet takes both of them. -/
theorem unify_takes_left (a b : NumType) : ¬ (a.unify b = int ∧ a = float) := by
  cases a <;> cases b <;> decide

@[inherit_doc unify_takes_left]
theorem unify_takes_right (a b : NumType) : ¬ (a.unify b = int ∧ b = float) := by
  rw [unify_comm]
  exact unify_takes_left b a

end NumType

/-- A number as it is spelled. -/
structure Literal where
  text : String
deriving DecidableEq, Repr

/-- FLOAT exactly when the spelling has a decimal point. -/
def Literal.type (l : Literal) : NumType :=
  if l.text.toList.contains '.' then .float else .int

namespace Literal

theorem type_eq (l : Literal) : l.type = if '.' ∈ l.text.toList then .float else .int := by
  simp [type]

theorem type_eq_float_iff {l : Literal} : l.type = .float ↔ '.' ∈ l.text.toList := by
  simp [type_eq]

theorem type_eq_int_iff {l : Literal} : l.type = .int ↔ '.' ∉ l.text.toList := by
  simp [type_eq]

end Literal

end Cpl
