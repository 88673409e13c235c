import Cpl.Quad.Template
import Cpl.Symbols

/-!
# Emitting code

Code for the parts of a tree is emitted one after the other while the symbols grow and warnings
gather. `Emit` is such a computation: it may fail with a diagnostic, and the symbols and warnings
made until then remain. The instructions themselves are returned, not kept in the state, so that
the code of a part can be measured and placed by the part around it.

`Emit.on` runs a step; the lemmas `on_pure`, `on_bind` and so on say what each step does, success or
not, to what has been gathered.
-/

namespace Cpl

/-- What one compilation has gathered so far. -/
structure Compilation where
  symbols : Symbols
  /-- In the order in which they were made. -/
  warnings : List String
deriving DecidableEq, Repr

def Compilation.start : Compilation :=
  ⟨.empty, []⟩

/-- A step of a compilation, which may fail and then leaves what it has gathered. -/
abbrev Emit := ExceptT Diagnostic (StateM Compilation)

/-- Code, and the operand that holds its value afterwards. -/
structure Emitted where
  code : List Instruction
  value : Operand
deriving DecidableEq, Repr

namespace Emit

/-- Runs a step from what was gathered before. -/
def on {α : Type} (step : Emit α) (c : Compilation) : Except Diagnostic α × Compilation :=
  step.run c

/-- Places a problem at a position. -/
def located {α : Type} (position : Position) : Except Problem α → Emit α
  | .ok value => pure value
  | .error problem => throw ⟨problem, position⟩

def warn (message : String) : Emit Unit :=
  modify fun c => { c with warnings := c.warnings ++ [message] }

def lookup (name : String) (position : Position) : Emit Symbol := do
  located position ((← get).symbols.lookup name)

def typeOf (operand : Operand) (position : Position) : Emit NumType := do
  located position ((← get).symbols.typeOf operand)

def declare (name : String) (type : NumType) (position : Position) : Emit Unit := do
  let c ← get
  let symbols ← located position (c.symbols.declare name type)
  set { c with symbols }

/-- The name of a fresh temporary. -/
def temporary (type : NumType) : Emit String :=
  modifyGet fun c =>
    let (name, symbols) := c.symbols.temporary type
    (name, { c with symbols })

/-- Converts a value to FLOAT through a fresh temporary. -/
def widen (value : Operand) : Emit Emitted := do
  let dest ← temporary .float
  return ⟨[Template.convert .float dest value], .name dest⟩

/-- Converts a value of type `own` to the type `common` in which it meets another. -/
def widenTo (common own : NumType) (value : Operand) : Emit Emitted :=
  if own = common then return ⟨[], value⟩ else widen value

section on

variable {α β : Type} (c : Compilation)

@[simp] theorem on_pure (value : α) : (pure value : Emit α).on c = (.ok value, c) := rfl

@[simp] theorem on_throw (error : Diagnostic) :
    (throw error : Emit α).on c = (.error error, c) := rfl

/-- After a success the next step runs on what was gathered; after a failure nothing runs. -/
theorem on_bind (step : Emit α) (next : α → Emit β) :
    (step >>= next).on c =
      match step.on c with
      | (.ok value, c') => (next value).on c'
      | (.error error, c') => (.error error, c') := by
  change (ExceptT.bindCont next (step.run c).1).run (step.run c).2 = _
  unfold on
  rcases step.run c with ⟨_ | _, _⟩ <;> rfl

theorem on_located (position : Position) (r : Except Problem α) :
    (located position r).on c = (r.mapError (⟨·, position⟩), c) := by
  cases r <;> rfl

@[simp] theorem on_warn (message : String) :
    (warn message).on c = (.ok (), { c with warnings := c.warnings ++ [message] }) := rfl

theorem on_lookup (name : String) (position : Position) :
    (lookup name position).on c = ((c.symbols.lookup name).mapError (⟨·, position⟩), c) :=
  on_located c position _

theorem on_typeOf (operand : Operand) (position : Position) :
    (typeOf operand position).on c = ((c.symbols.typeOf operand).mapError (⟨·, position⟩), c) :=
  on_located c position _

@[simp] theorem on_temporary (type : NumType) :
    (temporary type).on c =
      (.ok (c.symbols.temporary type).1, { c with symbols := (c.symbols.temporary type).2 }) := rfl

end on

/-- Two operands brought to one type. -/
structure Pair where
  code : List Instruction
  left : Operand
  right : Operand
  type : NumType
deriving DecidableEq, Repr

/-- Brings two operands to one type: if one of them is FLOAT, the other one is widened. -/
def widenPair (left right : Operand) (position : Position) : Emit Pair := do
  let leftType ← typeOf left position
  let rightType ← typeOf right position
  let type := leftType.unify rightType
  let left ← widenTo type leftType left
  let right ← widenTo type rightType right
  return ⟨left.code ++ right.code, left.value, right.value, type⟩

end Emit

end Cpl
