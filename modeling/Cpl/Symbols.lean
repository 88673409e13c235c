import Cpl.Diagnostic
import Cpl.Quad

/-!
# Symbols

The names that the instructions of one compilation may refer to, with their types: the declared
variables and the temporaries, which are called `t0`, `t1` and so on. A temporary never takes a name
that is in use; the counter then moves on past that name.

* `Symbols.declare` adds a declared variable, `Symbols.temporary` a fresh temporary;
* `Symbols.get?` finds a symbol by its name, `Symbols.typeOf` the type of an operand.
-/

namespace Cpl

/-- A name with its type. -/
structure Symbol where
  name : String
  type : NumType
  isTemporary : Bool
deriving DecidableEq, Repr

/-- The symbols of one compilation. -/
structure Symbols where
  /-- The symbols, the latest first. -/
  entries : List Symbol
  /-- No temporary has this number or a greater one. -/
  counter : Nat
  /-- How many temporaries there are. -/
  temporaries : Nat
deriving DecidableEq, Repr

/-- The name of the temporary with the given number. -/
def temporaryName (n : Nat) : String :=
  "t" ++ toString n

namespace Symbols

def empty : Symbols :=
  ⟨[], 0, 0⟩

def size (s : Symbols) : Nat :=
  s.entries.length

def isEmpty (s : Symbols) : Bool :=
  s.entries.isEmpty

/-- The symbol of the given name. -/
def get? (s : Symbols) (name : String) : Option Symbol :=
  s.entries.find? fun symbol => symbol.name == name

def contains (s : Symbols) (name : String) : Bool :=
  s.entries.any fun symbol => symbol.name == name

/-- The symbol of the given name, which has to exist. -/
def lookup (s : Symbols) (name : String) : Except Problem Symbol :=
  match s.get? name with
  | some symbol => .ok symbol
  | none => .error (.unknownVariable name)

/-- Adds a declared variable, unless its name is in use. -/
def declare (s : Symbols) (name : String) (type : NumType) : Except Problem Symbols :=
  if s.contains name then .error (.alreadyDeclared name)
  else .ok { s with entries := ⟨name, type, false⟩ :: s.entries }

/-- The first number from `n` on that gives a temporary a name not in use, looking at `bound`
numbers before settling for the one after them. -/
def freeFrom (s : Symbols) : (bound : Nat) → (n : Nat) → Nat
  | 0, n => n
  | bound + 1, n => if s.contains (temporaryName n) then s.freeFrom bound (n + 1) else n

/-- The number of the next temporary. There are as many names in use as symbols, so of one number
more than that some name is free. -/
def free (s : Symbols) : Nat :=
  s.freeFrom s.size s.counter

/-- Adds a fresh temporary, and gives its name. -/
def temporary (s : Symbols) (type : NumType) : String × Symbols :=
  let n := s.free
  let name := temporaryName n
  (name,
    { entries := ⟨name, type, true⟩ :: s.entries
      counter := n + 1
      temporaries := s.temporaries + 1 })

/-- Adds a fresh temporary of the type that the given name has. -/
def temporaryLike (s : Symbols) (name : String) : Except Problem (String × Symbols) := do
  let symbol ← s.lookup name
  return s.temporary symbol.type

/-- A literal has its own type, a name that of its symbol; a jump target is no value. -/
def typeOf (s : Symbols) : Operand → Except Problem NumType
  | .literal literal => .ok literal.type
  | .name name => (s.lookup name).map Symbol.type
  | .jump target => .error (.targetAsValue target.text)

theorem isSome_get? (s : Symbols) (name : String) : (s.get? name).isSome = s.contains name := by
  simp [get?, contains, List.isSome_find?]

theorem name_of_get? {s : Symbols} {name : String} {symbol : Symbol}
    (h : s.get? name = some symbol) : symbol.name = name := by
  simpa using List.find?_some h

theorem lookup_eq_ok_iff {s : Symbols} {name : String} {symbol : Symbol} :
    s.lookup name = .ok symbol ↔ s.get? name = some symbol := by
  unfold lookup
  split <;> simp_all

end Symbols

end Cpl
