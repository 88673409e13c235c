import Cpl.Proofs.Machine
import Cpl.Tree

/-!
# The meaning of programs

What a program does, said on its tree and without any code, over the same arithmetic as the machine. A
`Scope` gives the declared names their types.

* Expressions and conditions have a value, or none if an operation in them is undefined
  (`Expression.eval`, `Condition.eval`). Where INT meets FLOAT the INT value is widened; both sides of "and"
  and "or" are evaluated. The symbols of the operators have their meaning here (`operation?`, `compare?`),
  apart from the instructions that they are compiled to.
* Statements run from one world to another (`Runs`, in big steps) and end in one of two ways: on to
  the next statement, or leaving the innermost loop or switch.
* A switch tests its cases in order and runs the body of each that holds; after a body it goes on to
  the next test, and in the end to the default. A selector that is just a variable is read again at
  every test; any other selector is evaluated once.
-/

namespace Cpl

/-- The types of the declared names. -/
abbrev Scope : Type :=
  String → Option NumType

variable {A : Arithmetic}

/-! ## Values -/

namespace Arithmetic

/-- The value at the given type: INT is widened to FLOAT, but FLOAT is no INT. -/
def widenTo : (type : NumType) → A.Value → Option (A.Val type)
  | .int, ⟨.int, v⟩ => some v
  | .int, ⟨.float, _⟩ => none
  | .float, ⟨.int, v⟩ => some (A.toReal v)
  | .float, ⟨.float, v⟩ => some v

/-- The value converted to the type. -/
def castTo : (type : NumType) → A.Value → A.Val type
  | .int, ⟨.int, v⟩ => v
  | .int, ⟨.float, v⟩ => A.toInt v
  | .float, ⟨.int, v⟩ => A.toReal v
  | .float, ⟨.float, v⟩ => v

/-- The operation that a symbol means. -/
def operation? : String → Option Arith
  | "+" => some .add
  | "-" => some .sub
  | "*" => some .mul
  | "/" => some .div
  | _ => none

/-- An operation on two values, in the type in which they meet. -/
def combine (operation : Arith) (left right : A.Value) : Option A.Value := do
  let type := left.1.unify right.1
  let l ← widenTo type left
  let r ← widenTo type right
  let v ← A.arith operation type l r
  return ⟨type, v⟩

/-- Whether two values of one type are in the relation that a symbol means. -/
def compare? (symbol : String) (type : NumType) (l r : A.Val type) : Option Bool :=
  match symbol with
  | "==" => some (A.holds .equal type l r)
  | "!=" => some (A.holds .unequal type l r)
  | "<" => some (A.holds .less type l r)
  | ">" => some (A.holds .greater type l r)
  | "<=" => some (A.holds .less type l r || A.holds .equal type l r)
  | ">=" => some (A.holds .greater type l r || A.holds .equal type l r)
  | _ => none

/-- Whether two values are so related, in the type in which they meet. -/
def related (symbol : String) (left right : A.Value) : Option Bool := do
  let type := left.1.unify right.1
  let l ← widenTo type left
  let r ← widenTo type right
  compare? symbol type l r

section

variable {l r : A.Value} {type : NumType} {x y : A.Val type}

/-- The result is that of the operation on the widened values. -/
theorem combine_eq (operation : Arith) (ht : type = l.1.unify r.1) (hx : widenTo type l = some x)
    (hy : widenTo type r = some y) :
    combine operation l r = (A.arith operation type x y).map (⟨type, ·⟩) := by
  subst ht
  simp only [combine, hx, hy]
  cases h : A.arith operation (l.1.unify r.1) x y <;> simp [h]

theorem related_eq (symbol : String) (ht : type = l.1.unify r.1) (hx : widenTo type l = some x)
    (hy : widenTo type r = some y) : related symbol l r = compare? symbol type x y := by
  subst ht
  simp only [related, hx, hy]
  rfl

end

/-- Only FLOAT to INT is no widening. -/
theorem exists_widenTo {type : NumType} {v : A.Value} (h : ¬ (type = .int ∧ v.1 = .float)) :
    ∃ x, widenTo type v = some x := by
  obtain ⟨own, v⟩ := v
  cases type <;> cases own
  · exact ⟨_, rfl⟩
  · exact absurd ⟨rfl, rfl⟩ h
  · exact ⟨_, rfl⟩
  · exact ⟨_, rfl⟩

/-- The value of a declared name. -/
def lookup? (A : Arithmetic) (Γ : Scope) (σ : A.Store) (name : String) : Option A.Value :=
  (Γ name).map fun type => ⟨type, A.load type (σ name)⟩

/-- The value of a literal, which is FLOAT if there is a point in it. -/
def number (A : Arithmetic) (l : Literal) : A.Value :=
  if '.' ∈ l.text.toList then ⟨.float, A.literal .float l⟩ else ⟨.int, A.literal .int l⟩

theorem number_eq (A : Arithmetic) (l : Literal) : A.number l = ⟨l.type, A.literal l.type l⟩ := by
  unfold number
  split <;> rename_i h
  · rw [Literal.type_eq_float_iff.mpr h]
  · rw [Literal.type_eq_int_iff.mpr h]

end Arithmetic

open Arithmetic

/-! ## Expressions and conditions -/

mutual

def Expression.eval (Γ : Scope) (σ : A.Store) : Expression → Option A.Value
  | .term term => term.eval Γ σ
  | .chain left operator right => do
    let r ← right.eval Γ σ
    let l ← left.eval Γ σ
    let operation ← operation? operator.symbol
    combine operation l r

def Term.eval (Γ : Scope) (σ : A.Store) : Term → Option A.Value
  | .factor factor => factor.eval Γ σ
  | .chain left operator right => do
    let r ← right.eval Γ σ
    let l ← left.eval Γ σ
    let operation ← operation? operator.symbol
    combine operation l r

def Factor.eval (Γ : Scope) (σ : A.Store) : Factor → Option A.Value
  | .name ident => A.lookup? Γ σ ident.name
  | .literal literal => some (A.number literal)
  | .parens inner _ => inner.eval Γ σ
  | .cast type inner _ => do
    let v ← inner.eval Γ σ
    return ⟨type, castTo type v⟩

end

mutual

def Condition.eval (Γ : Scope) (σ : A.Store) : Condition → Option Bool
  | .clause clause => clause.eval Γ σ
  | .or left right => do
    let r ← right.eval Γ σ
    let l ← left.eval Γ σ
    return l || r

def Clause.eval (Γ : Scope) (σ : A.Store) : Clause → Option Bool
  | .test test => test.eval Γ σ
  | .and left right => do
    let r ← right.eval Γ σ
    let l ← left.eval Γ σ
    return l && r

def Test.eval (Γ : Scope) (σ : A.Store) : Test → Option Bool
  | .compare left operator right => do
    let l ← left.eval Γ σ
    let r ← right.eval Γ σ
    related operator.symbol l r
  | .not inner _ => do
    let b ← inner.eval Γ σ
    return !b

end

/-! ### Stores that agree -/

/-- The two stores agree on the declared names. -/
structure SameOn (Γ : Scope) (σ σ' : A.Store) : Prop where
  cell {name : String} {type : NumType} : Γ name = some type → σ' name = σ name

section

variable {Γ : Scope} {σ σ' : A.Store}

theorem lookup?_congr (h : SameOn Γ σ σ') (name : String) :
    A.lookup? Γ σ' name = A.lookup? Γ σ name := by
  unfold Arithmetic.lookup?
  cases hn : Γ name with
  | none => rfl
  | some type => simp only [Option.map_some, h.cell hn]

mutual

theorem Expression.eval_congr (h : SameOn Γ σ σ') : ∀ e : Expression, e.eval Γ σ' = e.eval Γ σ
  | .term term => by simp only [Expression.eval, term.eval_congr h]
  | .chain left operator right => by
    simp only [Expression.eval, left.eval_congr h, right.eval_congr h]

theorem Term.eval_congr (h : SameOn Γ σ σ') : ∀ t : Term, t.eval Γ σ' = t.eval Γ σ
  | .factor factor => by simp only [Term.eval, factor.eval_congr h]
  | .chain left operator right => by
    simp only [Term.eval, left.eval_congr h, right.eval_congr h]

theorem Factor.eval_congr (h : SameOn Γ σ σ') : ∀ f : Factor, f.eval Γ σ' = f.eval Γ σ
  | .name ident => by simp only [Factor.eval, lookup?_congr h]
  | .literal literal => by simp only [Factor.eval]
  | .parens inner span => by simp only [Factor.eval, inner.eval_congr h]
  | .cast type inner span => by simp only [Factor.eval, inner.eval_congr h]

end

mutual

theorem Condition.eval_congr (h : SameOn Γ σ σ') : ∀ b : Condition, b.eval Γ σ' = b.eval Γ σ
  | .clause clause => by simp only [Condition.eval, clause.eval_congr h]
  | .or left right => by simp only [Condition.eval, left.eval_congr h, right.eval_congr h]

theorem Clause.eval_congr (h : SameOn Γ σ σ') : ∀ b : Clause, b.eval Γ σ' = b.eval Γ σ
  | .test test => by simp only [Clause.eval, test.eval_congr h]
  | .and left right => by simp only [Clause.eval, left.eval_congr h, right.eval_congr h]

theorem Test.eval_congr (h : SameOn Γ σ σ') : ∀ b : Test, b.eval Γ σ' = b.eval Γ σ
  | .compare left operator right => by
    simp only [Test.eval, left.eval_congr h, right.eval_congr h]
  | .not inner span => by simp only [Test.eval, inner.eval_congr h]

end

end

/-! ## Selectors -/

mutual

/-- The variable that an expression just reads: a name, in parentheses or under casts to its own
type. -/
def Expression.bareName? (Γ : Scope) : Expression → Option String
  | .term term => term.bareName? Γ
  | .chain _ _ _ => none

@[inherit_doc Expression.bareName?]
def Term.bareName? (Γ : Scope) : Term → Option String
  | .factor factor => factor.bareName? Γ
  | .chain _ _ _ => none

@[inherit_doc Expression.bareName?]
def Factor.bareName? (Γ : Scope) : Factor → Option String
  | .name ident => some ident.name
  | .literal _ => none
  | .parens inner _ => inner.bareName? Γ
  | .cast type inner _ => (inner.bareName? Γ).filter fun name => Γ name = some type

end

/-- What the tests of a switch compare with their labels. -/
inductive Selector (A : Arithmetic) where
  /-- A variable, read anew at every test. -/
  | named (name : String)
  | value (v : A.Value)

namespace Selector

/-- The selector of a switch that is entered with the given store. -/
def of? (Γ : Scope) (σ : A.Store) (e : Expression) : Option (Selector A) :=
  match e.bareName? Γ with
  | some name => some (.named name)
  | none => (e.eval Γ σ).map .value

/-- The value that a test reads. -/
def read (Γ : Scope) (σ : A.Store) : Selector A → Option A.Value
  | .named name => A.lookup? Γ σ name
  | .value v => some v

/-- Whether a case is to be run. -/
def test (Γ : Scope) (σ : A.Store) (selector : Selector A) (label : Literal) : Option Bool := do
  let v ← selector.read Γ σ
  related "==" v (A.number label)

end Selector

/-! ## Statements -/

/-- What an assignment, an input or an output does, if it can be done. INT takes no FLOAT, and
everything is printed as FLOAT. -/
def Statement.effect? (Γ : Scope) (w : World A) : Statement → Option (World A)
  | .assign target value _ => do
    let v ← value.eval Γ w.store
    let type ← Γ target.name
    let x ← widenTo type v
    return w.set target.name type x
  | .input target _ => do
    let type ← Γ target.name
    let item ← w.input.head?
    return { w with input := w.input.tail }.set target.name type (A.read type item)
  | .output value _ => do
    let v ← value.eval Γ w.store
    let x ← widenTo .float v
    return w.print ⟨.float, x⟩
  | _ => none

/-- How a statement ends. -/
inductive Ending where
  /-- On to the next statement. -/
  | next
  /-- Leaving the innermost loop or switch. -/
  | leave
deriving DecidableEq, Repr

/-- What can be run: a statement, statements in a row, or the cases and the default of a switch. -/
inductive Phrase (A : Arithmetic) where
  | statement (statement : Statement)
  | sequence (statements : List Statement)
  | arms (selector : Selector A) (cases : List Case) (default : Block)

/-- The phrase runs from the one world to the other, and ends in the given way. -/
inductive Runs (Γ : Scope) : Phrase A → World A → Ending → World A → Prop where
  | act {statement w w'} : statement.effect? Γ w = some w' →
      Runs Γ (.statement statement) w .next w'
  | ifThenTrue {condition body span w ending w'} : condition.eval Γ w.store = some true →
      Runs Γ (.statement body) w ending w' →
      Runs Γ (.statement (.ifThen condition body span)) w ending w'
  | ifThenFalse {condition body span w} : condition.eval Γ w.store = some false →
      Runs Γ (.statement (.ifThen condition body span)) w .next w
  | ifElseTrue {condition body other span w ending w'} : condition.eval Γ w.store = some true →
      Runs Γ (.statement body) w ending w' →
      Runs Γ (.statement (.ifElse condition body other span)) w ending w'
  | ifElseFalse {condition body other span w ending w'} : condition.eval Γ w.store = some false →
      Runs Γ (.statement other) w ending w' →
      Runs Γ (.statement (.ifElse condition body other span)) w ending w'
  | loopFalse {condition body span w} : condition.eval Γ w.store = some false →
      Runs Γ (.statement (.loop condition body span)) w .next w
  | loopLeave {condition body span w w'} : condition.eval Γ w.store = some true →
      Runs Γ (.statement body) w .leave w' →
      Runs Γ (.statement (.loop condition body span)) w .next w'
  | loopAgain {condition body span w w' w''} : condition.eval Γ w.store = some true →
      Runs Γ (.statement body) w .next w' →
      Runs Γ (.statement (.loop condition body span)) w' .next w'' →
      Runs Γ (.statement (.loop condition body span)) w .next w''
  /-- However its arms end, a switch goes on to the next statement. -/
  | switch {expression cases default span w selector ending w'} :
      Selector.of? Γ w.store expression = some selector →
      Runs Γ (.arms selector cases default) w ending w' →
      Runs Γ (.statement (.switch expression cases default span)) w .next w'
  | leave {span w} : Runs Γ (.statement (.leave span)) w .leave w
  | block {block w ending w'} : Runs Γ (.sequence block.body) w ending w' →
      Runs Γ (.statement (.block block)) w ending w'
  | nil {w} : Runs Γ (.sequence []) w .next w
  | cons {first rest w w' ending w''} : Runs Γ (.statement first) w .next w' →
      Runs Γ (.sequence rest) w' ending w'' → Runs Γ (.sequence (first :: rest)) w ending w''
  | consLeave {first rest w w'} : Runs Γ (.statement first) w .leave w' →
      Runs Γ (.sequence (first :: rest)) w .leave w'
  | default {selector default w ending w'} : Runs Γ (.sequence default.body) w ending w' →
      Runs Γ (.arms selector [] default) w ending w'
  | caseFalse {selector first rest default w ending w'} :
      selector.test Γ w.store first.label = some false →
      Runs Γ (.arms selector rest default) w ending w' →
      Runs Γ (.arms selector (first :: rest) default) w ending w'
  | caseTrue {selector first rest default w w' ending w''} :
      selector.test Γ w.store first.label = some true →
      Runs Γ (.sequence first.body.body) w .next w' →
      Runs Γ (.arms selector rest default) w' ending w'' →
      Runs Γ (.arms selector (first :: rest) default) w ending w''
  | caseLeave {selector first rest default w w'} :
      selector.test Γ w.store first.label = some true →
      Runs Γ (.sequence first.body.body) w .leave w' →
      Runs Γ (.arms selector (first :: rest) default) w .leave w'

/-! ## Programs -/

namespace Program

/-- The declared names with their types, in order. -/
def declared (p : Program) : List (String × NumType) :=
  p.declarations.flatMap fun d => d.names.map fun ident => (ident.name, d.type)

def scope (p : Program) : Scope :=
  fun name => p.declared.lookup name

/-- The program runs from the one world to the other. -/
def Runs (p : Program) (w w' : World A) : Prop :=
  Cpl.Runs p.scope (.sequence p.body.body) w .next w'

end Program

end Cpl
