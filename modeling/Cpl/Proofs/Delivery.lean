import Cpl.Proofs.Acceptance
import Cpl.Proofs.Crossing

/-!
# What the code of an expression delivers

The code of an expression or condition, between any other code, is run through to its end exactly if no
operation in the expression is undefined. Then the operand holds the value that the expression had before,
and no name that was in use is changed.

* `Expression.Undefined`, `Condition.Undefined`: an operation somewhere in the tree is undefined on the values
  of its operands. By `Expression.eval_eq_none_iff` there is a value unless this is so;
* `Crosses`: a run through a part of a program, from its first line to the line after it;
* `delivers_value`: the statement for expressions and for conditions, in any state of a compilation.
-/

namespace Cpl

open Emit Machine Arithmetic

variable {A : Arithmetic} {Γ : Scope} {σ : A.Store}

/-! ## Undefined operations -/

namespace Arithmetic

/-- The operation is undefined on the values, taken at the type in which they meet. -/
def UndefinedOn (operation : Arith) (left right : A.Value) : Prop :=
  ∃ l r, widenTo (left.1.unify right.1) left = some l ∧
    widenTo (left.1.unify right.1) right = some r ∧
    A.arith operation (left.1.unify right.1) l r = none

/-- The operands have values, on which the operation is undefined. -/
def UndefinedAt (operator : Operator) (left right : Option A.Value) : Prop :=
  ∃ operation l r, operation? operator.symbol = some operation ∧ left = some l ∧
    right = some r ∧ UndefinedOn operation l r

theorem combine_eq_none_iff {operation : Arith} {left right : A.Value} :
    combine operation left right = none ↔ UndefinedOn operation left right := by
  obtain ⟨l, hl⟩ := exists_widenTo (NumType.unify_takes_left left.1 right.1)
  obtain ⟨r, hr⟩ := exists_widenTo (NumType.unify_takes_right left.1 right.1)
  rw [combine_eq operation rfl hl hr, Option.map_eq_none_iff]
  constructor
  · intro h
    exact ⟨l, r, hl, hr, h⟩
  · rintro ⟨l', r', hl', hr', h⟩
    rw [hl] at hl'
    rw [hr] at hr'
    cases hl'
    cases hr'
    exact h

/-- A chain has no value if an operand has none, or if the operation is undefined on their values. -/
theorem chain_eq_none_iff {operator : Operator} (hs : (Site.arithmetic operator).Holds Γ)
    {left right : Option A.Value} :
    (right.bind fun r => left.bind fun l => (operation? operator.symbol).bind fun operation =>
        combine operation l r) = none ↔
      left = none ∨ right = none ∨ UndefinedAt operator left right := by
  cases ho : operation? operator.symbol with
  | none => exact absurd hs (Arith.ofSymbol?_eq_none.mp (operation?_eq _ ▸ ho))
  | some operation =>
    cases left with
    | none => simp
    | some l =>
      cases right with
      | none => simp
      | some r => simp [UndefinedAt, ho, combine_eq_none_iff]

/-- A comparison has a value as soon as its operands have. -/
theorem comparison_eq_none_iff {operator : Operator} (hs : (Site.relational operator).Holds Γ)
    {left right : Option A.Value} :
    (left.bind fun l => right.bind fun r => related operator.symbol l r) = none ↔
      left = none ∨ right = none := by
  cases ho : Relation.ofSymbol? operator.symbol with
  | none => exact absurd hs (Relation.ofSymbol?_eq_none.mp ho)
  | some relation =>
    cases left with
    | none => simp
    | some l =>
      cases right with
      | none => simp
      | some r =>
        obtain ⟨x, hx⟩ := exists_widenTo (NumType.unify_takes_left l.1 r.1)
        obtain ⟨y, hy⟩ := exists_widenTo (NumType.unify_takes_right l.1 r.1)
        simp [related_eq operator.symbol rfl hx hy, compare?_eq, ho]

end Arithmetic

mutual

/-- An operation in the expression is undefined on the values of its operands. -/
def Expression.Undefined (Γ : Scope) (σ : A.Store) : Expression → Prop
  | .term term => term.Undefined Γ σ
  | .chain left operator right =>
    left.Undefined Γ σ ∨ right.Undefined Γ σ ∨
      UndefinedAt operator (left.eval Γ σ) (right.eval Γ σ)

@[inherit_doc Expression.Undefined]
def Term.Undefined (Γ : Scope) (σ : A.Store) : Term → Prop
  | .factor factor => factor.Undefined Γ σ
  | .chain left operator right =>
    left.Undefined Γ σ ∨ right.Undefined Γ σ ∨
      UndefinedAt operator (left.eval Γ σ) (right.eval Γ σ)

@[inherit_doc Expression.Undefined]
def Factor.Undefined (Γ : Scope) (σ : A.Store) : Factor → Prop
  | .name _ => False
  | .literal _ => False
  | .parens inner _ => inner.Undefined Γ σ
  | .cast _ inner _ => inner.Undefined Γ σ

end

mutual

/-- An operation in the condition is undefined, on whichever side of an "and" or "or" it is. -/
def Condition.Undefined (Γ : Scope) (σ : A.Store) : Condition → Prop
  | .clause clause => clause.Undefined Γ σ
  | .or left right => left.Undefined Γ σ ∨ right.Undefined Γ σ

@[inherit_doc Condition.Undefined]
def Clause.Undefined (Γ : Scope) (σ : A.Store) : Clause → Prop
  | .test test => test.Undefined Γ σ
  | .and left right => left.Undefined Γ σ ∨ right.Undefined Γ σ

@[inherit_doc Condition.Undefined]
def Test.Undefined (Γ : Scope) (σ : A.Store) : Test → Prop
  | .compare left _ right => left.Undefined Γ σ ∨ right.Undefined Γ σ
  | .not inner _ => inner.Undefined Γ σ

end

mutual

theorem Expression.eval_eq_none_iff : ∀ e : Expression, Γ.Has e.names → Respects Γ e.sites →
    (e.eval Γ σ = none ↔ e.Undefined Γ σ)
  | .term term, hn, hs => by
    rw [Expression.eval, Expression.Undefined]
    exact term.eval_eq_none_iff hn hs
  | .chain left operator right, hn, hs => by
    rw [Expression.names, Scope.has_append] at hn
    rw [Expression.sites, respects_append, respects_cons] at hs
    rw [Expression.Undefined, ← left.eval_eq_none_iff hn.1 hs.1, ← right.eval_eq_none_iff hn.2 hs.2.2,
      Expression.eval]
    exact chain_eq_none_iff hs.2.1

theorem Term.eval_eq_none_iff : ∀ t : Term, Γ.Has t.names → Respects Γ t.sites →
    (t.eval Γ σ = none ↔ t.Undefined Γ σ)
  | .factor factor, hn, hs => by
    rw [Term.eval, Term.Undefined]
    exact factor.eval_eq_none_iff hn hs
  | .chain left operator right, hn, hs => by
    rw [Term.names, Scope.has_append] at hn
    rw [Term.sites, respects_append, respects_cons] at hs
    rw [Term.Undefined, ← left.eval_eq_none_iff hn.1 hs.1, ← right.eval_eq_none_iff hn.2 hs.2.2,
      Term.eval]
    exact chain_eq_none_iff hs.2.1

theorem Factor.eval_eq_none_iff : ∀ f : Factor, Γ.Has f.names → Respects Γ f.sites →
    (f.eval Γ σ = none ↔ f.Undefined Γ σ)
  | .name ident, hn, _ => by
    obtain ⟨type, ht⟩ := Option.isSome_iff_exists.mp (hn ident.name (List.mem_singleton_self _))
    rw [Factor.eval, Factor.Undefined, Arithmetic.lookup?, ht]
    exact iff_of_false (Option.some_ne_none _) not_false
  | .literal literal, _, _ => by
    rw [Factor.eval, Factor.Undefined]
    exact iff_of_false (Option.some_ne_none _) not_false
  | .parens inner span, hn, hs => by
    rw [Factor.eval, Factor.Undefined]
    exact inner.eval_eq_none_iff hn hs
  | .cast type inner span, hn, hs => by
    rw [Factor.Undefined, ← inner.eval_eq_none_iff hn hs, Factor.eval]
    cases inner.eval Γ σ <;> simp

end

mutual

theorem Condition.eval_eq_none_iff : ∀ b : Condition, Γ.Has b.names → Respects Γ b.sites →
    (b.eval Γ σ = none ↔ b.Undefined Γ σ)
  | .clause clause, hn, hs => by
    rw [Condition.eval, Condition.Undefined]
    exact clause.eval_eq_none_iff hn hs
  | .or left right, hn, hs => by
    rw [Condition.names, Scope.has_append] at hn
    rw [Condition.sites, respects_append] at hs
    rw [Condition.Undefined, ← left.eval_eq_none_iff hn.1 hs.1, ← right.eval_eq_none_iff hn.2 hs.2,
      Condition.eval]
    cases left.eval Γ σ <;> cases right.eval Γ σ <;> simp

theorem Clause.eval_eq_none_iff : ∀ b : Clause, Γ.Has b.names → Respects Γ b.sites →
    (b.eval Γ σ = none ↔ b.Undefined Γ σ)
  | .test test, hn, hs => by
    rw [Clause.eval, Clause.Undefined]
    exact test.eval_eq_none_iff hn hs
  | .and left right, hn, hs => by
    rw [Clause.names, Scope.has_append] at hn
    rw [Clause.sites, respects_append] at hs
    rw [Clause.Undefined, ← left.eval_eq_none_iff hn.1 hs.1, ← right.eval_eq_none_iff hn.2 hs.2,
      Clause.eval]
    cases left.eval Γ σ <;> cases right.eval Γ σ <;> simp

theorem Test.eval_eq_none_iff : ∀ b : Test, Γ.Has b.names → Respects Γ b.sites →
    (b.eval Γ σ = none ↔ b.Undefined Γ σ)
  | .compare left operator right, hn, hs => by
    rw [Test.names, Scope.has_append] at hn
    rw [Test.sites, respects_append, respects_cons] at hs
    rw [Test.Undefined, ← left.eval_eq_none_iff hn.1 hs.1, ← right.eval_eq_none_iff hn.2 hs.2.2,
      Test.eval]
    exact comparison_eq_none_iff hs.2.1
  | .not inner span, hn, hs => by
    rw [Test.Undefined, ← inner.eval_eq_none_iff hn hs, Test.eval]
    cases inner.eval Γ σ <;> simp

end

/-! ## Runs through a part -/

namespace Machine

/-- Running the part, which stands between other code, from its first line leads to the line after it, and
from the one world to the other. -/
def Crosses (before part after : List Instruction) (w w' : World A) : Prop :=
  Within (before ++ part ++ after) (before.length + 1) (before.length + 1 + part.length)
    ⟨before.length + 1, w⟩ ⟨before.length + 1 + part.length, w'⟩

end Machine

/-! ## Delivery -/

/-- Between any other code, the code is run through exactly if nothing is undefined. Then the operand
holds the value, and the names that were in use before are not changed. -/
def Delivers (c c' : Compilation) (result : Emitted) (w : World A) (undefined : Prop)
    (value? : Option A.Value) : Prop :=
  ∀ before after,
    ((∃ w', Crosses before result.code after w w') ↔ ¬ undefined) ∧
    ∀ w', Crosses before result.code after w w' →
      ∃ v, value? = some v ∧ Holds c'.symbols w' result.value v ∧ Keeps c.symbols w w'

/-- What computes a value, wherever it stands, delivers it. -/
theorem delivers_of_computes {c c' : Compilation} {result : Emitted} {w : World A} {undefined : Prop}
    {value? : Option A.Value} (hbreaks : breaksOf result.code = [])
    (hnone : value? = none ↔ undefined)
    (h : ∀ {code : List Instruction} {exit n : Nat}, Placed code exit n result.code →
      Computes code n w (n + result.code.length) c.symbols c'.symbols result.value value?) :
    Delivers c c' result w undefined value? := by
  intro before after
  have hopen : result.code.findSome? Instruction.openBreak? = none := by
    rw [Program.findSome?_openBreak?, hbreaks]
    rfl
  have hplaced := placed_of_findSome?_eq_none before after 0 hopen
  constructor
  · rw [← hnone]
    exact hplaced.exists_within_iff hopen h
  · intro w' hcrosses
    obtain ⟨v, hv, hkeeps, hholds⟩ := hplaced.of_within hopen h hcrosses
    exact ⟨v, hv, hholds, hkeeps⟩

/-- In any state of a compilation, the code of an expression or condition whose names are in use delivers
its value, or one or zero. -/
theorem delivers_value (c c' : Compilation) (result : Emitted) (w : World A) :
    (∀ e : Expression, Scope.Has c.symbols.type? e.names → e.emit.Gives c result c' →
      Delivers c c' result w (e.Undefined c.symbols.type? w.store)
        (e.eval c.symbols.type? w.store)) ∧
    (∀ b : Condition, Scope.Has c.symbols.type? b.names → b.emit.Gives c result c' →
      Delivers c c' result w (b.Undefined c.symbols.type? w.store)
        ((b.eval c.symbols.type? w.store).map bool)) := by
  have hcovers : c.symbols.Covers c.symbols.type? := ⟨fun h => h⟩
  constructor
  · intro e hn hg
    obtain ⟨hyields, hrespects⟩ := (e.meets hcovers hn).of_gives hg
    exact delivers_of_computes hyields.breaks (e.eval_eq_none_iff hn hrespects)
      fun hp => e.computes w hg hcovers hn hp
  · intro b hn hg
    obtain ⟨hbreaks, hrespects⟩ := (b.meets hcovers hn).of_gives hg
    refine delivers_of_computes hbreaks ?_ fun hp => b.computes w hg hcovers hn hp
    rw [Option.map_eq_none_iff]
    exact b.eval_eq_none_iff hn hrespects

/-! ### A quotient -/

/-- The condition `x == 0 || 1 / x < 2.5`, where the quotient is evaluated though `x` may be zero. -/
def quotientTest : Condition :=
  let span : Span := ⟨⟨0, "quotient.ou"⟩, ⟨0, "quotient.ou"⟩⟩
  let x : Factor := .name ⟨"x", span⟩
  let quotient : Term := .chain (.factor (.literal ⟨"1"⟩)) ⟨"/", span.start⟩ x
  .or (.clause (.test (.compare (.term (.factor x)) ⟨"==", span.start⟩
      (.term (.factor (.literal ⟨"0"⟩))))))
    (.test (.compare (.term quotient) ⟨"<", span.start⟩ (.term (.factor (.literal ⟨"2.5"⟩)))))

/-- With one variable in use. -/
def quotientStart : Compilation :=
  ⟨Symbols.empty.withDeclared "x" .int, []⟩

/-- With the variable at zero the code is not run through, and with the variable at one it is. -/
theorem delivers_quotientTest :
    Scope.Has quotientStart.symbols.type? quotientTest.names ∧
      ∃ result c', quotientTest.emit.Gives quotientStart result c' ∧
        result.code.length = 9 ∧
        (¬ ∃ w', Crosses (A := Arithmetic.integers) [] result.code []
          ⟨fun _ => (0 : Int), [], []⟩ w') ∧
        ∃ w', Crosses (A := Arithmetic.integers) [] result.code [] ⟨fun _ => (1 : Int), [], []⟩ w' ∧
          Holds c'.symbols w' result.value (bool true) := by
  have hn : Scope.Has quotientStart.symbols.type? quotientTest.names := by
    unfold Scope.Has
    decide
  have hg : ∃ result c', quotientTest.emit.Gives quotientStart result c' ∧ result.code.length = 9 :=
    ⟨_, _, rfl, rfl⟩
  obtain ⟨result, c', hg, hlength⟩ := hg
  refine ⟨hn, result, c', hg, hlength, ?_, ?_⟩
  · rw [((delivers_value quotientStart c' result _).2 quotientTest hn hg [] []).1]
    intro hdefined
    exact hdefined (.inr (.inl (.inr (.inr ⟨.div, ⟨.int, (1 : Int)⟩, ⟨.int, (0 : Int)⟩, rfl, rfl, rfl,
      (1 : Int), (0 : Int), rfl, rfl, rfl⟩))))
  · obtain ⟨hiff, hvalue⟩ := (delivers_value (A := Arithmetic.integers) quotientStart c' result
      ⟨fun _ => (1 : Int), [], []⟩).2 quotientTest hn hg [] []
    have hrespects : Respects quotientStart.symbols.type? quotientTest.sites := by
      unfold Respects
      decide
    have heval : quotientTest.eval (A := Arithmetic.integers) quotientStart.symbols.type?
        (fun _ => (1 : Int)) = some true := rfl
    obtain ⟨w', hw'⟩ := hiff.mpr fun hundefined => by
      rw [← quotientTest.eval_eq_none_iff hn hrespects, heval] at hundefined
      cases hundefined
    obtain ⟨v, hv, hholds, -⟩ := hvalue w' hw'
    rw [heval] at hv
    cases hv
    exact ⟨w', hw', hholds⟩

end Cpl
