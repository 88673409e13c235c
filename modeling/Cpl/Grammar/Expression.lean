import Cpl.Cursor
import Cpl.Tree

/-!
# Grammar of expressions and conditions

```text
expression  =  expression ("+" | "-") term  |  term
term        =  term ("*" | "/") factor  |  factor
factor      =  name  |  number  |  "(" expression ")"  |  cast "(" expression ")"
condition   =  condition "||" clause  |  clause
clause      =  clause "&&" test  |  test
test        =  "!" "(" condition ")"  |  expression relation expression
```

A rule looks at the current token only. Chains are read from left to right: the rule for a chain
reads its first operand, and a second rule goes on as long as an operator follows.
-/

namespace Cpl

/-- The type that a cast token names. -/
def Token.castType (t : Token) : Except Diagnostic NumType :=
  match t.value with
  | "static_cast<int>" => .ok .int
  | "static_cast<float>" => .ok .float
  | other => .error ⟨.invalidCast other, t.span.start⟩

/-- The token as an operator. -/
def Token.operator (t : Token) : Operator :=
  ⟨t.value, t.span.start⟩

/-- The token as a name. -/
def Token.ident (t : Token) : Ident :=
  ⟨t.value, t.span⟩

theorem Kind.ne_eof_of_isAdditive {k : Kind} (h : k.isAdditive = true) : k ≠ .eof := by
  rintro rfl
  cases h

theorem Kind.ne_eof_of_isMultiplicative {k : Kind} (h : k.isMultiplicative = true) :
    k ≠ .eof := by
  rintro rfl
  cases h

theorem Kind.ne_eof_of_isRelational {k : Kind} (h : k.isRelational = true) : k ≠ .eof := by
  rintro rfl
  cases h

namespace Cursor

/-! ## Expressions -/

mutual

def expression (c : Cursor) : Reading Expression c.remaining :=
  c.term.andThen fun first c₁ h₁ => (c₁.expressionAfter (.term first)).weaken h₁
termination_by 3 * c.remaining + 2

/-- The chain of terms that goes on after `left`. -/
def expressionAfter (c : Cursor) (left : Expression) : Reading Expression (c.remaining + 1) :=
  if h : c.kind.isAdditive then
    have hlt := remaining_next_lt (Kind.ne_eof_of_isAdditive h)
    c.next.term.andThen fun right c₁ _ =>
    (c₁.expressionAfter (.chain left c.token.operator right)).weaken (by omega)
  else .done left c (Nat.lt_succ_self _)
termination_by 3 * c.remaining

def term (c : Cursor) : Reading Term c.remaining :=
  c.factor.andThen fun first c₁ h₁ => (c₁.termAfter (.factor first)).weaken h₁
termination_by 3 * c.remaining + 1

/-- The chain of factors that goes on after `left`. -/
def termAfter (c : Cursor) (left : Term) : Reading Term (c.remaining + 1) :=
  if h : c.kind.isMultiplicative then
    have hlt := remaining_next_lt (Kind.ne_eof_of_isMultiplicative h)
    c.next.factor.andThen fun right c₁ _ =>
    (c₁.termAfter (.chain left c.token.operator right)).weaken (by omega)
  else .done left c (Nat.lt_succ_self _)
termination_by 3 * c.remaining

def factor (c : Cursor) : Reading Factor c.remaining :=
  match h : c.kind with
  | .identifier => .done (.name c.token.ident) c.next (remaining_next_lt (by simp [h]))
  | .number => .done (.literal ⟨c.token.value⟩) c.next (remaining_next_lt (by simp [h]))
  | .openParen =>
    have hlt : c.next.remaining < c.remaining := remaining_next_lt (by simp [h])
    c.next.expression.andThen fun inner c₁ _ =>
    (c₁.expect .closeParen).andThen fun _ c₂ _ =>
    .done (.parens inner (c₂.spanFrom c.position)) c₂ (by omega)
  | .cast =>
    have hlt : c.next.remaining < c.remaining := remaining_next_lt (by simp [h])
    match c.token.castType with
    | .error error => .failed error c.next
    | .ok type =>
      (c.next.expect .openParen).andThen fun _ c₁ _ =>
      c₁.expression.andThen fun inner c₂ _ =>
      (c₂.expect .closeParen).andThen fun _ c₃ _ =>
      .done (.cast type inner (c₃.spanFrom c.position)) c₃ (by omega)
  | _ => .failed (c.misfit "expected an expression") c
termination_by 3 * c.remaining

end

/-! ## Conditions -/

mutual

def condition (c : Cursor) : Reading Condition c.remaining :=
  c.clause.andThen fun first c₁ h₁ => (c₁.conditionAfter (.clause first)).weaken h₁
termination_by 3 * c.remaining + 2

/-- The disjunction that goes on after `left`. -/
def conditionAfter (c : Cursor) (left : Condition) : Reading Condition (c.remaining + 1) :=
  if h : c.kind = .or then
    have hlt : c.next.remaining < c.remaining := remaining_next_lt (by simp [h])
    c.next.clause.andThen fun right c₁ _ => (c₁.conditionAfter (.or left right)).weaken (by omega)
  else .done left c (Nat.lt_succ_self _)
termination_by 3 * c.remaining

def clause (c : Cursor) : Reading Clause c.remaining :=
  c.test.andThen fun first c₁ h₁ => (c₁.clauseAfter (.test first)).weaken h₁
termination_by 3 * c.remaining + 1

/-- The conjunction that goes on after `left`. -/
def clauseAfter (c : Cursor) (left : Clause) : Reading Clause (c.remaining + 1) :=
  if h : c.kind = .and then
    have hlt : c.next.remaining < c.remaining := remaining_next_lt (by simp [h])
    c.next.test.andThen fun right c₁ _ => (c₁.clauseAfter (.and left right)).weaken (by omega)
  else .done left c (Nat.lt_succ_self _)
termination_by 3 * c.remaining

def test (c : Cursor) : Reading Test c.remaining :=
  if h : c.kind = .not then
    have hlt : c.next.remaining < c.remaining := remaining_next_lt (by simp [h])
    (c.next.expectNoting .openParen "`!` must be followed by `(`").andThen fun _ c₁ _ =>
    c₁.condition.andThen fun inner c₂ _ =>
    (c₂.expect .closeParen).andThen fun _ c₃ _ =>
    .done (.not inner (c₃.spanFrom c.position)) c₃ (by omega)
  else
    c.expression.andThen fun left c₁ _ =>
    if h₁ : c₁.kind.isRelational then
      have hlt := remaining_next_lt (Kind.ne_eof_of_isRelational h₁)
      c₁.next.expression.andThen fun right c₂ _ =>
      .done (.compare left c₁.token.operator right) c₂ (by omega)
    else .failed (c₁.misfit "expected a relational operator") c₁
termination_by 3 * c.remaining

end

end Cursor

end Cpl
