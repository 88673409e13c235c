import Cpl.Emit.Program

/-!
# Successful emissions

What a step of a compilation that succeeds has done. `Emit.Gives step c value c'` says that the step,
run on `c`, gives `value` and leaves `c'`. For each step there is one lemma that says exactly when this
is so in terms of the steps it is made of, so that a proof about emitted code takes the code apart by
these lemmas and never looks into the monad.
-/

namespace Cpl

/-- The name of the next temporary. -/
def Symbols.fresh (s : Symbols) : String :=
  temporaryName s.free

/-- With a declared variable. -/
def Symbols.withDeclared (s : Symbols) (name : String) (type : NumType) : Symbols :=
  { s with entries := ⟨name, type, false⟩ :: s.entries }

/-- With a fresh temporary. -/
def Compilation.withTemporary (c : Compilation) (type : NumType) : Compilation :=
  { c with symbols := (c.symbols.temporary type).2 }

namespace Emit

variable {α β : Type} {c c' : Compilation}

/-- The step succeeds on `c` with `value`, and leaves `c'`. -/
def Gives (step : Emit α) (c : Compilation) (value : α) (c' : Compilation) : Prop :=
  step.on c = (.ok value, c')

theorem Gives.on_eq {step : Emit α} {value : α} (h : Gives step c value c') :
    step.on c = (.ok value, c') := h

theorem Gives.unique {step : Emit α} {value value' : α} {c'' : Compilation}
    (h : Gives step c value c') (h' : Gives step c value' c'') : value' = value ∧ c'' = c' := by
  cases h.on_eq.symm.trans h'.on_eq
  exact ⟨rfl, rfl⟩

/-! ## Basic steps -/

@[simp] theorem gives_pure {value value' : α} :
    Gives (pure value) c value' c' ↔ value' = value ∧ c' = c := by
  simp [Gives, eq_comm]

@[simp] theorem gives_throw {error : Diagnostic} {value : α} :
    ¬ Gives (throw error) c value c' := by
  simp [Gives]

/-- Both steps succeed, the second on what the first has left. -/
@[simp] theorem gives_bind {step : Emit α} {next : α → Emit β} {value : β} :
    Gives (step >>= next) c value c' ↔
      ∃ first d, Gives step c first d ∧ Gives (next first) d value c' := by
  simp only [Gives, on_bind]
  rcases step.on c with ⟨_ | first, d⟩
  · simp
  · constructor
    · exact fun h => ⟨first, d, rfl, h⟩
    · rintro ⟨_, _, h₁, h₂⟩
      cases h₁
      exact h₂

@[simp] theorem gives_map {step : Emit α} {f : α → β} {value : β} :
    Gives (f <$> step) c value c' ↔ ∃ first, Gives step c first c' ∧ value = f first := by
  rw [← bind_pure_comp]
  simp only [gives_bind, gives_pure]
  exact ⟨fun ⟨first, d, h, hv, hd⟩ => ⟨first, hd ▸ h, hv⟩, fun ⟨first, h, hv⟩ => ⟨first, c', h, hv, rfl⟩⟩

@[simp] theorem gives_located {position : Position} {r : Except Problem α} {value : α} :
    Gives (located position r) c value c' ↔ r = .ok value ∧ c' = c := by
  cases r <;> simp [located, eq_comm]

@[simp] theorem gives_warn {message : String} {value : Unit} :
    Gives (warn message) c value c' ↔ c' = { c with warnings := c.warnings ++ [message] } := by
  simp [Gives, eq_comm]

theorem gives_get {value : Compilation} :
    Gives (get : Emit Compilation) c value c' ↔ value = c ∧ c' = c := by
  have h : (get : Emit Compilation).on c = (.ok c, c) := rfl
  simp [Gives, h, eq_comm]

theorem gives_set {d : Compilation} {value : PUnit} :
    Gives (set d : Emit PUnit) c value c' ↔ c' = d := by
  have h : (set d : Emit PUnit).on c = (.ok ⟨⟩, d) := rfl
  simp [Gives, h, eq_comm]

/-- A name is found among declared variables and temporaries alike. -/
@[simp] theorem gives_lookup {name : String} {position : Position} {symbol : Symbol} :
    Gives (lookup name position) c symbol c' ↔ c.symbols.get? name = some symbol ∧ c' = c := by
  rw [← Symbols.lookup_eq_ok_iff]
  exact gives_located

@[simp] theorem gives_typeOf {operand : Operand} {position : Position} {type : NumType} :
    Gives (typeOf operand position) c type c' ↔ c.symbols.typeOf operand = .ok type ∧ c' = c :=
  gives_located

@[simp] theorem gives_temporary {type : NumType} {name : String} :
    Gives (temporary type) c name c' ↔ name = c.symbols.fresh ∧ c' = c.withTemporary type := by
  simp [Gives, Symbols.fresh, Symbols.temporary, Compilation.withTemporary, eq_comm]

/-! ## Operations -/

/-- Nothing is emitted for a value that has the common type; any other value is converted to FLOAT.
-/
theorem gives_widenTo {common own : NumType} {value : Operand} {result : Emitted} :
    Gives (widenTo common own value) c result c' ↔
      own = common ∧ result = ⟨[], value⟩ ∧ c' = c ∨
      own ≠ common ∧ c' = c.withTemporary .float ∧
        result = ⟨[Template.convert .float c.symbols.fresh value], .name c.symbols.fresh⟩ := by
  unfold widenTo
  split <;> simp [widen, and_assoc, *]

/-- Both operands are widened to the type in which they meet, the left one first. -/
theorem gives_widenPair {left right : Operand} {position : Position} {pair : Pair} :
    Gives (widenPair left right position) c pair c' ↔
      ∃ lt rt l d r, c.symbols.typeOf left = .ok lt ∧ c.symbols.typeOf right = .ok rt ∧
        Gives (widenTo (lt.unify rt) lt left) c l d ∧
        Gives (widenTo (lt.unify rt) rt right) d r c' ∧
        pair = ⟨l.code ++ r.code, l.value, r.value, lt.unify rt⟩ := by
  simp [widenPair, and_assoc]

/-- The widened operands are combined into a fresh temporary of their type. -/
theorem gives_arithmetic {operator : Operator} {left right : Operand} {result : Emitted} :
    Gives (arithmetic operator left right) c result c' ↔
      ∃ pair d code, Gives (widenPair left right operator.position) c pair d ∧
        Template.arithmetic operator.symbol pair.type d.symbols.fresh pair.left pair.right =
          .ok code ∧
        c' = d.withTemporary pair.type ∧
        result = ⟨pair.code ++ code, .name d.symbols.fresh⟩ := by
  simp [arithmetic, and_assoc]

/-- The widened operands are compared into a fresh INT temporary. -/
theorem gives_comparison {operator : Operator} {left right : Operand} {result : Emitted} :
    Gives (comparison operator left right) c result c' ↔
      ∃ pair d code, Gives (widenPair left right operator.position) c pair d ∧
        Template.relational operator.symbol pair.type d.symbols.fresh pair.left pair.right =
          .ok code ∧
        c' = d.withTemporary .int ∧
        result = ⟨pair.code ++ code, .name d.symbols.fresh⟩ := by
  simp [comparison, and_assoc]

/-- A cast to the type that the value has emits nothing but a warning. -/
theorem gives_castTo {type : NumType} {value : Operand} {position : Position} {result : Emitted} :
    Gives (castTo type value position) c result c' ↔
      ∃ own, c.symbols.typeOf value = .ok own ∧
        (own = type ∧ c' = { c with warnings := c.warnings ++ [castWarning type position] } ∧
            result = ⟨[], value⟩ ∨
          own ≠ type ∧ c' = c.withTemporary type ∧
            result = ⟨[Template.convert type c.symbols.fresh value], .name c.symbols.fresh⟩) := by
  simp only [castTo, gives_bind, gives_typeOf, and_assoc, exists_and_left, exists_eq_left]
  refine exists_congr fun own => and_congr_right fun _ => ?_
  split <;> simp [and_assoc, *]

/-- The value is widened to the type of the target, and INT takes no FLOAT. -/
theorem gives_assignment {target : Ident} {value : Operand} {position : Position}
    {code : List Instruction} :
    Gives (assignment target value position) c code c' ↔
      ∃ symbol own wide, c.symbols.get? target.name = some symbol ∧
        c.symbols.typeOf value = .ok own ∧ ¬ (symbol.type = .int ∧ own = .float) ∧
        Gives (widenTo symbol.type own value) c wide c' ∧
        code = wide.code ++ [Template.assign symbol.type target.name wide.value] := by
  simp only [assignment, gives_bind, gives_lookup, gives_typeOf, and_assoc, exists_and_left,
    exists_eq_left]
  refine exists_congr fun symbol => and_congr_right fun _ => exists_congr fun own =>
    and_congr_right fun _ => ?_
  split <;> simp [*]

/-- Everything is printed as FLOAT. -/
theorem gives_printing {value : Operand} {position : Position} {code : List Instruction} :
    Gives (printing value position) c code c' ↔
      ∃ own wide, c.symbols.typeOf value = .ok own ∧ Gives (widenTo .float own value) c wide c' ∧
        code = wide.code ++ [Template.print .float wide.value] := by
  simp [printing, and_assoc]

/-- The selector is compared with the label, and a jump over the body follows. -/
theorem gives_caseTest {selector : Operand} {label : Literal} {dest : String} {size : Nat}
    {position : Position} {code : List Instruction} :
    Gives (caseTest selector label dest size position) c code c' ↔
      ∃ pair, Gives (widenPair selector (.literal label) position) c pair c' ∧
        code = pair.code ++ [.quad (.compare .equal pair.type) [.name dest, pair.left, pair.right]] ++
          [.jumpIfZero (.forward (size + 1)) (.name dest)] := by
  have equal (type : NumType) (left right : Operand) :
      Template.relational "==" type dest left right =
        .ok [.quad (.compare .equal type) [.name dest, left, right]] := rfl
  simp only [caseTest, equal, gives_bind, gives_located, gives_pure]
  constructor
  · rintro ⟨pair, d, hp, _, _, ⟨⟨⟩, rfl⟩, rfl, rfl⟩
    exact ⟨pair, hp, rfl⟩
  · rintro ⟨pair, hp, rfl⟩
    exact ⟨pair, c', hp, _, c', ⟨rfl, rfl⟩, rfl, rfl⟩

end Emit

/-! ## Expressions -/

open Emit

section

attribute [local simp] Expression.emit Term.emit Factor.emit Condition.emit Clause.emit Test.emit

variable {c c' : Compilation} {result : Emitted}

theorem Expression.gives_term {term : Term} :
    (Expression.term term).emit.Gives c result c' ↔ term.emit.Gives c result c' := by
  simp

/-- The right operand comes first, then what is to its left, then the operation. -/
theorem Expression.gives_chain {left : Expression} {operator : Operator} {right : Term} :
    (Expression.chain left operator right).emit.Gives c result c' ↔
      ∃ r c₁ l c₂ joined, right.emit.Gives c r c₁ ∧ left.emit.Gives c₁ l c₂ ∧
        (arithmetic operator l.value r.value).Gives c₂ joined c' ∧
        result = ⟨r.code ++ l.code ++ joined.code, joined.value⟩ := by
  simp

theorem Term.gives_factor {factor : Factor} :
    (Term.factor factor).emit.Gives c result c' ↔ factor.emit.Gives c result c' := by
  simp

theorem Term.gives_chain {left : Term} {operator : Operator} {right : Factor} :
    (Term.chain left operator right).emit.Gives c result c' ↔
      ∃ r c₁ l c₂ joined, right.emit.Gives c r c₁ ∧ left.emit.Gives c₁ l c₂ ∧
        (arithmetic operator l.value r.value).Gives c₂ joined c' ∧
        result = ⟨r.code ++ l.code ++ joined.code, joined.value⟩ := by
  simp

theorem Factor.gives_name {ident : Ident} :
    (Factor.name ident).emit.Gives c result c' ↔
      ∃ symbol, c.symbols.get? ident.name = some symbol ∧ c' = c ∧
        result = ⟨[], .name ident.name⟩ := by
  simp [and_assoc]

theorem Factor.gives_literal {literal : Literal} :
    (Factor.literal literal).emit.Gives c result c' ↔
      c' = c ∧ result = ⟨[], .literal literal⟩ := by
  simp [and_comm]

theorem Factor.gives_parens {inner : Expression} {span : Span} :
    (Factor.parens inner span).emit.Gives c result c' ↔ inner.emit.Gives c result c' := by
  simp

theorem Factor.gives_cast {type : NumType} {inner : Expression} {span : Span} :
    (Factor.cast type inner span).emit.Gives c result c' ↔
      ∃ e c₁ last, inner.emit.Gives c e c₁ ∧
        (castTo type e.value span.start).Gives c₁ last c' ∧
        result = ⟨e.code ++ last.code, last.value⟩ := by
  simp

/-! ## Conditions -/

theorem Condition.gives_clause {clause : Clause} :
    (Condition.clause clause).emit.Gives c result c' ↔ clause.emit.Gives c result c' := by
  simp

theorem Condition.gives_or {left : Condition} {right : Clause} :
    (Condition.or left right).emit.Gives c result c' ↔
      ∃ r c₁ l c₂, right.emit.Gives c r c₁ ∧ left.emit.Gives c₁ l c₂ ∧
        c' = c₂.withTemporary .int ∧
        result = ⟨r.code ++ l.code ++ Template.logicalOr c₂.symbols.fresh l.value r.value,
          .name c₂.symbols.fresh⟩ := by
  simp [and_assoc]

theorem Clause.gives_test {test : Test} :
    (Clause.test test).emit.Gives c result c' ↔ test.emit.Gives c result c' := by
  simp

theorem Clause.gives_and {left : Clause} {right : Test} :
    (Clause.and left right).emit.Gives c result c' ↔
      ∃ r c₁ l c₂, right.emit.Gives c r c₁ ∧ left.emit.Gives c₁ l c₂ ∧
        c' = c₂.withTemporary .int ∧
        result = ⟨r.code ++ l.code ++ Template.logicalAnd c₂.symbols.fresh l.value r.value,
          .name c₂.symbols.fresh⟩ := by
  simp [and_assoc]

/-- Unlike in a chain, the left side comes first. -/
theorem Test.gives_compare {left : Expression} {operator : Operator} {right : Expression} :
    (Test.compare left operator right).emit.Gives c result c' ↔
      ∃ l c₁ r c₂ joined, left.emit.Gives c l c₁ ∧ right.emit.Gives c₁ r c₂ ∧
        (comparison operator l.value r.value).Gives c₂ joined c' ∧
        result = ⟨l.code ++ r.code ++ joined.code, joined.value⟩ := by
  simp

theorem Test.gives_not {inner : Condition} {span : Span} :
    (Test.not inner span).emit.Gives c result c' ↔
      ∃ b c₁, inner.emit.Gives c b c₁ ∧ c' = c₁.withTemporary .int ∧
        result = ⟨b.code ++ [Template.logicalNot c₁.symbols.fresh b.value],
          .name c₁.symbols.fresh⟩ := by
  simp [and_assoc]

end

/-! ## Statements -/

section

open Instruction

attribute [local simp] Statement.emit Block.emit emitStatements emitCases

variable {c c' : Compilation} {code : List Instruction}

theorem Statement.gives_assign {target : Ident} {value : Expression} {span : Span} :
    (Statement.assign target value span).emit.Gives c code c' ↔
      ∃ v c₁ rest, value.emit.Gives c v c₁ ∧
        (assignment target v.value span.start).Gives c₁ rest c' ∧ code = v.code ++ rest := by
  simp

theorem Statement.gives_input {target : Ident} {span : Span} :
    (Statement.input target span).emit.Gives c code c' ↔
      ∃ symbol, c.symbols.get? target.name = some symbol ∧ c' = c ∧
        code = [Template.input symbol.type target.name] := by
  simp [and_assoc]

theorem Statement.gives_output {value : Expression} {span : Span} :
    (Statement.output value span).emit.Gives c code c' ↔
      ∃ v c₁ rest, value.emit.Gives c v c₁ ∧ (printing v.value span.start).Gives c₁ rest c' ∧
        code = v.code ++ rest := by
  simp

theorem Statement.gives_ifThen {condition : Condition} {body : Statement} {span : Span} :
    (Statement.ifThen condition body span).emit.Gives c code c' ↔
      ∃ b c₁ t, condition.emit.Gives c b c₁ ∧ body.emit.Gives c₁ t c' ∧
        code = b.code ++ [jumpIfZero (.forward (t.length + 1)) b.value] ++ t := by
  simp

theorem Statement.gives_ifElse {condition : Condition} {body other : Statement} {span : Span} :
    (Statement.ifElse condition body other span).emit.Gives c code c' ↔
      ∃ b c₁ t c₂ e, condition.emit.Gives c b c₁ ∧ body.emit.Gives c₁ t c₂ ∧
        other.emit.Gives c₂ e c' ∧
        code = b.code ++ [jumpIfZero (.forward (t.length + 2)) b.value] ++ t ++
          [jump (.forward (e.length + 1))] ++ e := by
  simp

theorem Instruction.length_closeBreaksFrom (size : Nat) (code : List Instruction) :
    (closeBreaksFrom size code).length = code.length := by
  induction code generalizing size with
  | nil => rfl
  | cons i code ih => cases i <;> simp [closeBreaksFrom, ih]

@[simp] theorem Instruction.length_closeBreaks (code : List Instruction) :
    (closeBreaks code).length = code.length :=
  length_closeBreaksFrom _ code

/-- The code of a loop before its breaks are closed. -/
def loopCode (b : Emitted) (body : List Instruction) : List Instruction :=
  b.code ++ [jumpIfZero (.forward (body.length + 2)) b.value] ++ body ++
    [jump (.backward (b.code.length + (body.length + 1)))]

/-- The body is emitted before the condition, but stands after it. -/
theorem Statement.gives_loop {condition : Condition} {body : Statement} {span : Span} :
    (Statement.loop condition body span).emit.Gives c code c' ↔
      ∃ t c₁ b, body.emit.Gives c t c₁ ∧ condition.emit.Gives c₁ b c' ∧
        code = closeBreaks (loopCode b t) := by
  simp [loopCode]

/-- The breaks of all arms are closed at the end of the default. -/
theorem Statement.gives_switch {selector : Expression} {cases : List Case} {default : Block}
    {span : Span} :
    (Statement.switch selector cases default span).emit.Gives c code c' ↔
      ∃ v c₁ arms c₂ d, selector.emit.Gives c v c₁ ∧ (emitCases v.value cases).Gives c₁ arms c₂ ∧
        default.emit.Gives c₂ d c' ∧ code = closeBreaks (v.code ++ arms ++ d) := by
  simp

theorem Statement.gives_leave {span : Span} :
    (Statement.leave span).emit.Gives c code c' ↔ c' = c ∧ code = [openBreak span.start] := by
  simp [and_comm]

theorem Statement.gives_block {block : Block} :
    (Statement.block block).emit.Gives c code c' ↔ block.emit.Gives c code c' := by
  simp

theorem Block.gives_iff {block : Block} :
    block.emit.Gives c code c' ↔ (emitStatements block.body).Gives c code c' := by
  obtain ⟨body, span⟩ := block
  simp

theorem gives_statements_nil : (emitStatements []).Gives c code c' ↔ c' = c ∧ code = [] := by
  simp [and_comm]

theorem gives_statements_cons {first : Statement} {rest : List Statement} :
    (emitStatements (first :: rest)).Gives c code c' ↔
      ∃ f c₁ r, first.emit.Gives c f c₁ ∧ (emitStatements rest).Gives c₁ r c' ∧
        code = f ++ r := by
  simp

theorem gives_cases_nil {selector : Operand} :
    (emitCases selector []).Gives c code c' ↔ c' = c ∧ code = [] := by
  simp [and_comm]

/-- The slot of the test is taken first, then the body is emitted, then the rest of the test, which
stands before the body. -/
theorem gives_cases_cons {selector : Operand} {first : Case} {rest : List Case} :
    (emitCases selector (first :: rest)).Gives c code c' ↔
      ∃ body c₁ test c₂ more, first.body.emit.Gives (c.withTemporary .int) body c₁ ∧
        (caseTest selector first.label c.symbols.fresh body.length first.span.start).Gives
          c₁ test c₂ ∧
        (emitCases selector rest).Gives c₂ more c' ∧ code = test ++ body ++ more := by
  obtain ⟨label, body, span⟩ := first
  simp [and_assoc]

end

/-! ## Programs -/

/-- A name is declared once only. -/
theorem Symbols.declare_eq_ok {s s' : Symbols} {name : String} {type : NumType} :
    s.declare name type = .ok s' ↔ s.contains name = false ∧ s' = s.withDeclared name type := by
  unfold declare
  split <;> rename_i h
  · simp [h]
  · rw [Bool.not_eq_true] at h
    simp [h, withDeclared, eq_comm]

theorem Emit.gives_declare {c c' : Compilation} {name : String} {type : NumType}
    {position : Position} {value : Unit} :
    (declare name type position).Gives c value c' ↔ c.symbols.contains name = false ∧
      c' = { c with symbols := c.symbols.withDeclared name type } := by
  simp only [declare, gives_bind, gives_get, gives_located, gives_set, Symbols.declare_eq_ok]
  constructor
  · rintro ⟨_, _, ⟨rfl, rfl⟩, _, _, ⟨⟨hn, rfl⟩, rfl⟩, rfl⟩
    exact ⟨hn, rfl⟩
  · rintro ⟨hn, rfl⟩
    exact ⟨c, c, ⟨rfl, rfl⟩, _, c, ⟨⟨hn, rfl⟩, rfl⟩, rfl⟩

namespace Program

/-- The body leaves no break open, and a halt comes after it. -/
theorem gives_emit {p : Program} {c c' : Compilation} {code : List Instruction} :
    p.emit.Gives c code c' ↔
      ∃ c₁ body, (declareAll p.declarations).Gives c () c₁ ∧ p.body.emit.Gives c₁ body c' ∧
        body.findSome? Instruction.openBreak? = none ∧ code = body ++ [.halt] := by
  simp only [emit, gives_bind]
  constructor
  · rintro ⟨_, c₁, hd, body, c₂, hb, h⟩
    split at h <;> rename_i heq
    · exact absurd h gives_throw
    · obtain ⟨rfl, rfl⟩ := gives_pure.mp h
      exact ⟨c₁, body, hd, hb, heq, rfl⟩
  · rintro ⟨c₁, body, hd, hb, heq, rfl⟩
    refine ⟨(), c₁, hd, body, c', hb, ?_⟩
    rw [heq]
    exact gives_pure.mpr ⟨rfl, rfl⟩

/-- A program compiles if its code is emitted and all jumps of that code can be resolved. -/
theorem compile_eq_ok {p : Program} {q : Listing} :
    p.compile = .ok q ↔
      ∃ code c, p.emit.Gives .start code c ∧ Instruction.resolveAll code = .ok q.instructions ∧
        c.warnings = q.warnings := by
  unfold compile Gives
  rcases p.emit.on .start with ⟨_ | code, c⟩
  · simp
  · simp only [Prod.mk.injEq, Except.ok.injEq]
    constructor
    · intro h
      split at h
      · cases h
      · rename_i resolved hr
        cases h
        exact ⟨code, c, ⟨rfl, rfl⟩, hr, rfl⟩
    · rintro ⟨_, _, ⟨rfl, rfl⟩, hr, hw⟩
      rw [hr]
      simp [hw]

end Program

end Cpl
