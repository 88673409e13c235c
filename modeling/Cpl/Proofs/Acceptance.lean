import Cpl.Proofs.Jumps
import Cpl.Proofs.Preservation
import Cpl.Proofs.Simulation.Expression
import Cpl.Proofs.StaticRules

/-!
# Which programs compile

Emitting code checks the static rules on the way. `Emit.Meets step c right wrong` says how a step ends:
with a value and a compilation for which `right` holds, or with a diagnostic for which `wrong` holds. By
induction on the tree, the emission of each part succeeds only if the rules of all its sites hold, and
fails only with the diagnostic of a site whose rule is broken; the code of a statement then has its open
breaks, in the order of the text (`Statement.meets` and the lemmas before it).

So a program that uses declared names compiles exactly if it obeys all rules, and any error tells of a
rule that is broken (`Program.compiles_iff_obeys`).
-/

namespace Cpl

namespace Emit

variable {α β : Type} {c c' : Compilation}

/-- The step succeeds with what `right` says, or it fails with a diagnostic as `wrong` says. -/
def Meets (step : Emit α) (c : Compilation) (right : α → Compilation → Prop)
    (wrong : Diagnostic → Prop) : Prop :=
  match step.on c with
  | (.ok value, c') => right value c'
  | (.error error, _) => wrong error

section

variable {step : Emit α} {right : α → Compilation → Prop} {wrong : Diagnostic → Prop}

theorem Meets.of_gives {value : α} (h : step.Meets c right wrong) (hg : step.Gives c value c') :
    right value c' := by
  rwa [Meets, hg.on_eq] at h

theorem Meets.of_error {error : Diagnostic} (h : step.Meets c right wrong)
    (he : step.on c = (.error error, c')) : wrong error := by
  rwa [Meets, he] at h

theorem Gives.meets {value : α} (hg : step.Gives c value c') (h : right value c') :
    step.Meets c right wrong := by
  rwa [Meets, hg.on_eq]

theorem meets_pure {value : α} (h : right value c) : (pure value : Emit α).Meets c right wrong := h

theorem meets_throw {error : Diagnostic} (h : wrong error) :
    (throw error : Emit α).Meets c right wrong := h

/-- The second step runs where the first has succeeded, and the first may fail as the whole does. -/
theorem Meets.bind {next : α → Emit β} {right' : β → Compilation → Prop}
    {wrong' : Diagnostic → Prop} (h : step.Meets c right wrong)
    (hnext : ∀ value c', step.Gives c value c' → right value c' →
      (next value).Meets c' right' wrong')
    (hwrong : ∀ error, wrong error → wrong' error) : (step >>= next).Meets c right' wrong' := by
  unfold Meets
  rw [on_bind]
  rcases hs : step.on c with ⟨error | value, c'⟩
  · exact hwrong error (h.of_error hs)
  · exact hnext value c' hs (h.of_gives hs)

theorem meets_throw_bind {next : α → Emit β} {right' : β → Compilation → Prop}
    {error : Diagnostic} (h : wrong error) :
    ((throw error : Emit α) >>= next).Meets c right' wrong := by
  rw [Meets, on_bind]
  exact h

/-- A step that is known to succeed can be left out. -/
theorem Gives.bind_meets {next : α → Emit β} {value : α} {right' : β → Compilation → Prop}
    (hg : step.Gives c value c') (h : (next value).Meets c' right' wrong) :
    (step >>= next).Meets c right' wrong := by
  rw [Meets, on_bind, hg.on_eq]
  exact h

theorem meets_located {position : Position} {r : Except Problem α}
    (hok : ∀ value, r = .ok value → right value c)
    (herror : ∀ problem, r = .error problem → wrong ⟨problem, position⟩) :
    (located position r).Meets c right wrong := by
  cases r with
  | ok value => exact meets_pure (hok value rfl)
  | error problem => exact meets_throw (herror problem rfl)

end

end Emit

open Emit

variable {Γ : Scope}

/-! ## Sites -/

/-- The rules of all the sites hold. -/
def Respects (Γ : Scope) (sites : List Site) : Prop :=
  ∀ site ∈ sites, site.Holds Γ

/-- The diagnostic is that of a site whose rule is broken. -/
def Faults (Γ : Scope) (sites : List Site) (error : Diagnostic) : Prop :=
  ∃ site ∈ sites, ¬ site.Holds Γ ∧ site.diagnostic = error

theorem respects_append {sites sites' : List Site} :
    Respects Γ (sites ++ sites') ↔ Respects Γ sites ∧ Respects Γ sites' :=
  List.forall_mem_append

theorem respects_cons {site : Site} {sites : List Site} :
    Respects Γ (site :: sites) ↔ site.Holds Γ ∧ Respects Γ sites :=
  List.forall_mem_cons

theorem Faults.mono {sites sites' : List Site} {error : Diagnostic} (h : Faults Γ sites error)
    (hs : sites ⊆ sites') : Faults Γ sites' error := by
  obtain ⟨site, hm, hb, he⟩ := h
  exact ⟨site, hs hm, hb, he⟩

/-! ## Operations -/

/-- The positions of the open breaks in the code. -/
def breaksOf (code : List Instruction) : List Position :=
  code.filterMap Instruction.openBreak?

theorem breaksOf_append (code rest : List Instruction) :
    breaksOf (code ++ rest) = breaksOf code ++ breaksOf rest :=
  List.filterMap_append

theorem breaksOf_jump (target : Target) : breaksOf [.jump target] = [] := rfl

theorem breaksOf_jumpIfZero (target : Target) (condition : Operand) :
    breaksOf [.jumpIfZero target condition] = [] := rfl

/-- A value of the given type, by code without breaks. -/
structure Emitted.Yields (e : Emitted) (s : Symbols) (type : NumType) : Prop where
  value : s.typeOf e.value = .ok type
  breaks : breaksOf e.code = []

section

variable {c : Compilation} {left right value : Operand} {lt rt own common : NumType}

theorem exists_gives_widenTo (c : Compilation) (common own : NumType) (value : Operand) :
    ∃ wide c', (widenTo common own value).Gives c wide c' ∧ breaksOf wide.code = [] := by
  by_cases h : own = common
  · exact ⟨_, _, gives_widenTo.mpr (.inl ⟨h, rfl, rfl⟩), rfl⟩
  · exact ⟨_, _, gives_widenTo.mpr (.inr ⟨h, rfl, rfl⟩), rfl⟩

theorem exists_gives_widenPair (position : Position) (hl : c.symbols.typeOf left = .ok lt)
    (hr : c.symbols.typeOf right = .ok rt) :
    ∃ pair c', (widenPair left right position).Gives c pair c' ∧ pair.type = lt.unify rt ∧
      breaksOf pair.code = [] := by
  obtain ⟨l, d, hl', bl⟩ := exists_gives_widenTo c (lt.unify rt) lt left
  obtain ⟨r, c', hr', br⟩ := exists_gives_widenTo d (lt.unify rt) rt right
  refine ⟨_, c', gives_widenPair.mpr ⟨lt, rt, l, d, r, hl, hr, hl', hr', rfl⟩, rfl, ?_⟩
  rw [breaksOf_append, bl, br, List.append_nil]

theorem Arith.ofSymbol?_eq_none {symbol : String} :
    Arith.ofSymbol? symbol = none ↔ symbol ∉ ["+", "-", "*", "/"] := by
  unfold Arith.ofSymbol?
  split <;> simp_all

theorem Relation.ofSymbol?_eq_none {symbol : String} :
    Relation.ofSymbol? symbol = none ↔ symbol ∉ ["==", "!=", "<", ">", "<=", ">="] := by
  unfold Relation.ofSymbol?
  split <;> simp_all

/-- A template exists for the operators of the language, and for no others. -/
theorem meets_arithmeticTemplate {operator : Operator} {type : NumType} {dest : String} :
    (located operator.position (Template.arithmetic operator.symbol type dest left right)).Meets c
      (fun code c' => (Site.arithmetic operator).Holds Γ ∧ breaksOf code = [] ∧ c' = c)
      (Faults Γ [.arithmetic operator]) := by
  unfold Template.arithmetic
  cases h : Arith.ofSymbol? operator.symbol with
  | none => exact meets_throw ⟨_, List.mem_singleton_self _, Arith.ofSymbol?_eq_none.mp h, rfl⟩
  | some operation =>
    refine meets_pure ⟨Decidable.not_not.mp fun hn => ?_, rfl, rfl⟩
    rw [Arith.ofSymbol?_eq_none.mpr hn] at h
    cases h

theorem meets_relationalTemplate {operator : Operator} {type : NumType} {dest : String} :
    (located operator.position (Template.relational operator.symbol type dest left right)).Meets c
      (fun code c' => (Site.relational operator).Holds Γ ∧ breaksOf code = [] ∧ c' = c)
      (Faults Γ [.relational operator]) := by
  unfold Template.relational
  cases h : Relation.ofSymbol? operator.symbol with
  | none => exact meets_throw ⟨_, List.mem_singleton_self _, Relation.ofSymbol?_eq_none.mp h, rfl⟩
  | some relation =>
    have holds : (Site.relational operator).Holds Γ := Decidable.not_not.mp fun hn => by
      rw [Relation.ofSymbol?_eq_none.mpr hn] at h
      cases h
    cases relation <;> exact meets_pure ⟨holds, rfl, rfl⟩

/-- The operands may have any types; only the operator can be wrong. -/
theorem meets_arithmetic (operator : Operator) (hl : c.symbols.typeOf left = .ok lt)
    (hr : c.symbols.typeOf right = .ok rt) :
    (arithmetic operator left right).Meets c
      (fun result c' => result.Yields c'.symbols (lt.unify rt) ∧ (Site.arithmetic operator).Holds Γ)
      (Faults Γ [.arithmetic operator]) := by
  obtain ⟨pair, d, hp, ht, hb⟩ := exists_gives_widenPair operator.position hl hr
  refine hp.bind_meets (Gives.bind_meets (gives_temporary.mpr ⟨rfl, rfl⟩) ?_)
  refine meets_arithmeticTemplate.bind (fun code c' _ ⟨hs, hc, he⟩ => ?_) fun _ h => h
  subst he
  refine meets_pure ⟨⟨?_, ?_⟩, hs⟩
  · rw [← ht]
    exact d.symbols.typeOf_fresh pair.type
  · rw [breaksOf_append, hb, hc, List.append_nil]

theorem meets_comparison (operator : Operator) (hl : c.symbols.typeOf left = .ok lt)
    (hr : c.symbols.typeOf right = .ok rt) :
    (comparison operator left right).Meets c
      (fun result _ => (Site.relational operator).Holds Γ ∧ breaksOf result.code = [])
      (Faults Γ [.relational operator]) := by
  obtain ⟨pair, d, hp, -, hb⟩ := exists_gives_widenPair operator.position hl hr
  refine hp.bind_meets (Gives.bind_meets (gives_temporary.mpr ⟨rfl, rfl⟩) ?_)
  refine meets_relationalTemplate.bind (fun code c' _ ⟨hs, hc, _⟩ => ?_) fun _ h => h
  refine meets_pure ⟨hs, ?_⟩
  rw [breaksOf_append, hb, hc, List.append_nil]

/-- A cast cannot fail. -/
theorem exists_gives_castTo (type : NumType) (position : Position)
    (hv : c.symbols.typeOf value = .ok own) :
    ∃ result c', (castTo type value position).Gives c result c' ∧
      result.Yields c'.symbols type := by
  by_cases h : own = type
  · subst h
    exact ⟨_, _, gives_castTo.mpr ⟨own, hv, .inl ⟨rfl, rfl, rfl⟩⟩, hv, rfl⟩
  · exact ⟨_, _, gives_castTo.mpr ⟨own, hv, .inr ⟨h, rfl, rfl⟩⟩, c.symbols.typeOf_fresh type, rfl⟩

end

/-! ## Expressions -/

/-- What emitting an expression comes to: a value of its type if the rules of its sites hold, and else
the diagnostic of a site whose rule is broken. -/
def MeetsType (Γ : Scope) (step : Emit Emitted) (c : Compilation) (type : NumType)
    (sites : List Site) : Prop :=
  step.Meets c (fun result c' => result.Yields c'.symbols type ∧ Respects Γ sites) (Faults Γ sites)

/-- The operands of a chain are emitted one after the other, the right one first, and then joined. -/
theorem meetsType_chain {right left : Emit Emitted} {c : Compilation} {rt lt : NumType}
    {rs ls : List Site} (operator : Operator) (hr : MeetsType Γ right c rt rs)
    (hl : ∀ r c₁, right.Gives c r c₁ → MeetsType Γ left c₁ lt ls) (hg : left.Extends) :
    MeetsType Γ (do
      let r ← right
      let l ← left
      let result ← arithmetic operator l.value r.value
      return ⟨r.code ++ l.code ++ result.code, result.value⟩) c (lt.unify rt)
      (ls ++ .arithmetic operator :: rs) := by
  refine hr.bind (fun r c₁ gr ⟨yr, sr⟩ => ?_) fun _ h => h.mono (by simp)
  refine (hl r c₁ gr).bind (fun l c₂ gl ⟨yl, sl⟩ => ?_) fun _ h => h.mono (by simp)
  have yr' := (hg.of_gives gl).symbols.typeOf yr.value
  refine (meets_arithmetic operator yl.value yr').bind (fun j c₃ _ ⟨yj, sj⟩ => ?_)
    fun _ h => h.mono (by simp)
  refine meets_pure ⟨⟨yj.value, ?_⟩, respects_append.mpr ⟨sl, respects_cons.mpr ⟨sj, sr⟩⟩⟩
  rw [breaksOf_append, breaksOf_append, yr.breaks, yl.breaks, yj.breaks]
  rfl

mutual

theorem Expression.meets : ∀ (e : Expression) {c : Compilation}, c.symbols.Covers Γ →
    Γ.Has e.names → MeetsType Γ e.emit c (e.staticType Γ) e.sites
  | .term term, c, hc, hn => by
    rw [Expression.emit, Expression.staticType, Expression.sites]
    exact term.meets hc hn
  | .chain left operator right, c, hc, hn => by
    rw [Expression.names, Scope.has_append] at hn
    rw [Expression.emit, Expression.staticType, Expression.sites]
    exact meetsType_chain operator (right.meets hc hn.2)
      (fun r c₁ gr => left.meets (hc.grows (right.extends_emit.of_gives gr).symbols) hn.1)
      left.extends_emit

theorem Term.meets : ∀ (t : Term) {c : Compilation}, c.symbols.Covers Γ →
    Γ.Has t.names → MeetsType Γ t.emit c (t.staticType Γ) t.sites
  | .factor factor, c, hc, hn => by
    rw [Term.emit, Term.staticType, Term.sites]
    exact factor.meets hc hn
  | .chain left operator right, c, hc, hn => by
    rw [Term.names, Scope.has_append] at hn
    rw [Term.emit, Term.staticType, Term.sites]
    exact meetsType_chain operator (right.meets hc hn.2)
      (fun r c₁ gr => left.meets (hc.grows (right.extends_emit.of_gives gr).symbols) hn.1)
      left.extends_emit

theorem Factor.meets : ∀ (f : Factor) {c : Compilation}, c.symbols.Covers Γ →
    Γ.Has f.names → MeetsType Γ f.emit c (f.staticType Γ) f.sites
  | .name ident, c, hc, hn => by
    obtain ⟨type, ht⟩ := Option.isSome_iff_exists.mp (hn ident.name (List.mem_singleton_self _))
    obtain ⟨symbol, hs, hst⟩ := Option.map_eq_some_iff.mp (hc.type? ht)
    refine (Factor.gives_name.mpr ⟨symbol, hs, rfl, rfl⟩).meets ⟨⟨?_, rfl⟩, List.forall_mem_nil _⟩
    rw [Factor.staticType, ht]
    exact Symbols.typeOf_name.mpr (hc.type? ht)
  | .literal literal, c, hc, hn => by
    refine (Factor.gives_literal.mpr ⟨rfl, rfl⟩).meets ⟨⟨?_, rfl⟩, List.forall_mem_nil _⟩
    rw [Factor.staticType, Symbols.typeOf, Literal.type_eq]
  | .parens inner span, c, hc, hn => by
    rw [Factor.emit, Factor.staticType, Factor.sites]
    exact inner.meets hc hn
  | .cast type inner span, c, hc, hn => by
    rw [Factor.emit, Factor.staticType, Factor.sites]
    refine (inner.meets hc hn).bind (fun e c₁ _ ⟨ye, se⟩ => ?_) fun _ h => h
    obtain ⟨last, c₂, gl, yl⟩ := exists_gives_castTo type span.start ye.value
    refine gl.bind_meets (meets_pure ⟨⟨yl.value, ?_⟩, se⟩)
    rw [breaksOf_append, ye.breaks, yl.breaks, List.append_nil]

end

/-! ## Conditions -/

/-- What emitting a condition comes to. -/
def MeetsTruth (Γ : Scope) (step : Emit Emitted) (c : Compilation) (sites : List Site) : Prop :=
  step.Meets c (fun result _ => breaksOf result.code = [] ∧ Respects Γ sites) (Faults Γ sites)

/-- "And" and "or" alike: the right side comes first, and the template itself cannot fail. -/
theorem meetsTruth_join {right left : Emit Emitted} {c : Compilation} {rs ls : List Site}
    {template : String → Operand → Operand → List Instruction}
    (ht : ∀ dest l r, breaksOf (template dest l r) = []) (hr : MeetsTruth Γ right c rs)
    (hl : ∀ r c₁, right.Gives c r c₁ → MeetsTruth Γ left c₁ ls) :
    MeetsTruth Γ (do
      let r ← right
      let l ← left
      let dest ← temporary .int
      return ⟨r.code ++ l.code ++ template dest l.value r.value, .name dest⟩) c (ls ++ rs) := by
  refine hr.bind (fun r c₁ gr ⟨br, sr⟩ => ?_) fun _ h => h.mono (by simp)
  refine (hl r c₁ gr).bind (fun l c₂ _ ⟨bl, sl⟩ => ?_) fun _ h => h.mono (by simp)
  refine Gives.bind_meets (gives_temporary.mpr ⟨rfl, rfl⟩) ?_
  refine meets_pure ⟨?_, respects_append.mpr ⟨sl, sr⟩⟩
  rw [breaksOf_append, breaksOf_append, br, bl, ht]
  rfl

mutual

theorem Condition.meets : ∀ (b : Condition) {c : Compilation}, c.symbols.Covers Γ →
    Γ.Has b.names → MeetsTruth Γ b.emit c b.sites
  | .clause clause, c, hc, hn => by
    rw [Condition.emit, Condition.sites]
    exact clause.meets hc hn
  | .or left right, c, hc, hn => by
    rw [Condition.names, Scope.has_append] at hn
    rw [Condition.emit, Condition.sites]
    exact meetsTruth_join (fun _ _ _ => rfl) (right.meets hc hn.2)
      fun r c₁ gr => left.meets (hc.grows (right.extends_emit.of_gives gr).symbols) hn.1

theorem Clause.meets : ∀ (b : Clause) {c : Compilation}, c.symbols.Covers Γ →
    Γ.Has b.names → MeetsTruth Γ b.emit c b.sites
  | .test test, c, hc, hn => by
    rw [Clause.emit, Clause.sites]
    exact test.meets hc hn
  | .and left right, c, hc, hn => by
    rw [Clause.names, Scope.has_append] at hn
    rw [Clause.emit, Clause.sites]
    exact meetsTruth_join (fun _ _ _ => rfl) (right.meets hc hn.2)
      fun r c₁ gr => left.meets (hc.grows (right.extends_emit.of_gives gr).symbols) hn.1

theorem Test.meets : ∀ (b : Test) {c : Compilation}, c.symbols.Covers Γ →
    Γ.Has b.names → MeetsTruth Γ b.emit c b.sites
  | .compare left operator right, c, hc, hn => by
    rw [Test.names, Scope.has_append] at hn
    rw [Test.emit, Test.sites]
    refine (left.meets hc hn.1).bind (fun l c₁ gl ⟨yl, sl⟩ => ?_) fun _ h => h.mono (by simp)
    have hc₁ := hc.grows (left.extends_emit.of_gives gl).symbols
    refine (right.meets hc₁ hn.2).bind (fun r c₂ gr ⟨yr, sr⟩ => ?_) fun _ h => h.mono (by simp)
    have yl' := (right.extends_emit.of_gives gr).symbols.typeOf yl.value
    refine (meets_comparison operator yl' yr.value).bind (fun j c₃ _ ⟨sj, bj⟩ => ?_)
      fun _ h => h.mono (by simp)
    refine meets_pure ⟨?_, respects_append.mpr ⟨sl, respects_cons.mpr ⟨sj, sr⟩⟩⟩
    rw [breaksOf_append, breaksOf_append, yl.breaks, yr.breaks, bj]
    rfl
  | .not inner span, c, hc, hn => by
    rw [Test.emit, Test.sites]
    refine (inner.meets hc hn).bind (fun b c₁ _ ⟨bb, sb⟩ => ?_) fun _ h => h
    refine Gives.bind_meets (gives_temporary.mpr ⟨rfl, rfl⟩) (meets_pure ⟨?_, sb⟩)
    rw [breaksOf_append, bb]
    rfl

end

/-! ## Statements -/

/-- A value of any type can be printed. -/
theorem exists_gives_printing {c : Compilation} {value : Operand} {own : NumType}
    (position : Position) (hv : c.symbols.typeOf value = .ok own) :
    ∃ code c', (printing value position).Gives c code c' ∧ breaksOf code = [] := by
  obtain ⟨wide, c', hw, hb⟩ := exists_gives_widenTo c .float own value
  refine ⟨_, c', gives_printing.mpr ⟨own, wide, hv, hw, rfl⟩, ?_⟩
  rw [breaksOf_append, hb]
  rfl

/-- A label of any type can be tested against a selector of any type. -/
theorem exists_gives_caseTest {c : Compilation} {selector : Operand} {type : NumType}
    (label : Literal) (dest : String) (size : Nat) (position : Position)
    (hs : c.symbols.typeOf selector = .ok type) :
    ∃ code c', (caseTest selector label dest size position).Gives c code c' := by
  have hl : c.symbols.typeOf (.literal label) = .ok label.type := rfl
  obtain ⟨pair, c', hp, -, -⟩ := exists_gives_widenPair position hs hl
  exact ⟨_, c', gives_caseTest.mpr ⟨pair, hp, rfl⟩⟩

/-- An assignment fails exactly if it gives FLOAT to INT. -/
theorem meets_assignment {c : Compilation} {target : Ident} {e : Expression} {value : Operand}
    {type : NumType} (position : Position) (hc : c.symbols.Covers Γ)
    (ht : Γ target.name = some type) (hv : c.symbols.typeOf value = .ok (e.staticType Γ)) :
    (assignment target value position).Meets c
      (fun code _ => breaksOf code = [] ∧ (Site.assignment target e position).Holds Γ)
      (Faults Γ [.assignment target e position]) := by
  obtain ⟨symbol, hs, rfl⟩ := Option.map_eq_some_iff.mp (hc.type? ht)
  by_cases hm : symbol.type = .int ∧ e.staticType Γ = .float
  · have hbroken : Faults Γ [.assignment target e position]
        ⟨.assignFloatToInt target.name, position⟩ :=
      ⟨_, List.mem_singleton_self _, fun h => h ⟨ht.trans (congrArg some hm.1), hm.2⟩, rfl⟩
    refine (gives_lookup.mpr ⟨hs, rfl⟩).bind_meets ((gives_typeOf.mpr ⟨hv, rfl⟩).bind_meets ?_)
    rw [if_pos hm]
    exact meets_throw_bind hbroken
  · obtain ⟨wide, c', hw, hb⟩ := exists_gives_widenTo c symbol.type (e.staticType Γ) value
    refine (gives_assignment.mpr ⟨symbol, _, wide, hs, hv, hm, hw, rfl⟩).meets ⟨?_, fun h => ?_⟩
    · rw [breaksOf_append, hb]
      rfl
    · exact hm ⟨Option.some.inj (ht.symm.trans h.1), h.2⟩

/-- Closing leaves no break open. -/
theorem breaksOf_closeBreaksFrom (size : Nat) (code : List Instruction) :
    breaksOf (Instruction.closeBreaksFrom size code) = [] := by
  induction code generalizing size with
  | nil => rfl
  | cons i code ih =>
    cases i with
    | quad opcode operands => exact ih _
    | openBreak position => exact ih _

theorem breaksOf_closeBreaks (code : List Instruction) :
    breaksOf (Instruction.closeBreaks code) = [] :=
  breaksOf_closeBreaksFrom _ code

/-- What emitting statements comes to: code with the given open breaks if the rules of the sites hold, and
else the diagnostic of a site whose rule is broken. -/
def MeetsBreaks (Γ : Scope) (step : Emit (List Instruction)) (c : Compilation)
    (breaks : List Position) (sites : List Site) : Prop :=
  step.Meets c (fun code _ => breaksOf code = breaks ∧ Respects Γ sites) (Faults Γ sites)

mutual

theorem Statement.meets : ∀ (statement : Statement) {c : Compilation}, c.symbols.Covers Γ →
    Γ.Has statement.names →
    MeetsBreaks Γ statement.emit c statement.openBreaks statement.sites
  | .assign target value span, c, hc, hn => by
    rw [Statement.names] at hn
    obtain ⟨ht, hn⟩ := List.forall_mem_cons.mp hn
    obtain ⟨type, ht⟩ := Option.isSome_iff_exists.mp ht
    rw [Statement.emit, Statement.openBreaks, Statement.sites]
    refine (value.meets hc hn).bind (fun v c₁ gv ⟨yv, sv⟩ => ?_) fun _ h => h.mono (by simp)
    have hc₁ := hc.grows (value.extends_emit.of_gives gv).symbols
    refine (meets_assignment span.start hc₁ ht yv.value).bind (fun code c₂ _ ⟨bc, sc⟩ => ?_)
      fun _ h => h.mono (by simp)
    refine meets_pure ⟨?_, respects_cons.mpr ⟨sc, sv⟩⟩
    rw [breaksOf_append, yv.breaks, bc, List.append_nil]
  | .input target span, c, hc, hn => by
    obtain ⟨type, ht⟩ := Option.isSome_iff_exists.mp (hn target.name (List.mem_singleton_self _))
    obtain ⟨symbol, hs, hst⟩ := Option.map_eq_some_iff.mp (hc.type? ht)
    exact (Statement.gives_input.mpr ⟨symbol, hs, rfl, rfl⟩).meets ⟨rfl, List.forall_mem_nil _⟩
  | .output value span, c, hc, hn => by
    rw [Statement.emit, Statement.openBreaks, Statement.sites]
    refine (value.meets hc hn).bind (fun v c₁ _ ⟨yv, sv⟩ => ?_) fun _ h => h
    obtain ⟨code, c₂, gc, bc⟩ := exists_gives_printing span.start yv.value
    refine gc.bind_meets (meets_pure ⟨?_, sv⟩)
    rw [breaksOf_append, yv.breaks, bc, List.append_nil]
  | .ifThen condition body span, c, hc, hn => by
    rw [Statement.names, Scope.has_append] at hn
    rw [Statement.emit, Statement.openBreaks, Statement.sites]
    refine (condition.meets hc hn.1).bind (fun b c₁ gb ⟨bb, sb⟩ => ?_) fun _ h => h.mono (by simp)
    have hc₁ := hc.grows (condition.extends_emit.of_gives gb).symbols
    refine (body.meets hc₁ hn.2).bind (fun t c₂ _ ⟨bt, st⟩ => ?_) fun _ h => h.mono (by simp)
    refine meets_pure ⟨?_, respects_append.mpr ⟨sb, st⟩⟩
    simp only [breaksOf_append, breaksOf_jumpIfZero, bb, bt, List.nil_append]
  | .ifElse condition body other span, c, hc, hn => by
    rw [Statement.names, Scope.has_append, Scope.has_append] at hn
    rw [Statement.emit, Statement.openBreaks, Statement.sites]
    refine (condition.meets hc hn.1.1).bind (fun b c₁ gb ⟨bb, sb⟩ => ?_)
      fun _ h => h.mono (by simp)
    have hc₁ := hc.grows (condition.extends_emit.of_gives gb).symbols
    refine (body.meets hc₁ hn.1.2).bind (fun t c₂ gt ⟨bt, st⟩ => ?_) fun _ h => h.mono (by simp)
    have hc₂ := hc₁.grows (body.extends_emit.of_gives gt).symbols
    refine (other.meets hc₂ hn.2).bind (fun e c₃ _ ⟨be, se⟩ => ?_) fun _ h => h.mono (by simp)
    refine meets_pure ⟨?_, respects_append.mpr ⟨respects_append.mpr ⟨sb, st⟩, se⟩⟩
    simp only [breaksOf_append, breaksOf_jumpIfZero, breaksOf_jump, bb, bt, be, List.nil_append,
      List.append_nil]
  | .loop condition body span, c, hc, hn => by
    rw [Statement.names, Scope.has_append] at hn
    rw [Statement.emit, Statement.openBreaks, Statement.sites]
    refine (body.meets hc hn.2).bind (fun t c₁ gt ⟨_, st⟩ => ?_) fun _ h => h.mono (by simp)
    have hc₁ := hc.grows (body.extends_emit.of_gives gt).symbols
    refine (condition.meets hc₁ hn.1).bind (fun b c₂ _ ⟨_, sb⟩ => ?_) fun _ h => h.mono (by simp)
    exact meets_pure ⟨breaksOf_closeBreaks _, respects_append.mpr ⟨sb, st⟩⟩
  | .switch selector cases ⟨body, bodySpan⟩ span, c, hc, hn => by
    rw [Statement.names, Scope.has_append, Scope.has_append, Block.names] at hn
    rw [Statement.emit, Statement.openBreaks, Statement.sites, Block.sites, Block.emit]
    refine (selector.meets hc hn.1.1).bind (fun v c₁ gv ⟨yv, sv⟩ => ?_)
      fun _ h => h.mono (by simp)
    have hc₁ := hc.grows (selector.extends_emit.of_gives gv).symbols
    refine (meets_cases cases hc₁ hn.1.2 yv.value).bind (fun a c₂ ga sa => ?_)
      fun _ h => h.mono (by simp)
    have hc₂ := hc₁.grows ((extends_emitCases cases _).of_gives ga).symbols
    refine (meets_statements body hc₂ hn.2).bind (fun d c₃ _ ⟨_, sd⟩ => ?_)
      fun _ h => h.mono (by simp)
    exact meets_pure
      ⟨breaksOf_closeBreaks _, respects_append.mpr ⟨respects_append.mpr ⟨sv, sa⟩, sd⟩⟩
  | .leave span, c, hc, hn =>
    (Statement.gives_leave.mpr ⟨rfl, rfl⟩).meets ⟨rfl, List.forall_mem_nil _⟩
  | .block ⟨body, bodySpan⟩, c, hc, hn => by
    rw [Statement.names, Block.names] at hn
    rw [Statement.emit, Statement.openBreaks, Statement.sites, Block.openBreaks, Block.sites,
      Block.emit]
    exact meets_statements body hc hn

theorem meets_statements : ∀ (body : List Statement) {c : Compilation}, c.symbols.Covers Γ →
    Γ.Has (statementsNames body) →
    MeetsBreaks Γ (emitStatements body) c (openBreaksOf body) (statementsSites body)
  | [], c, hc, hn => (gives_statements_nil.mpr ⟨rfl, rfl⟩).meets ⟨rfl, List.forall_mem_nil _⟩
  | first :: rest, c, hc, hn => by
    rw [statementsNames, Scope.has_append] at hn
    rw [emitStatements, openBreaksOf, statementsSites]
    refine (first.meets hc hn.1).bind (fun f c₁ gf ⟨bf, sf⟩ => ?_) fun _ h => h.mono (by simp)
    have hc₁ := hc.grows (first.extends_emit.of_gives gf).symbols
    refine (meets_statements rest hc₁ hn.2).bind (fun r c₂ _ ⟨br, sr⟩ => ?_)
      fun _ h => h.mono (by simp)
    refine meets_pure ⟨?_, respects_append.mpr ⟨sf, sr⟩⟩
    rw [breaksOf_append, bf, br]

/-- The breaks in the arms are closed by the switch, whatever they are. -/
theorem meets_cases : ∀ (cases : List Case) {c : Compilation} {selector : Operand}
    {type : NumType}, c.symbols.Covers Γ → Γ.Has (casesNames cases) →
    c.symbols.typeOf selector = .ok type →
    (emitCases selector cases).Meets c (fun _ _ => Respects Γ (casesSites cases))
      (Faults Γ (casesSites cases))
  | [], c, selector, type, hc, hn, hs =>
    (gives_cases_nil.mpr ⟨rfl, rfl⟩).meets (List.forall_mem_nil _)
  | ⟨label, ⟨body, bodySpan⟩, span⟩ :: rest, c, selector, type, hc, hn, hs => by
    rw [casesNames_cons, Scope.has_append] at hn
    rw [emitCases, casesSites, Block.sites, Block.emit]
    refine Gives.bind_meets (gives_temporary.mpr ⟨rfl, rfl⟩) ?_
    have g := c.symbols.grows_temporary .int
    refine (meets_statements body (hc.grows g) hn.1).bind (fun b c₁ gb ⟨_, sb⟩ => ?_)
      fun _ h => h.mono (by simp)
    have g₁ := g.trans ((extends_emitStatements body).of_gives gb).symbols
    obtain ⟨test, c₂, gt⟩ :=
      exists_gives_caseTest label c.symbols.fresh b.length span.start (g₁.typeOf hs)
    refine gt.bind_meets ?_
    have g₂ := g₁.trans ((extends_caseTest ..).of_gives gt).symbols
    refine (meets_cases rest (hc.grows g₂) hn.2 (g₂.typeOf hs)).bind (fun m c₃ _ sm => ?_)
      fun _ h => h.mono (by simp)
    exact meets_pure (respects_append.mpr ⟨sb, sm⟩)

end

/-! ## Programs -/

/-- One of the names has been declared before, and the diagnostic says so. -/
def Repeats (idents : List Ident) (error : Diagnostic) : Prop :=
  ∃ before ident after, idents = before ++ ident :: after ∧ ident.name ∈ before.map Ident.name ∧
    error = ⟨.alreadyDeclared ident.name, ident.span.start⟩

theorem Repeats.append {idents : List Ident} {error : Diagnostic} (h : Repeats idents error)
    (rest : List Ident) : Repeats (idents ++ rest) error := by
  obtain ⟨before, ident, after, rfl, hm, rfl⟩ := h
  exact ⟨before, ident, after ++ rest, by rw [List.append_assoc, List.cons_append], hm, rfl⟩

/-- The symbols are those of the names declared so far, each of them once. -/
structure Symbols.HasJust (s : Symbols) (idents : List Ident) : Prop where
  contains (name : String) : s.contains name = true ↔ name ∈ idents.map Ident.name
  nodup : (idents.map Ident.name).Nodup

theorem Symbols.contains_withDeclared (s : Symbols) (name : String) (type : NumType) (x : String) :
    (s.withDeclared name type).contains x = true ↔ name = x ∨ s.contains x = true := by
  simp [contains, withDeclared]

/-- A name is added if it is not among those declared so far. -/
theorem meets_declare {seen : List Ident} {c : Compilation} (h : c.symbols.HasJust seen)
    (type : NumType) (ident : Ident) :
    (declare ident.name type ident.span.start).Meets c
      (fun _ c' => c'.symbols.HasJust (seen ++ [ident])) (Repeats (seen ++ [ident])) := by
  have hsymbols : (located ident.span.start (c.symbols.declare ident.name type)).Meets c
      (fun symbols _ => symbols.HasJust (seen ++ [ident])) (Repeats (seen ++ [ident])) := by
    refine meets_located (fun symbols hs => ?_) fun problem hs => ?_
    · obtain ⟨hn, rfl⟩ := Symbols.declare_eq_ok.mp hs
      have hm : ident.name ∉ seen.map Ident.name := by
        rw [← h.contains, hn]
        exact Bool.false_ne_true
      refine ⟨fun name => ?_, ?_⟩
      · rw [Symbols.contains_withDeclared, h.contains, List.map_append, List.mem_append,
          List.map_singleton, List.mem_singleton, or_comm, eq_comm]
      · rw [List.map_append, List.map_singleton]
        exact List.nodup_append.mpr ⟨h.nodup, List.nodup_singleton _, fun a ha b hb => by
          rw [List.mem_singleton.mp hb]
          exact fun he => hm (he ▸ ha)⟩
    · unfold Symbols.declare at hs
      split at hs <;> rename_i hn <;> cases hs
      exact ⟨seen, ident, [], rfl, (h.contains _).mp hn, rfl⟩
  refine (gives_get.mpr ⟨rfl, rfl⟩).bind_meets ?_
  exact hsymbols.bind (fun symbols _ _ hs => hs) fun _ he => he

theorem meets_declareNames (type : NumType) : ∀ (idents : List Ident) {seen : List Ident}
    {c : Compilation}, c.symbols.HasJust seen →
    (declareNames type idents).Meets c (fun _ c' => c'.symbols.HasJust (seen ++ idents))
      (Repeats (seen ++ idents))
  | [], seen, c, h => by
    rw [declareNames, List.append_nil]
    exact meets_pure h
  | first :: rest, seen, c, h => by
    rw [declareNames, List.append_cons]
    exact (meets_declare h type first).bind
      (fun _ c₁ _ h₁ => meets_declareNames type rest h₁) fun _ he => he.append rest

theorem meets_declareAll : ∀ (declarations : List Declaration) {seen : List Ident}
    {c : Compilation}, c.symbols.HasJust seen →
    (declareAll declarations).Meets c
      (fun _ c' => c'.symbols.HasJust (seen ++ declarations.flatMap Declaration.names))
      (Repeats (seen ++ declarations.flatMap Declaration.names))
  | [], seen, c, h => by
    rw [declareAll, List.flatMap_nil, List.append_nil]
    exact meets_pure h
  | first :: rest, seen, c, h => by
    rw [declareAll, List.flatMap_cons, ← List.append_assoc]
    exact (meets_declareNames first.type first.names h).bind
      (fun _ c₁ _ h₁ => meets_declareAll rest h₁) fun _ he => he.append _

namespace Program

variable {p : Program}

/-- The first open break in the code is the one that is reported. -/
theorem findSome?_openBreak? (code : List Instruction) :
    code.findSome? Instruction.openBreak? = (breaksOf code).head? :=
  List.head?_filterMap.symm

/-- Code is emitted if all rules are obeyed. Breaks are looked at last, when no other rule has been
found broken. -/
theorem meets_emit (hp : p.UsesDeclared) :
    p.emit.Meets .start (fun _ _ => p.Obeys) fun error => p.Violates error ∧
      (error.problem = .breakOutsideOfLoop →
        p.ObeysSites ∧ p.body.openBreaks.head? = some error.position) := by
  have hstart : Symbols.empty.HasJust [] := ⟨fun _ => by simp [Symbols.empty, Symbols.contains],
    List.nodup_nil⟩
  refine (meets_declareAll p.declarations hstart).bind (fun _ c₁ hd hs => ?_) ?_
  · have hc : c₁.symbols.Covers p.scope := ⟨fun hn => (type?_of_declareAll hd _).trans hn⟩
    have hbody : MeetsBreaks p.scope p.body.emit c₁ p.body.openBreaks p.body.sites := by
      obtain ⟨declarations, body, span⟩ := p
      rw [Block.emit, Block.openBreaks, Block.sites]
      exact meets_statements body hc hp.has
    refine hbody.bind ?_ ?_
    · rintro code c₂ - ⟨hb, hsites⟩
      have hobeys : p.ObeysSites := ⟨hs.nodup, hsites⟩
      rw [findSome?_openBreak?, hb]
      cases ho : p.body.openBreaks with
      | nil => exact meets_pure ⟨hobeys, ho⟩
      | cons position rest =>
        refine meets_throw ⟨.openBreak ?_, fun _ => ⟨hobeys, rfl⟩⟩
        rw [ho]
        exact List.mem_cons_self ..
    · rintro _ ⟨site, hm, hbroken, rfl⟩
      refine ⟨.site hm hbroken, fun h => ?_⟩
      cases site <;> cases h
  · rintro _ ⟨before, ident, after, he, hm, rfl⟩
    exact ⟨.declared he hm, fun h => by cases h⟩

/-- Since all jumps of emitted code can be resolved, compiling fails only where emitting does. -/
theorem compile_of_emit {code : List Instruction} {c : Compilation}
    (h : p.emit.Gives .start code c) :
    p.compile = .ok ⟨Instruction.settleFrom 1 code, c.warnings⟩ :=
  compile_eq_ok.mpr ⟨code, c, h, resolveAll_of_emit h, rfl⟩

theorem compile_of_error {error : Diagnostic} {c : Compilation}
    (h : p.emit.on .start = (.error error, c)) : p.compile = .error error := by
  rw [compile, h]

/-- A program that uses declared names only compiles exactly if it obeys all rules: its declared names are
distinct, its operators are those of the language, no FLOAT is assigned to an INT variable and no break is
outside of loops and switches. Any error tells of a rule that is broken at that place. It is about a
break only if no other rule is broken, and then about the first one. -/
theorem compiles_iff_obeys (p : Program) (hp : p.UsesDeclared) :
    ((∃ q, p.compile = .ok q) ↔ p.Obeys) ∧
    ∀ error, p.compile = .error error → p.Violates error ∧
      (error.problem = .breakOutsideOfLoop →
        p.ObeysSites ∧ p.body.openBreaks.head? = some error.position) := by
  have hmeets := meets_emit hp
  rcases he : p.emit.on .start with ⟨error | code, c⟩
  · obtain ⟨hv, hbreak⟩ := hmeets.of_error he
    rw [compile_of_error he]
    refine ⟨⟨fun h => (nomatch h), fun ho => absurd ho hv.not_obeys⟩, fun error' h => ?_⟩
    cases h
    exact ⟨hv, hbreak⟩
  · rw [compile_of_emit he]
    exact ⟨⟨fun _ => hmeets.of_gives he, fun _ => ⟨_, rfl⟩⟩, fun error h => (nomatch h)⟩

/-- The program `x: int; { while (x < 1) break; ... }` with more statements. -/
def straying (more : List Statement) : Program :=
  let span : Span := ⟨⟨0, "straying.ou"⟩, ⟨0, "straying.ou"⟩⟩
  let x : Expression := .term (.factor (.name ⟨"x", span⟩))
  let one : Expression := .term (.factor (.literal ⟨"1"⟩))
  { declarations := [⟨[⟨"x", span⟩], .int, span⟩]
    body := ⟨.loop (.clause (.test (.compare x ⟨"<", span.start⟩ one))) (.leave span) span :: more,
      span⟩ }

/-- The break inside the loop is allowed, the one after it is not. -/
theorem straying_violates :
    let at27 : Position := ⟨27, "straying.ou"⟩
    ((straying []).UsesDeclared ∧ (straying []).Obeys) ∧
    (straying [.leave ⟨at27, at27⟩]).UsesDeclared ∧ ¬ (straying [.leave ⟨at27, at27⟩]).Obeys ∧
    (straying [.leave ⟨at27, at27⟩]).compile = .error ⟨.breakOutsideOfLoop, at27⟩ ∧
    (straying [.leave ⟨at27, at27⟩]).ObeysSites := by
  intro at27
  have hinside : (straying []).UsesDeclared := by decide
  have hoks := (compiles_iff_obeys _ hinside).1
  have houtside : (straying [.leave ⟨at27, at27⟩]).UsesDeclared := by decide
  have herror : (straying [.leave ⟨at27, at27⟩]).compile = .error ⟨.breakOutsideOfLoop, at27⟩ := rfl
  obtain ⟨hviolates, hbreak⟩ := (compiles_iff_obeys _ houtside).2 _ herror
  exact ⟨⟨hinside, hoks.mp ⟨_, rfl⟩⟩, houtside, hviolates.not_obeys, herror, (hbreak rfl).1⟩

end Program

end Cpl
