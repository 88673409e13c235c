import Cpl.Proofs.TwoRuns.Correspondence

/-!
# Casts without effect

A cast to the type that its operand has already is idle: it emits nothing, and a warning is made of it. So
a program compiles to the same code if its idle casts are written as parentheses, and the warnings are
those of the idle casts.

* `Program.idleCasts`, `Program.dropIdle`: the idle casts, found by the static types, and the program without
  them;
* `Emit.Reports`: two steps that do the same, while the first one makes the given warnings and the second one
  makes none. `Statement.reports` and the lemmas before it state it for a tree and the tree without its idle
  casts;
* `Program.compile_dropIdle`: the same for whole programs.
-/

namespace Cpl

open Emit

/-! ## Idle casts -/

/-- A cast in a tree, by its type and its place. -/
structure CastSite where
  type : NumType
  position : Position
deriving DecidableEq, Repr

/-- What is said of the cast if it is idle. -/
def CastSite.warning (site : CastSite) : String :=
  castWarning site.type site.position

mutual

/-- The casts to the static type of their operand, in the order of the text. -/
def Expression.idleCasts (Γ : Scope) : Expression → List CastSite
  | .term term => term.idleCasts Γ
  | .chain left _ right => left.idleCasts Γ ++ right.idleCasts Γ

@[inherit_doc Expression.idleCasts]
def Term.idleCasts (Γ : Scope) : Term → List CastSite
  | .factor factor => factor.idleCasts Γ
  | .chain left _ right => left.idleCasts Γ ++ right.idleCasts Γ

@[inherit_doc Expression.idleCasts]
def Factor.idleCasts (Γ : Scope) : Factor → List CastSite
  | .name _ => []
  | .literal _ => []
  | .parens inner _ => inner.idleCasts Γ
  | .cast type inner span =>
    if inner.staticType Γ = type then ⟨type, span.start⟩ :: inner.idleCasts Γ
    else inner.idleCasts Γ

end

mutual

@[inherit_doc Expression.idleCasts]
def Condition.idleCasts (Γ : Scope) : Condition → List CastSite
  | .clause clause => clause.idleCasts Γ
  | .or left right => left.idleCasts Γ ++ right.idleCasts Γ

@[inherit_doc Expression.idleCasts]
def Clause.idleCasts (Γ : Scope) : Clause → List CastSite
  | .test test => test.idleCasts Γ
  | .and left right => left.idleCasts Γ ++ right.idleCasts Γ

@[inherit_doc Expression.idleCasts]
def Test.idleCasts (Γ : Scope) : Test → List CastSite
  | .compare left _ right => left.idleCasts Γ ++ right.idleCasts Γ
  | .not inner _ => inner.idleCasts Γ

end

mutual

@[inherit_doc Expression.idleCasts]
def Statement.idleCasts (Γ : Scope) : Statement → List CastSite
  | .assign _ value _ => value.idleCasts Γ
  | .input _ _ => []
  | .output value _ => value.idleCasts Γ
  | .ifThen condition body _ => condition.idleCasts Γ ++ body.idleCasts Γ
  | .ifElse condition body other _ =>
    condition.idleCasts Γ ++ body.idleCasts Γ ++ other.idleCasts Γ
  | .loop condition body _ => condition.idleCasts Γ ++ body.idleCasts Γ
  | .switch selector cases default _ =>
    selector.idleCasts Γ ++ casesIdleCasts Γ cases ++ default.idleCasts Γ
  | .leave _ => []
  | .block block => block.idleCasts Γ

@[inherit_doc Expression.idleCasts]
def Block.idleCasts (Γ : Scope) : Block → List CastSite
  | ⟨body, _⟩ => statementsIdleCasts Γ body

@[inherit_doc Expression.idleCasts]
def statementsIdleCasts (Γ : Scope) : List Statement → List CastSite
  | [] => []
  | first :: rest => first.idleCasts Γ ++ statementsIdleCasts Γ rest

@[inherit_doc Expression.idleCasts]
def casesIdleCasts (Γ : Scope) : List Case → List CastSite
  | [] => []
  | ⟨_, body, _⟩ :: rest => body.idleCasts Γ ++ casesIdleCasts Γ rest

end

/-! ## Trees without idle casts -/

mutual

/-- The tree in which each idle cast is a pair of parentheses. -/
def Expression.dropIdle (Γ : Scope) : Expression → Expression
  | .term term => .term (term.dropIdle Γ)
  | .chain left operator right => .chain (left.dropIdle Γ) operator (right.dropIdle Γ)

@[inherit_doc Expression.dropIdle]
def Term.dropIdle (Γ : Scope) : Term → Term
  | .factor factor => .factor (factor.dropIdle Γ)
  | .chain left operator right => .chain (left.dropIdle Γ) operator (right.dropIdle Γ)

@[inherit_doc Expression.dropIdle]
def Factor.dropIdle (Γ : Scope) : Factor → Factor
  | .name ident => .name ident
  | .literal literal => .literal literal
  | .parens inner span => .parens (inner.dropIdle Γ) span
  | .cast type inner span =>
    if inner.staticType Γ = type then .parens (inner.dropIdle Γ) span
    else .cast type (inner.dropIdle Γ) span

end

mutual

@[inherit_doc Expression.dropIdle]
def Condition.dropIdle (Γ : Scope) : Condition → Condition
  | .clause clause => .clause (clause.dropIdle Γ)
  | .or left right => .or (left.dropIdle Γ) (right.dropIdle Γ)

@[inherit_doc Expression.dropIdle]
def Clause.dropIdle (Γ : Scope) : Clause → Clause
  | .test test => .test (test.dropIdle Γ)
  | .and left right => .and (left.dropIdle Γ) (right.dropIdle Γ)

@[inherit_doc Expression.dropIdle]
def Test.dropIdle (Γ : Scope) : Test → Test
  | .compare left operator right => .compare (left.dropIdle Γ) operator (right.dropIdle Γ)
  | .not inner span => .not (inner.dropIdle Γ) span

end

mutual

@[inherit_doc Expression.dropIdle]
def Statement.dropIdle (Γ : Scope) : Statement → Statement
  | .assign target value span => .assign target (value.dropIdle Γ) span
  | .input target span => .input target span
  | .output value span => .output (value.dropIdle Γ) span
  | .ifThen condition body span => .ifThen (condition.dropIdle Γ) (body.dropIdle Γ) span
  | .ifElse condition body other span =>
    .ifElse (condition.dropIdle Γ) (body.dropIdle Γ) (other.dropIdle Γ) span
  | .loop condition body span => .loop (condition.dropIdle Γ) (body.dropIdle Γ) span
  | .switch selector cases default span =>
    .switch (selector.dropIdle Γ) (casesDropIdle Γ cases) (default.dropIdle Γ) span
  | .leave span => .leave span
  | .block block => .block (block.dropIdle Γ)

@[inherit_doc Expression.dropIdle]
def Block.dropIdle (Γ : Scope) : Block → Block
  | ⟨body, span⟩ => ⟨statementsDropIdle Γ body, span⟩

@[inherit_doc Expression.dropIdle]
def statementsDropIdle (Γ : Scope) : List Statement → List Statement
  | [] => []
  | first :: rest => first.dropIdle Γ :: statementsDropIdle Γ rest

@[inherit_doc Expression.dropIdle]
def casesDropIdle (Γ : Scope) : List Case → List Case
  | [] => []
  | ⟨label, body, span⟩ :: rest => ⟨label, body.dropIdle Γ, span⟩ :: casesDropIdle Γ rest

end

namespace Program

/-- The idle casts of the body, by the types of the declarations. -/
def idleCasts (p : Program) : List CastSite :=
  p.body.idleCasts p.scope

/-- The program with the idle casts of its body written as parentheses. -/
def dropIdle (p : Program) : Program :=
  ⟨p.declarations, p.body.dropIdle p.scope⟩

end Program

/-! ## Steps that report -/

namespace Emit

variable {α β : Type} {c : Compilation}

/-- On `c` and on compilations with the same symbols the two steps fail alike, or they give the same value
and leave the same symbols. Then the first has added the given warnings, in some order, and the second
none. -/
structure Reports (step step' : Emit α) (c : Compilation) (messages : List String) : Prop where
  on {c' : Compilation} : c'.symbols = c.symbols →
    match step.on c, step'.on c' with
    | (.ok value, d), (.ok value', d') => value' = value ∧ d'.symbols = d.symbols ∧
        d.warnings.Perm (c.warnings ++ messages) ∧ d'.warnings = c'.warnings
    | (.error error, _), (.error error', _) => error' = error
    | _, _ => False

/-- The step makes no warnings, and does not depend on those made before. -/
structure Quiet (step : Emit α) : Prop where
  reports (c : Compilation) : step.Reports step c []

section

variable {step step' : Emit α} {messages messages' : List String}

theorem Reports.perm (h : step.Reports step' c messages) (hm : messages.Perm messages') :
    step.Reports step' c messages' := by
  refine ⟨fun {c'} hc => ?_⟩
  have hon := h.on hc
  rcases hs : step.on c with ⟨error | value, d⟩ <;>
    rcases hs' : step'.on c' with ⟨error' | value', d'⟩ <;>
      simp only [hs, hs'] at hon ⊢
  · exact hon
  · obtain ⟨hv, hd, hw, hw'⟩ := hon
    exact ⟨hv, hd, hw.trans (hm.append_left _), hw'⟩

/-- The second steps are taken where the first ones have succeeded. -/
theorem Reports.bind {next next' : α → Emit β} (h : step.Reports step' c messages)
    (hn : ∀ value d, step.Gives c value d → (next value).Reports (next' value) d messages') :
    (step >>= next).Reports (step' >>= next') c (messages ++ messages') := by
  refine ⟨fun {c'} hc => ?_⟩
  have hfirst := h.on hc
  rw [on_bind, on_bind]
  rcases hs : step.on c with ⟨error | value, d⟩ <;>
    rcases hs' : step'.on c' with ⟨error' | value', d'⟩ <;>
      simp only [hs, hs'] at hfirst ⊢
  · exact hfirst
  · obtain ⟨rfl, hd, hw, hw'⟩ := hfirst
    have hsecond := (hn value' d hs).on hd
    rcases ht : (next value').on d with ⟨error | result, e⟩ <;>
      rcases ht' : (next' value').on d' with ⟨error' | result', e'⟩ <;>
        simp only [ht, ht'] at hsecond ⊢
    · exact hsecond
    · obtain ⟨hv, he, hwarned, hwarned'⟩ := hsecond
      refine ⟨hv, he, ?_, hwarned'.trans hw'⟩
      rw [← List.append_assoc]
      exact hwarned.trans (hw.append_right _)

theorem quiet_pure (value : α) : (pure value : Emit α).Quiet :=
  ⟨fun _ => ⟨fun hc => ⟨rfl, hc, .of_eq (List.append_nil _).symm, rfl⟩⟩⟩

theorem quiet_throw (error : Diagnostic) : (throw error : Emit α).Quiet :=
  ⟨fun _ => ⟨fun _ => rfl⟩⟩

theorem Quiet.bind {next : α → Emit β} (h : step.Quiet) (hn : ∀ value, (next value).Quiet) :
    (step >>= next).Quiet :=
  ⟨fun c => (h.reports c).bind fun value d _ => (hn value).reports d⟩

/-- A quiet step adds nothing to a report, whether it comes after it or before. -/
theorem Reports.bindQuiet {next : α → Emit β} (h : step.Reports step' c messages)
    (hn : ∀ value, (next value).Quiet) :
    (step >>= next).Reports (step' >>= next) c messages := by
  have hb := h.bind fun value d _ => (hn value).reports d
  rwa [List.append_nil] at hb

@[inherit_doc Reports.bindQuiet]
theorem Quiet.bindReports {next next' : α → Emit β} (h : step.Quiet)
    (hn : ∀ value d, step.Gives c value d → (next value).Reports (next' value) d messages) :
    (step >>= next).Reports (step >>= next') c messages :=
  (h.reports c).bind hn

/-- A step that only looks at the symbols. -/
theorem quiet_located (position : Position) (r : Symbols → Except Problem α)
    (h : ∀ c, step.on c = (located position (r c.symbols)).on c) : step.Quiet := by
  refine ⟨fun c => ⟨fun {c'} hc => ?_⟩⟩
  rw [h c, h c', hc]
  cases r c.symbols with
  | ok value => exact ((quiet_pure value).reports c).on hc
  | error problem => rfl

end

/-! ## Operations -/

theorem quiet_lookup (name : String) (position : Position) : (lookup name position).Quiet :=
  quiet_located position (·.lookup name) fun _ => rfl

theorem quiet_typeOf (operand : Operand) (position : Position) : (typeOf operand position).Quiet :=
  quiet_located position (·.typeOf operand) fun _ => rfl

theorem quiet_template (position : Position) (r : Except Problem α) : (located position r).Quiet :=
  quiet_located position (fun _ => r) fun _ => rfl

theorem quiet_temporary (type : NumType) : (temporary type).Quiet := by
  refine ⟨fun c => ⟨fun {c'} hc => ?_⟩⟩
  rw [on_temporary, on_temporary, hc]
  exact ⟨rfl, rfl, .of_eq (List.append_nil _).symm, rfl⟩

theorem quiet_widenTo (common own : NumType) (value : Operand) :
    (widenTo common own value).Quiet := by
  unfold widenTo
  split
  · exact quiet_pure _
  · exact (quiet_temporary _).bind fun _ => quiet_pure _

theorem quiet_widenPair (left right : Operand) (position : Position) :
    (widenPair left right position).Quiet :=
  (quiet_typeOf ..).bind fun _ => (quiet_typeOf ..).bind fun _ =>
    (quiet_widenTo ..).bind fun _ => (quiet_widenTo ..).bind fun _ => quiet_pure _

theorem quiet_arithmetic (operator : Operator) (left right : Operand) :
    (arithmetic operator left right).Quiet :=
  (quiet_widenPair ..).bind fun _ => (quiet_temporary _).bind fun _ =>
    (quiet_template ..).bind fun _ => quiet_pure _

theorem quiet_comparison (operator : Operator) (left right : Operand) :
    (comparison operator left right).Quiet :=
  (quiet_widenPair ..).bind fun _ => (quiet_temporary _).bind fun _ =>
    (quiet_template ..).bind fun _ => quiet_pure _

theorem quiet_assignment (target : Ident) (value : Operand) (position : Position) :
    (assignment target value position).Quiet := by
  refine (quiet_lookup ..).bind fun symbol => (quiet_typeOf ..).bind fun own => ?_
  split
  · exact (quiet_throw _).bind fun _ => (quiet_widenTo ..).bind fun _ => quiet_pure _
  · exact (quiet_widenTo ..).bind fun _ => quiet_pure _

theorem quiet_printing (value : Operand) (position : Position) : (printing value position).Quiet :=
  (quiet_typeOf ..).bind fun _ => (quiet_widenTo ..).bind fun _ => quiet_pure _

theorem quiet_caseTest (selector : Operand) (label : Literal) (dest : String) (size : Nat)
    (position : Position) : (caseTest selector label dest size position).Quiet :=
  (quiet_widenPair ..).bind fun _ => (quiet_template ..).bind fun _ => quiet_pure _

/-- The rest of a cast, once its operand has been emitted. -/
def castAfter (type : NumType) (inner : Emitted) (position : Position) : Emit Emitted := do
  let result ← castTo type inner.value position
  return ⟨inner.code ++ result.code, result.value⟩

/-- An idle cast leaves its operand as it is, and warns. -/
theorem reports_castAfter_idle {inner : Emitted} {type : NumType} (position : Position)
    (h : c.symbols.typeOf inner.value = .ok type) :
    (castAfter type inner position).Reports (pure inner) c
      ([⟨type, position⟩].map CastSite.warning) := by
  refine ⟨fun {c'} hc => ?_⟩
  have hg : (castAfter type inner position).Gives c inner
      { c with warnings := c.warnings ++ [castWarning type position] } := by
    refine gives_bind.mpr ⟨_, _, gives_castTo.mpr ⟨type, h, .inl ⟨rfl, rfl, rfl⟩⟩, ?_⟩
    rw [gives_pure, List.append_nil]
    exact ⟨rfl, rfl⟩
  rw [hg.on_eq]
  exact ⟨rfl, hc, .refl _, rfl⟩

/-- A cast that converts makes no warning. -/
theorem reports_castAfter {inner : Emitted} {type own : NumType} (position : Position)
    (h : c.symbols.typeOf inner.value = .ok own) (hne : own ≠ type) :
    (castAfter type inner position).Reports (castAfter type inner position) c [] := by
  refine ⟨fun {c'} hc => ?_⟩
  have hg (d : Compilation) (hd : d.symbols = c.symbols) :
      (castAfter type inner position).Gives d
        ⟨inner.code ++ [Template.convert type c.symbols.fresh inner.value], .name c.symbols.fresh⟩
        (d.withTemporary type) := by
    rw [← hd] at h ⊢
    exact gives_bind.mpr ⟨_, _, gives_castTo.mpr ⟨own, h, .inr ⟨hne, rfl, rfl⟩⟩,
      gives_pure.mpr ⟨rfl, rfl⟩⟩
  rw [(hg c rfl).on_eq, (hg c' hc).on_eq, List.append_nil]
  refine ⟨rfl, ?_, .refl _, rfl⟩
  rw [Compilation.withTemporary, Compilation.withTemporary, hc]

end Emit

/-! ## Expressions -/

variable {Γ : Scope}

/-- The step for a tree does the same as that for the tree without its idle casts, and warns of these. -/
def Emit.ReportsIdle {α : Type} (step step' : Emit α) (c : Compilation) (sites : List CastSite) :
    Prop :=
  step.Reports step' c (sites.map CastSite.warning)

section

variable {α β : Type} {c : Compilation} {step step' : Emit α} {sites sites' : List CastSite}

theorem Emit.ReportsIdle.bind {next next' : α → Emit β} (h : step.ReportsIdle step' c sites)
    (hn : ∀ value d, step.Gives c value d → (next value).ReportsIdle (next' value) d sites') :
    (step >>= next).ReportsIdle (step' >>= next') c (sites ++ sites') := by
  unfold ReportsIdle
  rw [List.map_append]
  exact Reports.bind h hn

/-- The symbols only grow, so they still cover the scope when the second steps are taken. -/
theorem Emit.ReportsIdle.bindCovered {next next' : α → Emit β} (h : step.ReportsIdle step' c sites)
    (hx : step.Extends) (hc : c.symbols.Covers Γ)
    (hn : ∀ value d, d.symbols.Covers Γ → (next value).ReportsIdle (next' value) d sites') :
    (step >>= next).ReportsIdle (step' >>= next') c (sites ++ sites') :=
  h.bind fun value d hg => hn value d (hc.grows (hx.of_gives hg).symbols)

/-- A part that comes later in the text is emitted first. -/
theorem Emit.ReportsIdle.swap (h : step.ReportsIdle step' c (sites ++ sites')) :
    step.ReportsIdle step' c (sites' ++ sites) :=
  h.perm (List.perm_append_comm.map _)

end

mutual

theorem Expression.reports : ∀ (e : Expression) {c : Compilation}, c.symbols.Covers Γ →
    Γ.Has e.names → e.emit.ReportsIdle (e.dropIdle Γ).emit c (e.idleCasts Γ)
  | .term term, c, hc, hn => by
    rw [Expression.dropIdle, Expression.emit, Expression.emit, Expression.idleCasts]
    exact term.reports hc hn
  | .chain left operator right, c, hc, hn => by
    rw [Expression.names, Scope.has_append] at hn
    rw [Expression.dropIdle, Expression.emit, Expression.emit, Expression.idleCasts]
    refine .swap ((right.reports hc hn.2).bindCovered right.extends_emit hc fun r c₁ hc₁ => ?_)
    exact (left.reports hc₁ hn.1).bindQuiet fun l => (quiet_arithmetic ..).bind fun _ => quiet_pure _

theorem Term.reports : ∀ (t : Term) {c : Compilation}, c.symbols.Covers Γ →
    Γ.Has t.names → t.emit.ReportsIdle (t.dropIdle Γ).emit c (t.idleCasts Γ)
  | .factor factor, c, hc, hn => by
    rw [Term.dropIdle, Term.emit, Term.emit, Term.idleCasts]
    exact factor.reports hc hn
  | .chain left operator right, c, hc, hn => by
    rw [Term.names, Scope.has_append] at hn
    rw [Term.dropIdle, Term.emit, Term.emit, Term.idleCasts]
    refine .swap ((right.reports hc hn.2).bindCovered right.extends_emit hc fun r c₁ hc₁ => ?_)
    exact (left.reports hc₁ hn.1).bindQuiet fun l => (quiet_arithmetic ..).bind fun _ => quiet_pure _

theorem Factor.reports : ∀ (f : Factor) {c : Compilation}, c.symbols.Covers Γ →
    Γ.Has f.names → f.emit.ReportsIdle (f.dropIdle Γ).emit c (f.idleCasts Γ)
  | .name ident, c, _, _ => by
    rw [Factor.dropIdle, Factor.emit, Factor.idleCasts]
    exact ((quiet_lookup ..).bind fun _ => quiet_pure _).reports c
  | .literal literal, c, _, _ => by
    rw [Factor.dropIdle, Factor.emit, Factor.idleCasts]
    exact (quiet_pure _).reports c
  | .parens inner span, c, hc, hn => by
    rw [Factor.dropIdle, Factor.emit, Factor.emit, Factor.idleCasts]
    exact inner.reports hc hn
  | .cast type inner span, c, hc, hn => by
    have hinner := inner.reports hc hn
    -- the type that is looked up for the operand is its static type
    have htype {e : Emitted} {d : Compilation} (he : inner.emit.Gives c e d) :
        d.symbols.typeOf e.value = .ok (inner.staticType Γ) :=
      ((inner.meets hc hn).of_gives he).1.value
    rw [Factor.dropIdle, Factor.idleCasts, Factor.emit]
    split
    · rename_i hidle
      rw [Factor.emit, ← bind_pure (inner.dropIdle Γ).emit]
      exact (ReportsIdle.bind hinner fun e d he =>
        reports_castAfter_idle span.start (hidle ▸ htype he)).swap
    · rename_i hconverts
      rw [Factor.emit, ← List.append_nil (inner.idleCasts Γ)]
      exact ReportsIdle.bind hinner fun e d he => reports_castAfter span.start (htype he) hconverts

end

/-! ## Conditions -/

mutual

theorem Condition.reports : ∀ (b : Condition) {c : Compilation}, c.symbols.Covers Γ →
    Γ.Has b.names → b.emit.ReportsIdle (b.dropIdle Γ).emit c (b.idleCasts Γ)
  | .clause clause, c, hc, hn => by
    rw [Condition.dropIdle, Condition.emit, Condition.emit, Condition.idleCasts]
    exact clause.reports hc hn
  | .or left right, c, hc, hn => by
    rw [Condition.names, Scope.has_append] at hn
    rw [Condition.dropIdle, Condition.emit, Condition.emit, Condition.idleCasts]
    refine .swap ((right.reports hc hn.2).bindCovered right.extends_emit hc fun r c₁ hc₁ => ?_)
    exact (left.reports hc₁ hn.1).bindQuiet fun l => (quiet_temporary _).bind fun _ => quiet_pure _

theorem Clause.reports : ∀ (b : Clause) {c : Compilation}, c.symbols.Covers Γ →
    Γ.Has b.names → b.emit.ReportsIdle (b.dropIdle Γ).emit c (b.idleCasts Γ)
  | .test test, c, hc, hn => by
    rw [Clause.dropIdle, Clause.emit, Clause.emit, Clause.idleCasts]
    exact test.reports hc hn
  | .and left right, c, hc, hn => by
    rw [Clause.names, Scope.has_append] at hn
    rw [Clause.dropIdle, Clause.emit, Clause.emit, Clause.idleCasts]
    refine .swap ((right.reports hc hn.2).bindCovered right.extends_emit hc fun r c₁ hc₁ => ?_)
    exact (left.reports hc₁ hn.1).bindQuiet fun l => (quiet_temporary _).bind fun _ => quiet_pure _

theorem Test.reports : ∀ (b : Test) {c : Compilation}, c.symbols.Covers Γ →
    Γ.Has b.names → b.emit.ReportsIdle (b.dropIdle Γ).emit c (b.idleCasts Γ)
  | .compare left operator right, c, hc, hn => by
    rw [Test.names, Scope.has_append] at hn
    rw [Test.dropIdle, Test.emit, Test.emit, Test.idleCasts]
    refine (left.reports hc hn.1).bindCovered left.extends_emit hc fun l c₁ hc₁ => ?_
    exact (right.reports hc₁ hn.2).bindQuiet fun r => (quiet_comparison ..).bind fun _ => quiet_pure _
  | .not inner span, c, hc, hn => by
    rw [Test.dropIdle, Test.emit, Test.emit, Test.idleCasts]
    exact (inner.reports hc hn).bindQuiet fun b => (quiet_temporary _).bind fun _ => quiet_pure _

end

/-! ## Statements -/

mutual

/-- The code of the parts is the same, and with it the jumps over and back. -/
theorem Statement.reports : ∀ (statement : Statement) {c : Compilation}, c.symbols.Covers Γ →
    Γ.Has statement.names →
    statement.emit.ReportsIdle (statement.dropIdle Γ).emit c (statement.idleCasts Γ)
  | .assign target value span, c, hc, hn => by
    rw [Statement.names] at hn
    obtain ⟨-, hn⟩ := List.forall_mem_cons.mp hn
    rw [Statement.dropIdle, Statement.emit, Statement.emit, Statement.idleCasts]
    exact (value.reports hc hn).bindQuiet fun v => (quiet_assignment ..).bind fun _ => quiet_pure _
  | .input target span, c, _, _ => by
    rw [Statement.dropIdle, Statement.emit, Statement.idleCasts]
    exact ((quiet_lookup ..).bind fun _ => quiet_pure _).reports c
  | .output value span, c, hc, hn => by
    rw [Statement.dropIdle, Statement.emit, Statement.emit, Statement.idleCasts]
    exact (value.reports hc hn).bindQuiet fun v => (quiet_printing ..).bind fun _ => quiet_pure _
  | .ifThen condition body span, c, hc, hn => by
    rw [Statement.names, Scope.has_append] at hn
    rw [Statement.dropIdle, Statement.emit, Statement.emit, Statement.idleCasts]
    refine (condition.reports hc hn.1).bindCovered condition.extends_emit hc fun b c₁ hc₁ => ?_
    exact (body.reports hc₁ hn.2).bindQuiet fun t => quiet_pure _
  | .ifElse condition body other span, c, hc, hn => by
    rw [Statement.names, Scope.has_append, Scope.has_append] at hn
    rw [Statement.dropIdle, Statement.emit, Statement.emit, Statement.idleCasts, List.append_assoc]
    refine (condition.reports hc hn.1.1).bindCovered condition.extends_emit hc fun b c₁ hc₁ => ?_
    refine (body.reports hc₁ hn.1.2).bindCovered body.extends_emit hc₁ fun t c₂ hc₂ => ?_
    exact (other.reports hc₂ hn.2).bindQuiet fun e => quiet_pure _
  | .loop condition body span, c, hc, hn => by
    rw [Statement.names, Scope.has_append] at hn
    rw [Statement.dropIdle, Statement.emit, Statement.emit, Statement.idleCasts]
    refine .swap ((body.reports hc hn.2).bindCovered body.extends_emit hc fun t c₁ hc₁ => ?_)
    exact (condition.reports hc₁ hn.1).bindQuiet fun b => quiet_pure _
  | .switch selector cases ⟨body, bodySpan⟩ span, c, hc, hn => by
    rw [Statement.names, Scope.has_append, Scope.has_append, Block.names] at hn
    rw [Statement.dropIdle, Statement.emit, Statement.emit, Statement.idleCasts, Block.dropIdle,
      Block.emit, Block.emit, Block.idleCasts, List.append_assoc]
    refine (selector.reports hc hn.1.1).bindCovered selector.extends_emit hc fun v c₁ hc₁ => ?_
    refine (reports_cases cases v.value hc₁ hn.1.2).bindCovered (extends_emitCases cases _) hc₁
      fun a c₂ hc₂ => ?_
    exact (reports_statements body hc₂ hn.2).bindQuiet fun d => quiet_pure _
  | .leave span, c, _, _ => by
    rw [Statement.dropIdle, Statement.emit, Statement.idleCasts]
    exact (quiet_pure _).reports c
  | .block ⟨body, bodySpan⟩, c, hc, hn => by
    rw [Statement.names, Block.names] at hn
    rw [Statement.dropIdle, Statement.emit, Statement.emit, Statement.idleCasts, Block.dropIdle,
      Block.emit, Block.emit, Block.idleCasts]
    exact reports_statements body hc hn

theorem reports_statements : ∀ (body : List Statement) {c : Compilation}, c.symbols.Covers Γ →
    Γ.Has (statementsNames body) → (emitStatements body).ReportsIdle
      (emitStatements (statementsDropIdle Γ body)) c (statementsIdleCasts Γ body)
  | [], c, _, _ => by
    rw [statementsDropIdle, emitStatements, statementsIdleCasts]
    exact (quiet_pure _).reports c
  | first :: rest, c, hc, hn => by
    rw [statementsNames, Scope.has_append] at hn
    rw [statementsDropIdle, emitStatements, emitStatements, statementsIdleCasts]
    refine (first.reports hc hn.1).bindCovered first.extends_emit hc fun f c₁ hc₁ => ?_
    exact (reports_statements rest hc₁ hn.2).bindQuiet fun r => quiet_pure _

theorem reports_cases : ∀ (cases : List Case) (selector : Operand) {c : Compilation},
    c.symbols.Covers Γ → Γ.Has (casesNames cases) → (emitCases selector cases).ReportsIdle
      (emitCases selector (casesDropIdle Γ cases)) c (casesIdleCasts Γ cases)
  | [], selector, c, _, _ => by
    rw [casesDropIdle, emitCases, casesIdleCasts]
    exact (quiet_pure _).reports c
  | ⟨label, ⟨body, bodySpan⟩, span⟩ :: rest, selector, c, hc, hn => by
    rw [casesNames_cons, Scope.has_append] at hn
    rw [casesDropIdle, emitCases, emitCases, casesIdleCasts, Block.dropIdle, Block.emit, Block.emit,
      Block.idleCasts]
    refine (quiet_temporary _).bindReports fun dest c₁ gd => ?_
    have hc₁ := hc.grows ((extends_temporary _).of_gives gd).symbols
    refine ReportsIdle.bindCovered (reports_statements body hc₁ hn.1) (extends_emitStatements body) hc₁
      fun b c₂ hc₂ => ?_
    refine (quiet_caseTest ..).bindReports fun test c₃ gt => ?_
    have hc₃ := hc₂.grows ((extends_caseTest ..).of_gives gt).symbols
    exact (reports_cases rest selector hc₃ hn.2).bindQuiet fun more => quiet_pure _

end

/-! ## Programs -/

/-- Breaks that are left open are left open in both. -/
theorem Block.reports_emitWhole (block : Block) {c : Compilation} (hc : c.symbols.Covers Γ)
    (hn : Γ.Has (statementsNames block.body)) :
    block.emitWhole.ReportsIdle (block.dropIdle Γ).emitWhole c (block.idleCasts Γ) := by
  obtain ⟨body, span⟩ := block
  unfold Block.emitWhole
  rw [Block.dropIdle, Block.emit, Block.emit, Block.idleCasts]
  refine (reports_statements body hc hn).bindQuiet fun code => ?_
  split
  · exact quiet_throw _
  · exact quiet_pure _

namespace Program

/-- Casts to the type that the operand has cost nothing, and each of them is reported. A program that uses
declared names only and the program without its idle casts are rejected alike, or they compile to the same
instructions; then the warnings are those of the idle casts, and without them there are none. -/
theorem compile_dropIdle (p : Program) (hp : p.UsesDeclared) :
    (∃ error, p.compile = .error error ∧ p.dropIdle.compile = .error error) ∨
    ∃ q q', p.compile = .ok q ∧ p.dropIdle.compile = .ok q' ∧
      q'.instructions = q.instructions ∧ q.warnings.length = p.idleCasts.length ∧
      q.warnings.Perm (p.idleCasts.map CastSite.warning) ∧ q'.warnings = [] := by
  rcases hd : (declareAll p.declarations).on .start with ⟨error | ⟨⟩, c⟩
  · have hfails (p' : Program) (h : p'.declarations = p.declarations) :
        p'.emit.on .start = (.error error, c) := by
      rw [emit, on_bind, h, hd]
    exact .inl ⟨error, compile_of_error (hfails p rfl), compile_of_error (hfails p.dropIdle rfl)⟩
  · have hc : c.symbols.Covers p.scope := ⟨fun hn => (type?_of_declareAll hd _).trans hn⟩
    have hwarnings : c.warnings = [] := (frame_declareAll hd).1
    have hon := (p.body.reports_emitWhole hc hp.has).on (Eq.refl c.symbols)
    rw [← on_emit hd, show (p.body.dropIdle p.scope).emitWhole.on c = p.dropIdle.emit.on .start from
      (on_emit (p := p.dropIdle) hd).symm] at hon
    rcases he : p.emit.on .start with ⟨error | code, d⟩ <;>
      rcases he' : p.dropIdle.emit.on .start with ⟨error' | code', d'⟩ <;>
        simp only [he, he'] at hon
    · subst hon
      exact .inl ⟨_, compile_of_error he, compile_of_error he'⟩
    · obtain ⟨rfl, -, hwarned, hquiet⟩ := hon
      rw [hwarnings, List.nil_append] at hwarned
      refine .inr ⟨_, _, compile_of_emit he, compile_of_emit he', rfl, ?_, hwarned, ?_⟩
      · exact hwarned.length_eq.trans (List.length_map _)
      · exact hquiet.trans hwarnings

/-- The program `x: float; { x = static_cast<float>(x + static_cast<int>(1)); }`. -/
def cautious : Program :=
  let place (n : UInt32) : Span := ⟨⟨n, "cautious.ou"⟩, ⟨n, "cautious.ou"⟩⟩
  let one : Factor := .cast .int (.term (.factor (.literal ⟨"1"⟩))) (place 39)
  let sum : Expression :=
    .chain (.term (.factor (.name ⟨"x", place 35⟩))) ⟨"+", (place 37).start⟩ (.factor one)
  ⟨[⟨[⟨"x", place 0⟩], .float, place 0⟩],
    ⟨[.assign ⟨"x", place 12⟩ (.term (.factor (.cast .float sum (place 16)))) (place 12)], place 10⟩⟩

/-- Both casts are idle, the outer one since the sum is FLOAT like its left operand. -/
theorem cautious_compile_dropIdle :
    cautious.UsesDeclared ∧ cautious.idleCasts.map CastSite.type = [.float, .int] ∧
    ∃ q q', cautious.compile = .ok q ∧ cautious.dropIdle.compile = .ok q' ∧
      q'.instructions = q.instructions ∧ q.warnings.length = cautious.idleCasts.length ∧
      q.warnings.Perm (cautious.idleCasts.map CastSite.warning) ∧ q'.warnings = [] := by
  have hdeclared : cautious.UsesDeclared := by decide
  refine ⟨hdeclared, by decide, (compile_dropIdle cautious hdeclared).resolve_left ?_⟩
  rintro ⟨error, herror, -⟩
  have hok : cautious.compile.toOption.isSome = true := by decide
  rw [herror] at hok
  cases hok

end Program

end Cpl
