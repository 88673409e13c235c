import Cpl.Proofs.Declared

/-!
# Static rules

What a program has to obey before it runs, said on its tree and without any code. Each declared name is
declared once, operators are those of the language, INT takes no FLOAT, and a break is inside a loop or
a switch.

* `Expression.staticType`: the type of an expression, from the types of the declared names;
* `Site`: a place in a tree with a rule of its own, an operator or an assignment. `Statement.sites` and so
  on list them, `Site.Holds` is the rule, and `Site.diagnostic` is what is reported when it is broken;
* `Statement.openBreaks`: the breaks that no loop or switch encloses, in the order of the text;
* `Program.Obeys`: all rules hold. `Program.Violates`: one of them does not, and where.
-/

namespace Cpl

/-! ## Types -/

mutual

/-- FLOAT as soon as one operand of a chain is. -/
def Expression.staticType (Γ : Scope) : Expression → NumType
  | .term term => term.staticType Γ
  | .chain left _ right => (left.staticType Γ).unify (right.staticType Γ)

@[inherit_doc Expression.staticType]
def Term.staticType (Γ : Scope) : Term → NumType
  | .factor factor => factor.staticType Γ
  | .chain left _ right => (left.staticType Γ).unify (right.staticType Γ)

/-- A name has the type it is declared with, a literal is FLOAT if there is a point in it, and a cast has
the type it names. -/
def Factor.staticType (Γ : Scope) : Factor → NumType
  | .name ident => (Γ ident.name).getD .int
  | .literal literal => if '.' ∈ literal.text.toList then .float else .int
  | .parens inner _ => inner.staticType Γ
  | .cast type _ _ => type

end

/-! ## Sites -/

/-- A place to which a rule applies. -/
inductive Site where
  /-- The operator of a chain. -/
  | arithmetic (operator : Operator)
  /-- The operator of a comparison. -/
  | relational (operator : Operator)
  | assignment (target : Ident) (value : Expression) (position : Position)

namespace Site

/-- The rule of the place. -/
def Holds (Γ : Scope) : Site → Prop
  | arithmetic operator => operator.symbol ∈ ["+", "-", "*", "/"]
  | relational operator => operator.symbol ∈ ["==", "!=", "<", ">", "<=", ">="]
  | assignment target value _ => ¬ (Γ target.name = some .int ∧ value.staticType Γ = .float)

instance (Γ : Scope) : ∀ site : Site, Decidable (site.Holds Γ)
  | arithmetic operator => inferInstanceAs (Decidable (operator.symbol ∈ _))
  | relational operator => inferInstanceAs (Decidable (operator.symbol ∈ _))
  | assignment target value _ =>
    inferInstanceAs (Decidable (¬ (Γ target.name = some .int ∧ value.staticType Γ = .float)))

/-- What is reported when the rule is broken. -/
def diagnostic : Site → Diagnostic
  | arithmetic operator => ⟨.unknownOperation operator.symbol, operator.position⟩
  | relational operator => ⟨.unknownOperation operator.symbol, operator.position⟩
  | assignment target _ position => ⟨.assignFloatToInt target.name, position⟩

end Site

mutual

def Expression.sites : Expression → List Site
  | .term term => term.sites
  | .chain left operator right => left.sites ++ .arithmetic operator :: right.sites

def Term.sites : Term → List Site
  | .factor factor => factor.sites
  | .chain left operator right => left.sites ++ .arithmetic operator :: right.sites

def Factor.sites : Factor → List Site
  | .name _ => []
  | .literal _ => []
  | .parens inner _ => inner.sites
  | .cast _ inner _ => inner.sites

end

mutual

def Condition.sites : Condition → List Site
  | .clause clause => clause.sites
  | .or left right => left.sites ++ right.sites

def Clause.sites : Clause → List Site
  | .test test => test.sites
  | .and left right => left.sites ++ right.sites

def Test.sites : Test → List Site
  | .compare left operator right => left.sites ++ .relational operator :: right.sites
  | .not inner _ => inner.sites

end

mutual

def Statement.sites : Statement → List Site
  | .assign target value span => .assignment target value span.start :: value.sites
  | .input _ _ => []
  | .output value _ => value.sites
  | .ifThen condition body _ => condition.sites ++ body.sites
  | .ifElse condition body other _ => condition.sites ++ body.sites ++ other.sites
  | .loop condition body _ => condition.sites ++ body.sites
  | .switch selector cases default _ => selector.sites ++ casesSites cases ++ default.sites
  | .leave _ => []
  | .block block => block.sites

def Block.sites : Block → List Site
  | ⟨body, _⟩ => statementsSites body

def statementsSites : List Statement → List Site
  | [] => []
  | first :: rest => first.sites ++ statementsSites rest

def casesSites : List Case → List Site
  | [] => []
  | ⟨_, body, _⟩ :: rest => body.sites ++ casesSites rest

end

/-! ## Breaks -/

mutual

/-- The breaks that are in no loop and no switch, in order. -/
def Statement.openBreaks : Statement → List Position
  | .ifThen _ body _ => body.openBreaks
  | .ifElse _ body other _ => body.openBreaks ++ other.openBreaks
  | .leave span => [span.start]
  | .block block => block.openBreaks
  | .assign _ _ _ => []
  | .input _ _ => []
  | .output _ _ => []
  | .loop _ _ _ => []
  | .switch _ _ _ _ => []

@[inherit_doc Statement.openBreaks]
def Block.openBreaks : Block → List Position
  | ⟨body, _⟩ => openBreaksOf body

@[inherit_doc Statement.openBreaks]
def openBreaksOf : List Statement → List Position
  | [] => []
  | first :: rest => first.openBreaks ++ openBreaksOf rest

end

/-! ## Programs -/

namespace Program

/-- The declared names where they are declared, in order. -/
def declaredIdents (p : Program) : List Ident :=
  p.declarations.flatMap Declaration.names

/-- The rules for declarations, operators and assignments. -/
structure ObeysSites (p : Program) : Prop where
  declared : (p.declaredIdents.map Ident.name).Nodup
  sites : ∀ site ∈ p.body.sites, site.Holds p.scope

/-- All rules. -/
structure Obeys (p : Program) : Prop extends p.ObeysSites where
  breaks : p.body.openBreaks = []

/-- The diagnostic tells of a rule that is broken, and where. -/
inductive Violates (p : Program) : Diagnostic → Prop where
  /-- The name has been declared before. -/
  | declared {before : List Ident} {ident : Ident} {after : List Ident} :
      p.declaredIdents = before ++ ident :: after → ident.name ∈ before.map Ident.name →
      Violates p ⟨.alreadyDeclared ident.name, ident.span.start⟩
  | site {site : Site} : site ∈ p.body.sites → ¬ site.Holds p.scope → Violates p site.diagnostic
  | openBreak {position : Position} : position ∈ p.body.openBreaks →
      Violates p ⟨.breakOutsideOfLoop, position⟩

/-- A program that breaks a rule does not obey all of them. -/
theorem Violates.not_obeys {p : Program} {error : Diagnostic} (h : p.Violates error) :
    ¬ p.Obeys := by
  intro ho
  cases h with
  | declared he hm =>
    have hn := ho.declared
    rw [he, List.map_append, List.map_cons] at hn
    exact (List.nodup_append.mp hn).2.2 _ hm _ (List.mem_cons_self ..) rfl
  | site hm hs => exact hs (ho.sites _ hm)
  | openBreak hm =>
    rw [ho.breaks] at hm
    cases hm

end Program

end Cpl
