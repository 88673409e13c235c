import Cpl.Proofs.Grammar.Passing

/-!
# Where objections come from

All diagnostics of a text that can be scanned are about one of its tokens: those of the grammar, and those
that may be made of the tree afterwards.

* `Diagnostic.IsAbout`: the diagnostic is placed at the token, and if it names a variable, then the token is
  this variable;
* `Program.objections`: the diagnostics that a tree may give rise to, of its names, its assignments and its
  breaks;
* `Cursor.within_program`: a program that is read from tokens has objections about these tokens only, and so
  is the diagnostic of tokens from which none is read. This is followed through the rules of the grammar by
  `Reading.Within`.
-/

namespace Cpl

open Reading

/-! ## Diagnostics -/

namespace Problem

/-- The variable that the problem is about. -/
def subject? : Problem → Option String
  | alreadyDeclared var => some var
  | unknownVariable var => some var
  | assignFloatToInt var => some var
  | _ => none

/-- The problem is that of a token, which it finds in the wrong place or which it does not allow. -/
def isOfToken : Problem → Bool
  | unexpectedToken _ => true
  | misfitToken _ _ => true
  | labelNotInteger _ => true
  | alreadyDeclared _ => true
  | unknownVariable _ => true
  | assignFloatToInt _ => true
  | breakOutsideOfLoop => true
  | _ => false

end Problem

namespace Diagnostic

/-- The diagnostic is placed at the token, which is the variable that it names if it names one. -/
structure IsAbout (d : Diagnostic) (t : Token) : Prop where
  position : d.position = t.span.start
  named {name : String} : d.problem.subject? = some name → t.kind = .identifier ∧ t.value = name
  isOfToken : d.problem.isOfToken = true

/-- The diagnostic is about one of the tokens. -/
def IsAmong (d : Diagnostic) (ts : List Token) : Prop :=
  ∃ t ∈ ts, d.IsAbout t

end Diagnostic

/-! ## Objections -/

namespace Ident

variable (i : Ident)

def unknown : Diagnostic :=
  ⟨.unknownVariable i.name, i.span.start⟩

def repeated : Diagnostic :=
  ⟨.alreadyDeclared i.name, i.span.start⟩

end Ident

mutual

/-- The diagnostics that emitting the code may end with. -/
def Expression.objections : Expression → List Diagnostic
  | .term term => term.objections
  | .chain left _ right => left.objections ++ right.objections

@[inherit_doc Expression.objections]
def Term.objections : Term → List Diagnostic
  | .factor factor => factor.objections
  | .chain left _ right => left.objections ++ right.objections

@[inherit_doc Expression.objections]
def Factor.objections : Factor → List Diagnostic
  | .name ident => [ident.unknown]
  | .literal _ => []
  | .parens inner _ => inner.objections
  | .cast _ inner _ => inner.objections

end

mutual

@[inherit_doc Expression.objections]
def Condition.objections : Condition → List Diagnostic
  | .clause clause => clause.objections
  | .or left right => left.objections ++ right.objections

@[inherit_doc Expression.objections]
def Clause.objections : Clause → List Diagnostic
  | .test test => test.objections
  | .and left right => left.objections ++ right.objections

@[inherit_doc Expression.objections]
def Test.objections : Test → List Diagnostic
  | .compare left _ right => left.objections ++ right.objections
  | .not inner _ => inner.objections

end

mutual

/-- The diagnostics that emitting the code may end with, or that a break left open may lead to. -/
def Statement.objections : Statement → List Diagnostic
  | .assign target value span =>
    target.unknown :: ⟨.assignFloatToInt target.name, span.start⟩ :: value.objections
  | .input target _ => [target.unknown]
  | .output value _ => value.objections
  | .ifThen condition body _ => condition.objections ++ body.objections
  | .ifElse condition body other _ =>
    condition.objections ++ body.objections ++ other.objections
  | .loop condition body _ => condition.objections ++ body.objections
  | .switch selector cases default _ =>
    selector.objections ++ casesObjections cases ++ default.objections
  | .leave span => [⟨.breakOutsideOfLoop, span.start⟩]
  | .block block => block.objections

@[inherit_doc Statement.objections]
def Block.objections : Block → List Diagnostic
  | ⟨body, _⟩ => statementsObjections body

@[inherit_doc Statement.objections]
def statementsObjections : List Statement → List Diagnostic
  | [] => []
  | first :: rest => first.objections ++ statementsObjections rest

@[inherit_doc Statement.objections]
def casesObjections : List Case → List Diagnostic
  | [] => []
  | ⟨_, body, _⟩ :: rest => body.objections ++ casesObjections rest

end

def Declaration.objections (d : Declaration) : List Diagnostic :=
  d.names.map Ident.repeated

/-- The diagnostics that compiling the program may end with. -/
def Program.objections (p : Program) : List Diagnostic :=
  p.declarations.flatMap Declaration.objections ++ p.body.objections

/-! ## Readings -/

/-- The cursor stands in the list of tokens, in which every cast names a type. -/
structure Cursor.On (c : Cursor) (ts : List Token) : Prop where
  tokens : c.tokens = ts
  castable : ∀ t ∈ ts, t.kind = .cast → ∃ type, t.castType = .ok type

namespace Cursor.On

variable {c : Cursor} {ts : List Token}

theorem next (h : c.On ts) : c.next.On ts :=
  ⟨c.tokens_next.trans h.tokens, h.castable⟩

theorem token_mem (h : c.On ts) : c.token ∈ ts := by
  rw [← h.tokens]
  obtain ⟨passed, ahead, finish⟩ := c
  cases ahead <;> simp [token, Cursor.tokens]

end Cursor.On

section

variable {α : Type} {n : Nat} {ts : List Token}

/-- The reading stays among the tokens. What it reads has objections about these only, and if it fails, then
because of one of them. -/
def Reading.Within (ts : List Token) (objections : α → List Diagnostic) (r : Reading α n) : Prop :=
  r.Ends (fun x c => c.On ts ∧ ∀ d ∈ objections x, d.IsAmong ts) fun error _ =>
    error.IsAmong ts

/-- A diagnostic that names the variable at which it is placed. -/
theorem Token.isAmong_named {t : Token} {problem : Problem} (h : t ∈ ts) (hk : t.kind = .identifier)
    (hs : problem.subject? = some t.value) (hp : problem.isOfToken = true) :
    Diagnostic.IsAmong ⟨problem, t.span.start⟩ ts := by
  refine ⟨t, h, rfl, fun hn => ⟨hk, ?_⟩, hp⟩
  exact Option.some.inj (hs.symm.trans hn)

theorem Token.isAmong_unknown {t : Token} (h : t ∈ ts) (hk : t.kind = .identifier) :
    t.ident.unknown.IsAmong ts :=
  isAmong_named h hk rfl rfl

theorem Token.isAmong_repeated {t : Token} (h : t ∈ ts) (hk : t.kind = .identifier) :
    t.ident.repeated.IsAmong ts :=
  isAmong_named h hk rfl rfl

namespace Cursor

variable {c : Cursor}

/-- A diagnostic of the current token that names no variable. -/
theorem isAmong_here (hc : c.On ts) {problem : Problem} (hv : problem.subject? = none)
    (hp : problem.isOfToken = true) : Diagnostic.IsAmong ⟨problem, c.position⟩ ts := by
  refine ⟨c.token, hc.token_mem, rfl, fun hn => ?_, hp⟩
  rw [hv] at hn
  cases hn

theorem within_take {k : Kind} {error : Diagnostic} {h : k.IsWritten} (hc : c.On ts)
    (he : error.IsAmong ts) :
    (c.take k error h).Ends (fun t c' => c'.On ts ∧ t = c.token ∧ c.kind = k)
      fun error _ => error.IsAmong ts := by
  unfold take
  split
  · rename_i hk
    exact ⟨hc.next, rfl, hk⟩
  · exact he

theorem within_expect (k : Kind) {h : k.IsWritten} (hc : c.On ts) :
    (c.expect k h).Ends (fun _ c' => c'.On ts) fun error _ => error.IsAmong ts :=
  (within_take hc (isAmong_here hc rfl rfl)).imp (fun _ _ hr => hr.1) fun _ _ hw => hw

theorem within_expectNoting (k : Kind) {message : String} {h : k.IsWritten} (hc : c.On ts) :
    (c.expectNoting k message h).Ends (fun _ c' => c'.On ts) fun error _ =>
      error.IsAmong ts :=
  (within_take hc (isAmong_here hc rfl rfl)).imp (fun _ _ hr => hr.1) fun _ _ hw => hw

theorem within_ident (hc : c.On ts) :
    c.ident.Ends (fun i c' => c'.On ts ∧ i = c.token.ident ∧ c.kind = .identifier)
      fun error _ => error.IsAmong ts := by
  refine (within_take hc (isAmong_here hc rfl rfl)).andThen ?_
  rintro _ c₁ h₁ ⟨hc₁, rfl, hk⟩
  exact ⟨hc₁, rfl, hk⟩

end Cursor

/-! ## Expressions and conditions -/

namespace Cursor

mutual

theorem within_expression (c : Cursor) (hc : c.On ts) :
    c.expression.Within ts Expression.objections := by
  rw [expression]
  refine (within_term c hc).andThen ?_
  rintro first c₁ h₁ ⟨hc₁, hf⟩
  exact (within_expressionAfter c₁ (.term first) hc₁ hf).weaken h₁
termination_by 3 * c.remaining + 2

theorem within_expressionAfter (c : Cursor) (left : Expression) (hc : c.On ts)
    (hl : ∀ d ∈ left.objections, d.IsAmong ts) :
    (c.expressionAfter left).Within ts Expression.objections := by
  rw [expressionAfter]
  split
  · rename_i h
    have hlt := remaining_next_lt (Kind.ne_eof_of_isAdditive h)
    refine (within_term c.next hc.next).andThen ?_
    rintro right c₁ h₁ ⟨hc₁, hr⟩
    exact (within_expressionAfter c₁ (.chain left c.token.operator right) hc₁
      (List.forall_mem_append.mpr ⟨hl, hr⟩)).weaken _
  · exact ⟨hc, hl⟩
termination_by 3 * c.remaining

theorem within_term (c : Cursor) (hc : c.On ts) : c.term.Within ts Term.objections := by
  rw [term]
  refine (within_factor c hc).andThen ?_
  rintro first c₁ h₁ ⟨hc₁, hf⟩
  exact (within_termAfter c₁ (.factor first) hc₁ hf).weaken h₁
termination_by 3 * c.remaining + 1

theorem within_termAfter (c : Cursor) (left : Term) (hc : c.On ts)
    (hl : ∀ d ∈ left.objections, d.IsAmong ts) :
    (c.termAfter left).Within ts Term.objections := by
  rw [termAfter]
  split
  · rename_i h
    have hlt := remaining_next_lt (Kind.ne_eof_of_isMultiplicative h)
    refine (within_factor c.next hc.next).andThen ?_
    rintro right c₁ h₁ ⟨hc₁, hr⟩
    exact (within_termAfter c₁ (.chain left c.token.operator right) hc₁
      (List.forall_mem_append.mpr ⟨hl, hr⟩)).weaken _
  · exact ⟨hc, hl⟩
termination_by 3 * c.remaining

theorem within_factor (c : Cursor) (hc : c.On ts) :
    c.factor.Within ts Factor.objections := by
  have hmem : c.token ∈ ts := hc.token_mem
  have hnext : c.next.On ts := hc.next
  rw [factor]
  split
  case h_1 h =>
    exact ⟨hnext, List.forall_mem_singleton.mpr (Token.isAmong_unknown hmem h)⟩
  case h_2 h => exact ⟨hnext, List.forall_mem_nil _⟩
  case h_3 h =>
    have hlt := next_lt h trivial
    refine (within_expression c.next hnext).andThen ?_
    rintro inner c₁ h₁ ⟨hc₁, hi⟩
    exact (within_expect .closeParen hc₁).andThen fun _ c₂ h₂ hc₂ => ⟨hc₂, hi⟩
  case h_4 h =>
    have hlt := next_lt h trivial
    obtain ⟨type, htype⟩ := hc.castable c.token hmem h
    rw [htype]
    refine (within_expect .openParen hnext).andThen fun _ c₁ h₁ hc₁ => ?_
    refine (within_expression c₁ hc₁).andThen ?_
    rintro inner c₂ h₂ ⟨hc₂, hi⟩
    exact (within_expect .closeParen hc₂).andThen fun _ c₃ h₃ hc₃ => ⟨hc₃, hi⟩
  case h_5 => exact isAmong_here hc rfl rfl
termination_by 3 * c.remaining

end

mutual

theorem within_condition (c : Cursor) (hc : c.On ts) :
    c.condition.Within ts Condition.objections := by
  rw [condition]
  refine (within_clause c hc).andThen ?_
  rintro first c₁ h₁ ⟨hc₁, hf⟩
  exact (within_conditionAfter c₁ (.clause first) hc₁ hf).weaken h₁
termination_by 3 * c.remaining + 2

theorem within_conditionAfter (c : Cursor) (left : Condition) (hc : c.On ts)
    (hl : ∀ d ∈ left.objections, d.IsAmong ts) :
    (c.conditionAfter left).Within ts Condition.objections := by
  rw [conditionAfter]
  split
  · rename_i h
    have hlt := next_lt h trivial
    refine (within_clause c.next hc.next).andThen ?_
    rintro right c₁ h₁ ⟨hc₁, hr⟩
    exact (within_conditionAfter c₁ (.or left right) hc₁
      (List.forall_mem_append.mpr ⟨hl, hr⟩)).weaken _
  · exact ⟨hc, hl⟩
termination_by 3 * c.remaining

theorem within_clause (c : Cursor) (hc : c.On ts) :
    c.clause.Within ts Clause.objections := by
  rw [clause]
  refine (within_test c hc).andThen ?_
  rintro first c₁ h₁ ⟨hc₁, hf⟩
  exact (within_clauseAfter c₁ (.test first) hc₁ hf).weaken h₁
termination_by 3 * c.remaining + 1

theorem within_clauseAfter (c : Cursor) (left : Clause) (hc : c.On ts)
    (hl : ∀ d ∈ left.objections, d.IsAmong ts) :
    (c.clauseAfter left).Within ts Clause.objections := by
  rw [clauseAfter]
  split
  · rename_i h
    have hlt := next_lt h trivial
    refine (within_test c.next hc.next).andThen ?_
    rintro right c₁ h₁ ⟨hc₁, hr⟩
    exact (within_clauseAfter c₁ (.and left right) hc₁
      (List.forall_mem_append.mpr ⟨hl, hr⟩)).weaken _
  · exact ⟨hc, hl⟩
termination_by 3 * c.remaining

theorem within_test (c : Cursor) (hc : c.On ts) : c.test.Within ts Test.objections := by
  rw [test]
  split
  · rename_i h
    have hlt := next_lt h trivial
    refine (within_expectNoting .openParen hc.next).andThen fun _ c₁ h₁ hc₁ => ?_
    refine (within_condition c₁ hc₁).andThen ?_
    rintro inner c₂ h₂ ⟨hc₂, hi⟩
    exact (within_expect .closeParen hc₂).andThen fun _ c₃ h₃ hc₃ => ⟨hc₃, hi⟩
  · refine (within_expression c hc).andThen ?_
    rintro left c₁ h₁ ⟨hc₁, hl⟩
    split
    · refine (within_expression c₁.next hc₁.next).andThen ?_
      rintro right c₂ h₂ ⟨hc₂, hr⟩
      exact ⟨hc₂, List.forall_mem_append.mpr ⟨hl, hr⟩⟩
    · exact isAmong_here hc₁ rfl rfl
termination_by 3 * c.remaining

end

/-! ## Statements -/

/-- The statement starts with the variable that it assigns to. -/
theorem within_assignment (c : Cursor) (hc : c.On ts) :
    c.assignment.Within ts Statement.objections := by
  have hmem : c.token ∈ ts := hc.token_mem
  rw [assignment]
  refine (within_ident hc).andThen ?_
  rintro _ c₁ h₁ ⟨hc₁, rfl, hk⟩
  refine (within_expectNoting .assignment hc₁).andThen fun _ c₂ h₂ hc₂ => ?_
  refine (within_expression c₂ hc₂).andThen ?_
  rintro value c₃ h₃ ⟨hc₃, hv⟩
  refine (within_expect .semicolon hc₃).andThen fun _ c₄ h₄ hc₄ => ⟨hc₄, ?_⟩
  rw [Statement.objections]
  have hmixed : Diagnostic.IsAmong ⟨.assignFloatToInt c.token.ident.name, c.position⟩ ts :=
    Token.isAmong_named hmem hk rfl rfl
  exact List.forall_mem_cons.mpr
    ⟨Token.isAmong_unknown hmem hk, List.forall_mem_cons.mpr ⟨hmixed, hv⟩⟩

theorem within_input (c : Cursor) (hc : c.On ts) :
    c.input.Within ts Statement.objections := by
  rw [input]
  refine (within_expect .openParen hc.next).andThen fun _ c₁ h₁ hc₁ => ?_
  have hmem : c₁.token ∈ ts := hc₁.token_mem
  refine (within_ident hc₁).andThen ?_
  rintro _ c₂ h₂ ⟨hc₂, rfl, hk⟩
  refine (within_expect .closeParen hc₂).andThen fun _ c₃ h₃ hc₃ => ?_
  refine (within_expect .semicolon hc₃).andThen fun _ c₄ h₄ hc₄ => ⟨hc₄, ?_⟩
  exact List.forall_mem_singleton.mpr (Token.isAmong_unknown hmem hk)

theorem within_output (c : Cursor) (hc : c.On ts) :
    c.output.Within ts Statement.objections := by
  rw [output]
  refine (within_expect .openParen hc.next).andThen fun _ c₁ h₁ hc₁ => ?_
  refine (within_expression c₁ hc₁).andThen ?_
  rintro value c₂ h₂ ⟨hc₂, hv⟩
  refine (within_expect .closeParen hc₂).andThen fun _ c₃ h₃ hc₃ => ?_
  exact (within_expect .semicolon hc₃).andThen fun _ c₄ h₄ hc₄ => ⟨hc₄, hv⟩

theorem within_leave (c : Cursor) (hc : c.On ts) :
    c.leave.Within ts Statement.objections := by
  rw [leave]
  refine (within_expect .semicolon hc.next).andThen fun _ c₁ h₁ hc₁ => ⟨hc₁, ?_⟩
  exact List.forall_mem_singleton.mpr (isAmong_here hc rfl rfl)

theorem within_caseLabel (c : Cursor) (hc : c.On ts) :
    c.caseLabel.Ends (fun _ c' => c'.On ts) fun error _ => error.IsAmong ts := by
  rw [caseLabel]
  refine (within_take hc (isAmong_here hc rfl rfl)).andThen ?_
  rintro _ c₁ h₁ ⟨hc₁, rfl, -⟩
  dsimp only
  split
  · exact (within_expect .colon hc₁).andThen fun _ c₂ h₂ hc₂ => hc₂
  · exact isAmong_here hc rfl rfl

variable (table : FormTable)

mutual

theorem within_statement (c : Cursor) (hc : c.On ts) :
    (c.statement table).Within ts Statement.objections := by
  rw [statement]
  split
  · exact within_formed c _ hc
  · exact isAmong_here hc rfl rfl
termination_by 4 * c.remaining + 3

theorem within_formed (c : Cursor) (form : Form) (hc : c.On ts) :
    (c.formed table form).Within ts Statement.objections := by
  cases form <;> rw [formed]
  case assignment => exact within_assignment c hc
  case input => exact within_input c hc
  case output => exact within_output c hc
  case conditional => exact within_conditional c hc
  case loop => exact within_loop c hc
  case choice => exact within_choice c hc
  case leave => exact within_leave c hc
  case block => exact (within_block c hc).andThen fun _ _ _ h => h
termination_by 4 * c.remaining + 2

theorem within_conditional (c : Cursor) (hc : c.On ts) :
    (c.conditional table).Within ts Statement.objections := by
  have hle := c.remaining_next_le
  rw [conditional]
  refine (within_expect .openParen hc.next).andThen fun _ c₁ h₁ hc₁ => ?_
  refine (within_condition c₁ hc₁).andThen ?_
  rintro condition c₂ h₂ ⟨hc₂, hb⟩
  refine (within_expect .closeParen hc₂).andThen fun _ c₃ h₃ hc₃ => ?_
  refine (within_statement c₃ hc₃).andThen ?_
  rintro body c₄ h₄ ⟨hc₄, ht⟩
  have hthen := List.forall_mem_append.mpr ⟨hb, ht⟩
  split
  · rename_i h
    have hlt := next_lt h trivial
    refine (within_statement c₄.next hc₄.next).andThen ?_
    rintro other c₅ h₅ ⟨hc₅, he⟩
    exact ⟨hc₅, List.forall_mem_append.mpr ⟨hthen, he⟩⟩
  · exact ⟨hc₄, hthen⟩
termination_by 4 * c.remaining + 1

theorem within_loop (c : Cursor) (hc : c.On ts) :
    (c.loop table).Within ts Statement.objections := by
  have hle := c.remaining_next_le
  rw [loop]
  refine (within_expect .openParen hc.next).andThen fun _ c₁ h₁ hc₁ => ?_
  refine (within_condition c₁ hc₁).andThen ?_
  rintro condition c₂ h₂ ⟨hc₂, hb⟩
  refine (within_expect .closeParen hc₂).andThen fun _ c₃ h₃ hc₃ => ?_
  refine (within_statement c₃ hc₃).andThen ?_
  rintro body c₄ h₄ ⟨hc₄, ht⟩
  exact ⟨hc₄, List.forall_mem_append.mpr ⟨hb, ht⟩⟩
termination_by 4 * c.remaining + 1

theorem within_choice (c : Cursor) (hc : c.On ts) :
    (c.choice table).Within ts Statement.objections := by
  have hle := c.remaining_next_le
  rw [choice]
  refine (within_expect .openParen hc.next).andThen fun _ c₁ h₁ hc₁ => ?_
  refine (within_expression c₁ hc₁).andThen ?_
  rintro selector c₂ h₂ ⟨hc₂, hv⟩
  refine (within_expect .closeParen hc₂).andThen fun _ c₃ h₃ hc₃ => ?_
  refine (within_expect .openCurly hc₃).andThen fun _ c₄ h₄ hc₄ => ?_
  refine (within_cases c₄ hc₄).andThen ?_
  rintro arms c₅ h₅ ⟨hc₅, ha⟩
  refine (within_expectNoting .kwDefault hc₅).andThen fun _ c₆ h₆ hc₆ => ?_
  refine (within_expect .colon hc₆).andThen fun _ c₇ h₇ hc₇ => ?_
  refine (within_statements c₇ hc₇).andThen ?_
  rintro body c₈ h₈ ⟨hc₈, hd⟩
  refine (within_expect .closeCurly hc₈).andThen fun _ c₉ h₉ hc₉ => ⟨hc₉, ?_⟩
  exact List.forall_mem_append.mpr ⟨List.forall_mem_append.mpr ⟨hv, ha⟩, hd⟩
termination_by 4 * c.remaining + 1

theorem within_cases (c : Cursor) (hc : c.On ts) :
    (c.cases table).Within ts casesObjections := by
  rw [cases]
  split
  · rename_i h
    have hlt := next_lt h trivial
    refine (within_caseLabel c.next hc.next).andThen fun label c₁ h₁ hc₁ => ?_
    refine (within_statements c₁ hc₁).andThen ?_
    rintro body c₂ h₂ ⟨hc₂, hb⟩
    refine (within_cases c₂ hc₂).andThen ?_
    rintro arms c₃ h₃ ⟨hc₃, ha⟩
    exact ⟨hc₃, List.forall_mem_append.mpr ⟨hb, ha⟩⟩
  · exact ⟨hc, List.forall_mem_nil _⟩
termination_by 4 * c.remaining

theorem within_block (c : Cursor) (hc : c.On ts) :
    (c.block table).Within ts Block.objections := by
  rw [block]
  refine (within_expectNoting .openCurly hc).andThen fun _ c₁ h₁ hc₁ => ?_
  refine (within_statements c₁ hc₁).andThen ?_
  rintro body c₂ h₂ ⟨hc₂, hb⟩
  exact (within_expectNoting .closeCurly hc₂).andThen fun _ c₃ h₃ hc₃ => ⟨hc₃, hb⟩
termination_by 4 * c.remaining + 1

theorem within_statements (c : Cursor) (hc : c.On ts) :
    (c.statements table).Within ts statementsObjections := by
  rw [statements]
  split
  · exact ⟨hc, List.forall_mem_nil _⟩
  · refine (within_statement c hc).andThen ?_
    rintro first c₁ h₁ ⟨hc₁, hf⟩
    refine (within_statements c₁ hc₁).andThen ?_
    rintro rest c₂ h₂ ⟨hc₂, hr⟩
    exact ⟨hc₂, List.forall_mem_append.mpr ⟨hf, hr⟩⟩
termination_by 4 * c.remaining + 4

end

/-! ## Programs -/

theorem within_numType (c : Cursor) (hc : c.On ts) :
    c.numType.Ends (fun _ c' => c'.On ts) fun error _ => error.IsAmong ts := by
  rw [numType]
  split
  · exact hc.next
  · exact hc.next
  · exact isAmong_here hc rfl rfl

theorem within_furtherIdents (c : Cursor) (hc : c.On ts) :
    c.furtherIdents.Within ts (List.map Ident.repeated) := by
  rw [furtherIdents]
  split
  · rename_i h
    have hlt := next_lt h trivial
    have hnext := hc.next
    have hmem : c.next.token ∈ ts := hnext.token_mem
    refine (within_ident hnext).andThen ?_
    rintro _ c₁ h₁ ⟨hc₁, rfl, hk⟩
    refine (within_furtherIdents c₁ hc₁).andThen ?_
    rintro names c₂ h₂ ⟨hc₂, hn⟩
    exact ⟨hc₂, List.forall_mem_cons.mpr ⟨Token.isAmong_repeated hmem hk, hn⟩⟩
  · exact ⟨hc, List.forall_mem_nil _⟩
termination_by c.remaining

theorem within_declaration (c : Cursor) (hc : c.On ts) :
    c.declaration.Within ts Declaration.objections := by
  have hmem : c.token ∈ ts := hc.token_mem
  rw [declaration]
  refine (within_ident hc).andThen ?_
  rintro _ c₁ h₁ ⟨hc₁, rfl, hk⟩
  refine (within_furtherIdents c₁ hc₁).andThen ?_
  rintro names c₂ h₂ ⟨hc₂, hn⟩
  refine (within_expectNoting .colon hc₂).andThen fun _ c₃ h₃ hc₃ => ?_
  refine (within_numType c₃ hc₃).andThen fun type c₄ h₄ hc₄ => ?_
  refine (within_expect .semicolon hc₄).andThen fun _ c₅ h₅ hc₅ => ⟨hc₅, ?_⟩
  exact List.forall_mem_cons.mpr ⟨Token.isAmong_repeated hmem hk, hn⟩

theorem within_declarations (c : Cursor) (hc : c.On ts) :
    c.declarations.Within ts (List.flatMap Declaration.objections) := by
  rw [declarations]
  split
  · refine (within_declaration c hc).andThen ?_
    rintro first c₁ h₁ ⟨hc₁, hf⟩
    refine (within_declarations c₁ hc₁).andThen ?_
    rintro rest c₂ h₂ ⟨hc₂, hr⟩
    refine ⟨hc₂, ?_⟩
    rw [List.flatMap_cons]
    exact List.forall_mem_append.mpr ⟨hf, hr⟩
  · exact ⟨hc, List.forall_mem_nil _⟩
termination_by c.remaining

theorem within_program (c : Cursor) (hc : c.On ts) :
    c.program.Within ts Program.objections := by
  rw [program]
  refine (within_declarations c hc).andThen ?_
  rintro declarations c₁ h₁ ⟨hc₁, hd⟩
  refine (within_block .standard c₁ hc₁).andThen ?_
  rintro body c₂ h₂ ⟨hc₂, hb⟩
  unfold demand
  split
  · exact ⟨hc₂.next, List.forall_mem_append.mpr ⟨hd, hb⟩⟩
  · exact isAmong_here hc₂ rfl rfl

end Cursor

end

end Cpl
