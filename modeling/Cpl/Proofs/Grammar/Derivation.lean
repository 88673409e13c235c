import Cpl.Proofs.Grammar.Soundness

/-!
# Derivations

From which tokens a tree is read. Unlike the words of a tree, a derivation is about the tokens themselves,
with their spans, and the tokens may have any texts.

* `Program.ReadFrom`: the tree is derived from the tokens, node by node. A node that has a span has that of
  its tokens (`Span.IsOver`), except for the body of a case: its span starts with the token that comes next,
  and if the body has no statement, this is a token of another node;
* `Cursor.derives_program`: a program that is read is derived from the tokens that have been taken, and the
  next token is an end.
-/

namespace Cpl

open Reading

/-- From the start of the first token to the end of the last one. -/
structure Span.IsOver (span : Span) (ts : List Token) : Prop where
  start : ∃ t ∈ ts.head?, span.start = t.span.start
  stop : ∃ t ∈ ts.getLast?, span.stop = t.span.stop

/-! ## Expressions -/

mutual

/-- The expression is read from the tokens. -/
inductive Expression.ReadFrom : Expression → List Token → Prop
  | term {term : Term} {ts : List Token} : Term.ReadFrom term ts →
      Expression.ReadFrom (.term term) ts
  | chain {left : Expression} {right : Term} {op : Token} {ls rs : List Token} :
      Expression.ReadFrom left ls → op.kind.isAdditive = true → Term.ReadFrom right rs →
      Expression.ReadFrom (.chain left op.operator right) (ls ++ op :: rs)

/-- The term is read from the tokens. -/
inductive Term.ReadFrom : Term → List Token → Prop
  | factor {factor : Factor} {ts : List Token} : Factor.ReadFrom factor ts →
      Term.ReadFrom (.factor factor) ts
  | chain {left : Term} {right : Factor} {op : Token} {ls rs : List Token} :
      Term.ReadFrom left ls → op.kind.isMultiplicative = true → Factor.ReadFrom right rs →
      Term.ReadFrom (.chain left op.operator right) (ls ++ op :: rs)

/-- The factor is read from the tokens. -/
inductive Factor.ReadFrom : Factor → List Token → Prop
  | name {t : Token} : t.kind = .identifier → Factor.ReadFrom (.name t.ident) [t]
  | literal {t : Token} : t.kind = .number → Factor.ReadFrom (.literal ⟨t.value⟩) [t]
  | parens {inner : Expression} {span : Span} {o c : Token} {es : List Token} :
      o.kind = .openParen → Expression.ReadFrom inner es → c.kind = .closeParen →
      span.IsOver (o :: (es ++ [c])) → Factor.ReadFrom (.parens inner span) (o :: (es ++ [c]))
  | cast {type : NumType} {inner : Expression} {span : Span} {t o c : Token} {es : List Token} :
      t.kind = .cast → t.castType = .ok type → o.kind = .openParen →
      Expression.ReadFrom inner es → c.kind = .closeParen →
      span.IsOver (t :: o :: (es ++ [c])) →
      Factor.ReadFrom (.cast type inner span) (t :: o :: (es ++ [c]))

end

/-! ## Conditions -/

mutual

/-- The condition is read from the tokens. -/
inductive Condition.ReadFrom : Condition → List Token → Prop
  | clause {clause : Clause} {ts : List Token} : Clause.ReadFrom clause ts →
      Condition.ReadFrom (.clause clause) ts
  | or {left : Condition} {right : Clause} {op : Token} {ls rs : List Token} :
      Condition.ReadFrom left ls → op.kind = .or → Clause.ReadFrom right rs →
      Condition.ReadFrom (.or left right) (ls ++ op :: rs)

/-- The clause is read from the tokens. -/
inductive Clause.ReadFrom : Clause → List Token → Prop
  | test {test : Test} {ts : List Token} : Test.ReadFrom test ts → Clause.ReadFrom (.test test) ts
  | and {left : Clause} {right : Test} {op : Token} {ls rs : List Token} :
      Clause.ReadFrom left ls → op.kind = .and → Test.ReadFrom right rs →
      Clause.ReadFrom (.and left right) (ls ++ op :: rs)

/-- The test is read from the tokens. -/
inductive Test.ReadFrom : Test → List Token → Prop
  | compare {left right : Expression} {op : Token} {ls rs : List Token} :
      left.ReadFrom ls → op.kind.isRelational = true → right.ReadFrom rs →
      Test.ReadFrom (.compare left op.operator right) (ls ++ op :: rs)
  | not {inner : Condition} {span : Span} {n o c : Token} {ds : List Token} :
      n.kind = .not → o.kind = .openParen → Condition.ReadFrom inner ds → c.kind = .closeParen →
      span.IsOver (n :: o :: (ds ++ [c])) → Test.ReadFrom (.not inner span) (n :: o :: (ds ++ [c]))

end

/-! ## Statements -/

mutual

/-- The statement is read from the tokens. -/
inductive Statement.ReadFrom : Statement → List Token → Prop
  | assign {value : Expression} {span : Span} {i e s : Token} {vs ts : List Token} :
      i.kind = .identifier → e.kind = .assignment → value.ReadFrom vs → s.kind = .semicolon →
      ts = i :: e :: (vs ++ [s]) → span.IsOver ts →
      Statement.ReadFrom (.assign i.ident value span) ts
  | input {span : Span} {w o i c s : Token} {ts : List Token} : w.kind = .kwInput →
      o.kind = .openParen → i.kind = .identifier → c.kind = .closeParen → s.kind = .semicolon →
      ts = [w, o, i, c, s] → span.IsOver ts → Statement.ReadFrom (.input i.ident span) ts
  | output {value : Expression} {span : Span} {w o c s : Token} {vs ts : List Token} :
      w.kind = .kwOutput → o.kind = .openParen → value.ReadFrom vs → c.kind = .closeParen →
      s.kind = .semicolon → ts = w :: o :: (vs ++ [c, s]) → span.IsOver ts →
      Statement.ReadFrom (.output value span) ts
  | ifThen {condition : Condition} {body : Statement} {span : Span} {w o c : Token}
      {ds bs ts : List Token} : w.kind = .kwIf → o.kind = .openParen → condition.ReadFrom ds →
      c.kind = .closeParen → Statement.ReadFrom body bs → ts = w :: o :: (ds ++ c :: bs) →
      span.IsOver ts → Statement.ReadFrom (.ifThen condition body span) ts
  | ifElse {condition : Condition} {body other : Statement} {span : Span} {w o c e : Token}
      {ds bs os ts : List Token} : w.kind = .kwIf → o.kind = .openParen → condition.ReadFrom ds →
      c.kind = .closeParen → Statement.ReadFrom body bs → e.kind = .kwElse →
      Statement.ReadFrom other os → ts = w :: o :: (ds ++ c :: (bs ++ e :: os)) →
      span.IsOver ts → Statement.ReadFrom (.ifElse condition body other span) ts
  | loop {condition : Condition} {body : Statement} {span : Span} {w o c : Token}
      {ds bs ts : List Token} : w.kind = .kwWhile → o.kind = .openParen → condition.ReadFrom ds →
      c.kind = .closeParen → Statement.ReadFrom body bs → ts = w :: o :: (ds ++ c :: bs) →
      span.IsOver ts → Statement.ReadFrom (.loop condition body span) ts
  | switch {selector : Expression} {cases : List Case} {body : List Statement} {span inner : Span}
      {w o c b d l e : Token} {ss cs bs ts : List Token} : w.kind = .kwSwitch →
      o.kind = .openParen → selector.ReadFrom ss → c.kind = .closeParen → b.kind = .openCurly →
      CasesFrom cases cs d → d.kind = .kwDefault → l.kind = .colon → StatementsFrom body bs →
      e.kind = .closeCurly → inner.IsOver (d :: l :: bs) →
      ts = w :: o :: (ss ++ c :: b :: (cs ++ d :: l :: (bs ++ [e]))) → span.IsOver ts →
      Statement.ReadFrom (.switch selector cases ⟨body, inner⟩ span) ts
  | leave {span : Span} {w s : Token} : w.kind = .kwBreak → s.kind = .semicolon →
      span.IsOver [w, s] → Statement.ReadFrom (.leave span) [w, s]
  | block {block : Block} {ts : List Token} : Block.ReadFrom block ts →
      Statement.ReadFrom (.block block) ts

/-- The block is read from the tokens. -/
inductive Block.ReadFrom : Block → List Token → Prop
  | mk {body : List Statement} {span : Span} {o c : Token} {bs : List Token} :
      o.kind = .openCurly → StatementsFrom body bs → c.kind = .closeCurly →
      span.IsOver (o :: (bs ++ [c])) → Block.ReadFrom ⟨body, span⟩ (o :: (bs ++ [c]))

/-- The statements are read from the tokens. -/
inductive StatementsFrom : List Statement → List Token → Prop
  | nil : StatementsFrom [] []
  | cons {first : Statement} {rest : List Statement} {fs rs : List Token} :
      Statement.ReadFrom first fs → StatementsFrom rest rs → StatementsFrom (first :: rest) (fs ++ rs)

/-- The cases are read from the tokens, up to the one that comes after them. -/
inductive CasesFrom : List Case → List Token → Token → Prop
  | nil {after : Token} : CasesFrom [] [] after
  | cons {body : List Statement} {arms : List Case} {inner span : Span} {k n l after : Token}
      {bs rs : List Token} : k.kind = .kwCase → n.kind = .number →
      (⟨n.value⟩ : Literal).type = .int → l.kind = .colon → StatementsFrom body bs →
      CasesFrom arms rs after → span.IsOver (k :: n :: l :: bs) →
      -- the next token, whether it is one of the body or not
      inner.start = ((bs ++ rs).headD after).span.start → inner.stop = span.stop →
      CasesFrom (⟨⟨n.value⟩, ⟨body, inner⟩, span⟩ :: arms) (k :: n :: l :: (bs ++ rs)) after

end

/-! ## Programs -/

/-- The names after the first one of a declaration are read from the tokens. -/
inductive FurtherFrom : List Ident → List Token → Prop
  | nil : FurtherFrom [] []
  | cons {names : List Ident} {m i : Token} {ts : List Token} : m.kind = .comma →
      i.kind = .identifier → FurtherFrom names ts → FurtherFrom (i.ident :: names) (m :: i :: ts)

/-- The declaration is read from the tokens. -/
inductive Declaration.ReadFrom : Declaration → List Token → Prop
  | mk {names : List Ident} {type : NumType} {span : Span} {i l t s : Token} {ns ts : List Token} :
      i.kind = .identifier → FurtherFrom names ns → l.kind = .colon → t.kind = type.word.kind →
      s.kind = .semicolon → ts = i :: (ns ++ [l, t, s]) → span.IsOver ts →
      Declaration.ReadFrom ⟨i.ident :: names, type, span⟩ ts

/-- The declarations are read from the tokens. -/
inductive DeclarationsFrom : List Declaration → List Token → Prop
  | nil : DeclarationsFrom [] []
  | cons {first : Declaration} {rest : List Declaration} {fs rs : List Token} :
      first.ReadFrom fs → DeclarationsFrom rest rs → DeclarationsFrom (first :: rest) (fs ++ rs)

/-- The program is read from the tokens. -/
inductive Program.ReadFrom : Program → List Token → Prop
  | mk {declarations : List Declaration} {body : Block} {ds bs : List Token} :
      DeclarationsFrom declarations ds → body.ReadFrom bs →
      Program.ReadFrom ⟨declarations, body⟩ (ds ++ bs)

/-! ## Nodes without tokens

Only lists may be read from no tokens at all. -/

theorem Span.IsOver.ne_nil {span : Span} {ts : List Token} (h : span.IsOver ts) : ts ≠ [] := by
  obtain ⟨t, ht, -⟩ := h.start
  rintro rfl
  cases ht

theorem Factor.ReadFrom.ne_nil {f : Factor} {ts : List Token} (h : f.ReadFrom ts) : ts ≠ [] := by
  cases h <;> exact List.cons_ne_nil _ _

theorem Term.ReadFrom.ne_nil {t : Term} {ts : List Token} (h : t.ReadFrom ts) : ts ≠ [] := by
  cases h with
  | factor hf => exact hf.ne_nil
  | chain _ _ _ => exact List.append_ne_nil_of_right_ne_nil _ (List.cons_ne_nil _ _)

theorem Block.ReadFrom.ne_nil {b : Block} {ts : List Token} (h : b.ReadFrom ts) : ts ≠ [] := by
  cases h
  exact List.cons_ne_nil _ _

theorem Statement.ReadFrom.ne_nil {s : Statement} {ts : List Token} (h : s.ReadFrom ts) :
    ts ≠ [] := by
  cases h
  case block hb => exact hb.ne_nil
  all_goals exact Span.IsOver.ne_nil ‹_›

theorem StatementsFrom.isEmpty_iff {ss : List Statement} {ts : List Token}
    (h : StatementsFrom ss ts) : ss.isEmpty = true ↔ ts = [] := by
  cases h with
  | nil => exact iff_of_true rfl rfl
  | cons hf _ => exact iff_of_false nofun (List.append_ne_nil_of_left_ne_nil hf.ne_nil _)

/-! ## Taking tokens -/

namespace Cursor

/-- From `c` on the given tokens are passed, up to `c'`. -/
structure Takes (c : Cursor) (ts : List Token) (c' : Cursor) : Prop where
  ahead : c.ahead = ts ++ c'.ahead
  passed : c'.passed = ts.reverse ++ c.passed
  finish : c'.finish = c.finish

namespace Takes

variable {c c' c'' : Cursor} {ts ts' : List Token}

theorem refl (c : Cursor) : c.Takes [] c :=
  ⟨rfl, rfl, rfl⟩

theorem trans (h : c.Takes ts c') (h' : c'.Takes ts' c'') : c.Takes (ts ++ ts') c'' := by
  refine ⟨?_, ?_, h'.finish.trans h.finish⟩
  · rw [h.ahead, h'.ahead, List.append_assoc]
  · rw [h'.passed, h.passed, List.reverse_append, List.append_assoc]

/-- The current token is taken, unless it is an end. -/
theorem next (h : c.kind ≠ .eof) : c.Takes [c.token] c.next := by
  obtain ⟨passed, ahead, finish⟩ := c
  cases ahead with
  | nil => exact absurd rfl h
  | cons t ts => exact ⟨rfl, rfl, rfl⟩

/-- A token of a written kind is taken. -/
theorem next_of_kind {k : Kind} (h : c.kind = k) (hk : k.IsWritten) : c.Takes [c.token] c.next :=
  .next (h ▸ hk.ne_eof)

theorem token_eq (h : c.Takes ts c') : c.token = ts.headD c'.token := by
  rw [token, token, h.ahead, h.finish]
  cases ts with
  | nil => rfl
  | cons t ts => rfl

/-- The span of what has been taken. -/
theorem isOver {t : Token} (h : c.Takes (t :: ts) c') :
    (c'.spanFrom c.position).IsOver (t :: ts) := by
  obtain ⟨init, last, hlast⟩ : ∃ init last, t :: ts = init ++ [last] :=
    ⟨_, _, (List.dropLast_concat_getLast (List.cons_ne_nil t ts)).symm⟩
  refine ⟨⟨t, rfl, ?_⟩, ⟨last, ?_, ?_⟩⟩
  · show c.token.span.start = t.span.start
    rw [h.token_eq]
    rfl
  · rw [hlast, List.getLast?_concat]
    rfl
  · rw [spanFrom, h.passed, hlast, List.reverse_append]
    rfl

/-- A span ends with the token taken last, wherever it starts. -/
theorem stop_spanFrom {t : Token} (h : c.Takes (t :: ts) c') (p q : Position) :
    (c'.spanFrom p).stop = (c'.spanFrom q).stop := by
  obtain ⟨last, rest, hcons⟩ :=
    List.exists_cons_of_ne_nil (List.reverse_ne_nil_iff.mpr (List.cons_ne_nil t ts))
  rw [spanFrom, spanFrom, h.passed, hcons]
  rfl

end Takes

variable {α : Type} {n : Nat}

/-- If the reading ends well, it has taken tokens from which the value is read. -/
def Derives (c : Cursor) (r : Reading α n) (readFrom : α → List Token → Prop) : Prop :=
  r.Ends (fun x c' => ∃ ts, c.Takes ts c' ∧ readFrom x ts) fun _ _ => True

theorem takes_take (c : Cursor) {k : Kind} {error : Diagnostic} {h : k.IsWritten} :
    (c.take k error h).Ends (fun t c' => t.kind = k ∧ c.Takes [t] c') fun _ _ => True := by
  unfold take
  split
  · rename_i hk
    exact ⟨hk, .next_of_kind hk h⟩
  · trivial

theorem takes_expect (c : Cursor) (k : Kind) {h : k.IsWritten} :
    (c.expect k h).Ends (fun t c' => t.kind = k ∧ c.Takes [t] c') fun _ _ => True :=
  c.takes_take

theorem takes_expectNoting (c : Cursor) (k : Kind) {message : String} {h : k.IsWritten} :
    (c.expectNoting k message h).Ends (fun t c' => t.kind = k ∧ c.Takes [t] c') fun _ _ => True :=
  c.takes_take

theorem takes_ident (c : Cursor) :
    c.ident.Ends (fun i c' => ∃ t, t.kind = .identifier ∧ i = t.ident ∧ c.Takes [t] c')
      fun _ _ => True := by
  rw [ident]
  refine (c.takes_expectNoting .identifier).andThen ?_
  intro t c₁ h₁ hends
  obtain ⟨ht, q₁⟩ := hends
  exact ⟨t, ht, rfl, q₁⟩

/-! ## Rules for expressions and conditions -/

mutual

theorem derives_expression (c : Cursor) : c.Derives c.expression Expression.ReadFrom := by
  rw [expression]
  refine (derives_term c).andThen ?_
  intro first c₁ h₁ hends
  obtain ⟨ts, q, hf⟩ := hends
  exact (derives_expressionAfter c c₁ (.term first) q (.term hf)).weaken h₁
termination_by 3 * c.remaining + 2

/-- From where the chain starts, the rule takes the tokens of the whole chain. -/
theorem derives_expressionAfter (c₀ c : Cursor) (left : Expression) {ls : List Token}
    (q : c₀.Takes ls c) (hl : left.ReadFrom ls) :
    c₀.Derives (c.expressionAfter left) Expression.ReadFrom := by
  rw [expressionAfter]
  split
  · rename_i h
    have hne := Kind.ne_eof_of_isAdditive h
    have hlt := remaining_next_lt hne
    refine (derives_term c.next).andThen ?_
    intro right c₁ h₁ hends
    obtain ⟨rs, q₁, hr⟩ := hends
    have q₂ := q.trans ((Takes.next hne).trans q₁)
    exact (derives_expressionAfter c₀ c₁ (.chain left c.token.operator right) q₂
      (.chain hl h hr)).weaken _
  · exact ⟨ls, q, hl⟩
termination_by 3 * c.remaining

theorem derives_term (c : Cursor) : c.Derives c.term Term.ReadFrom := by
  rw [term]
  refine (derives_factor c).andThen ?_
  intro first c₁ h₁ hends
  obtain ⟨ts, q, hf⟩ := hends
  exact (derives_termAfter c c₁ (.factor first) q (.factor hf)).weaken h₁
termination_by 3 * c.remaining + 1

@[inherit_doc derives_expressionAfter]
theorem derives_termAfter (c₀ c : Cursor) (left : Term) {ls : List Token} (q : c₀.Takes ls c)
    (hl : left.ReadFrom ls) : c₀.Derives (c.termAfter left) Term.ReadFrom := by
  rw [termAfter]
  split
  · rename_i h
    have hne := Kind.ne_eof_of_isMultiplicative h
    have hlt := remaining_next_lt hne
    refine (derives_factor c.next).andThen ?_
    intro right c₁ h₁ hends
    obtain ⟨rs, q₁, hr⟩ := hends
    have q₂ := q.trans ((Takes.next hne).trans q₁)
    exact (derives_termAfter c₀ c₁ (.chain left c.token.operator right) q₂
      (.chain hl h hr)).weaken _
  · exact ⟨ls, q, hl⟩
termination_by 3 * c.remaining

theorem derives_factor (c : Cursor) : c.Derives c.factor Factor.ReadFrom := by
  rw [factor]
  split
  case h_1 h => exact ⟨_, .next_of_kind h trivial, .name h⟩
  case h_2 h => exact ⟨_, .next_of_kind h trivial, .literal h⟩
  case h_3 h =>
    have hlt := next_lt h trivial
    refine (derives_expression c.next).andThen ?_
    intro inner c₁ h₁ hends
    obtain ⟨es, q₁, hi⟩ := hends
    refine (c₁.takes_expect .closeParen).andThen ?_
    intro p c₂ h₂ hends
    obtain ⟨hp, q₂⟩ := hends
    have q := (Takes.next_of_kind h trivial).trans (q₁.trans q₂)
    exact ⟨_, q, .parens h hi hp q.isOver⟩
  case h_4 h =>
    have hlt := next_lt h trivial
    cases htype : c.token.castType with
    | error error => trivial
    | ok type =>
      refine (c.next.takes_expect .openParen).andThen ?_
      intro o c₁ h₁ hends
      obtain ⟨ho, q₁⟩ := hends
      refine (derives_expression c₁).andThen ?_
      intro inner c₂ h₂ hends
      obtain ⟨es, q₂, hi⟩ := hends
      refine (c₂.takes_expect .closeParen).andThen ?_
      intro p c₃ h₃ hends
      obtain ⟨hp, q₃⟩ := hends
      have q := (Takes.next_of_kind h trivial).trans (q₁.trans (q₂.trans q₃))
      exact ⟨_, q, .cast h htype ho hi hp q.isOver⟩
  case h_5 => trivial
termination_by 3 * c.remaining

end

mutual

theorem derives_condition (c : Cursor) : c.Derives c.condition Condition.ReadFrom := by
  rw [condition]
  refine (derives_clause c).andThen ?_
  intro first c₁ h₁ hends
  obtain ⟨ts, q, hf⟩ := hends
  exact (derives_conditionAfter c c₁ (.clause first) q (.clause hf)).weaken h₁
termination_by 3 * c.remaining + 2

@[inherit_doc derives_expressionAfter]
theorem derives_conditionAfter (c₀ c : Cursor) (left : Condition) {ls : List Token}
    (q : c₀.Takes ls c) (hl : left.ReadFrom ls) :
    c₀.Derives (c.conditionAfter left) Condition.ReadFrom := by
  rw [conditionAfter]
  split
  · rename_i h
    have hlt := next_lt h trivial
    refine (derives_clause c.next).andThen ?_
    intro right c₁ h₁ hends
    obtain ⟨rs, q₁, hr⟩ := hends
    have q₂ := q.trans ((Takes.next_of_kind h trivial).trans q₁)
    exact (derives_conditionAfter c₀ c₁ (.or left right) q₂ (.or hl h hr)).weaken _
  · exact ⟨ls, q, hl⟩
termination_by 3 * c.remaining

theorem derives_clause (c : Cursor) : c.Derives c.clause Clause.ReadFrom := by
  rw [clause]
  refine (derives_test c).andThen ?_
  intro first c₁ h₁ hends
  obtain ⟨ts, q, hf⟩ := hends
  exact (derives_clauseAfter c c₁ (.test first) q (.test hf)).weaken h₁
termination_by 3 * c.remaining + 1

@[inherit_doc derives_expressionAfter]
theorem derives_clauseAfter (c₀ c : Cursor) (left : Clause) {ls : List Token}
    (q : c₀.Takes ls c) (hl : left.ReadFrom ls) :
    c₀.Derives (c.clauseAfter left) Clause.ReadFrom := by
  rw [clauseAfter]
  split
  · rename_i h
    have hlt := next_lt h trivial
    refine (derives_test c.next).andThen ?_
    intro right c₁ h₁ hends
    obtain ⟨rs, q₁, hr⟩ := hends
    have q₂ := q.trans ((Takes.next_of_kind h trivial).trans q₁)
    exact (derives_clauseAfter c₀ c₁ (.and left right) q₂ (.and hl h hr)).weaken _
  · exact ⟨ls, q, hl⟩
termination_by 3 * c.remaining

theorem derives_test (c : Cursor) : c.Derives c.test Test.ReadFrom := by
  rw [test]
  split
  · rename_i h
    have hlt := next_lt h trivial
    refine (c.next.takes_expectNoting .openParen).andThen ?_
    intro o c₁ h₁ hends
    obtain ⟨ho, q₁⟩ := hends
    refine (derives_condition c₁).andThen ?_
    intro inner c₂ h₂ hends
    obtain ⟨ds, q₂, hi⟩ := hends
    refine (c₂.takes_expect .closeParen).andThen ?_
    intro p c₃ h₃ hends
    obtain ⟨hp, q₃⟩ := hends
    have q := (Takes.next_of_kind h trivial).trans (q₁.trans (q₂.trans q₃))
    exact ⟨_, q, .not h ho hi hp q.isOver⟩
  · refine (derives_expression c).andThen ?_
    intro left c₁ h₁ hends
    obtain ⟨ls, q₁, hl⟩ := hends
    split
    · rename_i h
      have hne := Kind.ne_eof_of_isRelational h
      refine (derives_expression c₁.next).andThen ?_
      intro right c₂ h₂ hends
      obtain ⟨rs, q₂, hr⟩ := hends
      exact ⟨_, q₁.trans ((Takes.next hne).trans q₂), .compare hl h hr⟩
    · trivial
termination_by 3 * c.remaining

end

/-! ## Rules for statements -/

theorem derives_assignment (c : Cursor) : c.Derives c.assignment Statement.ReadFrom := by
  rw [assignment]
  refine c.takes_ident.andThen ?_
  intro target c₁ h₁ hends
  obtain ⟨i, hi, rfl, q₁⟩ := hends
  refine (c₁.takes_expectNoting .assignment).andThen ?_
  intro e c₂ h₂ hends
  obtain ⟨he, q₂⟩ := hends
  refine (derives_expression c₂).andThen ?_
  intro value c₃ h₃ hends
  obtain ⟨vs, q₃, hv⟩ := hends
  refine (c₃.takes_expect .semicolon).andThen ?_
  intro s c₄ h₄ hends
  obtain ⟨hs, q₄⟩ := hends
  have q := q₁.trans (q₂.trans (q₃.trans q₄))
  exact ⟨_, q, .assign hi he hv hs rfl q.isOver⟩

theorem derives_input (c : Cursor) (hk : c.kind = .kwInput) :
    c.Derives c.input Statement.ReadFrom := by
  rw [input]
  refine (c.next.takes_expect .openParen).andThen ?_
  intro o c₁ h₁ hends
  obtain ⟨ho, q₁⟩ := hends
  refine c₁.takes_ident.andThen ?_
  intro target c₂ h₂ hends
  obtain ⟨i, hi, rfl, q₂⟩ := hends
  refine (c₂.takes_expect .closeParen).andThen ?_
  intro p c₃ h₃ hends
  obtain ⟨hp, q₃⟩ := hends
  refine (c₃.takes_expect .semicolon).andThen ?_
  intro s c₄ h₄ hends
  obtain ⟨hs, q₄⟩ := hends
  have q := (Takes.next_of_kind hk trivial).trans (q₁.trans (q₂.trans (q₃.trans q₄)))
  exact ⟨_, q, .input hk ho hi hp hs rfl q.isOver⟩

theorem derives_output (c : Cursor) (hk : c.kind = .kwOutput) :
    c.Derives c.output Statement.ReadFrom := by
  rw [output]
  refine (c.next.takes_expect .openParen).andThen ?_
  intro o c₁ h₁ hends
  obtain ⟨ho, q₁⟩ := hends
  refine (derives_expression c₁).andThen ?_
  intro value c₂ h₂ hends
  obtain ⟨vs, q₂, hv⟩ := hends
  refine (c₂.takes_expect .closeParen).andThen ?_
  intro p c₃ h₃ hends
  obtain ⟨hp, q₃⟩ := hends
  refine (c₃.takes_expect .semicolon).andThen ?_
  intro s c₄ h₄ hends
  obtain ⟨hs, q₄⟩ := hends
  have q := (Takes.next_of_kind hk trivial).trans (q₁.trans (q₂.trans (q₃.trans q₄)))
  exact ⟨_, q, .output hk ho hv hp hs rfl q.isOver⟩

theorem derives_leave (c : Cursor) (hk : c.kind = .kwBreak) :
    c.Derives c.leave Statement.ReadFrom := by
  rw [leave]
  refine (c.next.takes_expect .semicolon).andThen ?_
  intro s c₁ h₁ hends
  obtain ⟨hs, q₁⟩ := hends
  have q := (Takes.next_of_kind hk trivial).trans q₁
  exact ⟨_, q, .leave hk hs q.isOver⟩

theorem takes_caseLabel (c : Cursor) :
    c.caseLabel.Ends (fun label c' => ∃ n l, n.kind = .number ∧ label = ⟨n.value⟩ ∧
      label.type = .int ∧ l.kind = .colon ∧ c.Takes [n, l] c') fun _ _ => True := by
  rw [caseLabel]
  refine (c.takes_expectNoting .number).andThen ?_
  intro n c₁ h₁ hends
  obtain ⟨hn, q₁⟩ := hends
  dsimp only
  split
  · rename_i htype
    refine (c₁.takes_expect .colon).andThen ?_
    intro l c₂ h₂ hends
    obtain ⟨hl, q₂⟩ := hends
    exact ⟨n, l, hn, rfl, htype, hl, q₁.trans q₂⟩
  · trivial

mutual

theorem derives_statement (c : Cursor) :
    c.Derives (c.statement .standard) Statement.ReadFrom := by
  rw [statement]
  split
  · rename_i form h
    exact derives_formed c form (FormTable.kind_of_standard h)
  · trivial
termination_by 4 * c.remaining + 3

theorem derives_formed (c : Cursor) (form : Form) (hk : c.kind = form.firstKind) :
    c.Derives (c.formed .standard form) Statement.ReadFrom := by
  cases form <;> rw [formed]
  case assignment => exact derives_assignment c
  case input => exact derives_input c hk
  case output => exact derives_output c hk
  case conditional => exact derives_conditional c hk
  case loop => exact derives_loop c hk
  case choice => exact derives_choice c hk
  case leave => exact derives_leave c hk
  case block =>
    refine (derives_block c).andThen ?_
    intro block c₁ h₁ hends
    obtain ⟨ts, q, hb⟩ := hends
    exact ⟨ts, q, .block hb⟩
termination_by 4 * c.remaining + 2

theorem derives_conditional (c : Cursor) (hk : c.kind = .kwIf) :
    c.Derives (c.conditional .standard) Statement.ReadFrom := by
  have hle := c.remaining_next_le
  rw [conditional]
  refine (c.next.takes_expect .openParen).andThen ?_
  intro o c₁ h₁ hends
  obtain ⟨ho, q₁⟩ := hends
  refine (derives_condition c₁).andThen ?_
  intro condition c₂ h₂ hends
  obtain ⟨ds, q₂, hcond⟩ := hends
  refine (c₂.takes_expect .closeParen).andThen ?_
  intro p c₃ h₃ hends
  obtain ⟨hp, q₃⟩ := hends
  refine (derives_statement c₃).andThen ?_
  intro body c₄ h₄ hends
  obtain ⟨bs, q₄, hbody⟩ := hends
  split
  · rename_i he
    have hlt := next_lt he trivial
    refine (derives_statement c₄.next).andThen ?_
    intro other c₅ h₅ hends
    obtain ⟨os, q₅, hother⟩ := hends
    have q := (Takes.next_of_kind hk trivial).trans (q₁.trans (q₂.trans (q₃.trans
      (q₄.trans ((Takes.next_of_kind he trivial).trans q₅)))))
    exact ⟨_, q, .ifElse hk ho hcond hp hbody he hother rfl q.isOver⟩
  · have q := (Takes.next_of_kind hk trivial).trans (q₁.trans (q₂.trans (q₃.trans q₄)))
    exact ⟨_, q, .ifThen hk ho hcond hp hbody rfl q.isOver⟩
termination_by 4 * c.remaining + 1

theorem derives_loop (c : Cursor) (hk : c.kind = .kwWhile) :
    c.Derives (c.loop .standard) Statement.ReadFrom := by
  have hle := c.remaining_next_le
  rw [loop]
  refine (c.next.takes_expect .openParen).andThen ?_
  intro o c₁ h₁ hends
  obtain ⟨ho, q₁⟩ := hends
  refine (derives_condition c₁).andThen ?_
  intro condition c₂ h₂ hends
  obtain ⟨ds, q₂, hcond⟩ := hends
  refine (c₂.takes_expect .closeParen).andThen ?_
  intro p c₃ h₃ hends
  obtain ⟨hp, q₃⟩ := hends
  refine (derives_statement c₃).andThen ?_
  intro body c₄ h₄ hends
  obtain ⟨bs, q₄, hbody⟩ := hends
  have q := (Takes.next_of_kind hk trivial).trans (q₁.trans (q₂.trans (q₃.trans q₄)))
  exact ⟨_, q, .loop hk ho hcond hp hbody rfl q.isOver⟩
termination_by 4 * c.remaining + 1

theorem derives_choice (c : Cursor) (hk : c.kind = .kwSwitch) :
    c.Derives (c.choice .standard) Statement.ReadFrom := by
  have hle := c.remaining_next_le
  rw [choice]
  refine (c.next.takes_expect .openParen).andThen ?_
  intro o c₁ h₁ hends
  obtain ⟨ho, q₁⟩ := hends
  refine (derives_expression c₁).andThen ?_
  intro selector c₂ h₂ hends
  obtain ⟨ss, q₂, hsel⟩ := hends
  refine (c₂.takes_expect .closeParen).andThen ?_
  intro p c₃ h₃ hends
  obtain ⟨hp, q₃⟩ := hends
  refine (c₃.takes_expect .openCurly).andThen ?_
  intro b c₄ h₄ hends
  obtain ⟨hb, q₄⟩ := hends
  refine (derives_cases c₄).andThen ?_
  intro cases c₅ h₅ hends
  obtain ⟨cs, q₅, hcases⟩ := hends
  refine (c₅.takes_expectNoting .kwDefault).andThen ?_
  intro d c₆ h₆ hends
  obtain ⟨hd, q₆⟩ := hends
  refine (c₆.takes_expect .colon).andThen ?_
  intro l c₇ h₇ hends
  obtain ⟨hl, q₇⟩ := hends
  refine (derives_statements c₇).andThen ?_
  intro body c₈ h₈ hends
  obtain ⟨bs, q₈, hbody⟩ := hends
  refine (c₈.takes_expect .closeCurly).andThen ?_
  intro e c₉ h₉ hends
  obtain ⟨he, q₉⟩ := hends
  -- the default arm starts with its own word, unlike a case
  have hinner := (q₆.trans (q₇.trans q₈)).isOver
  have htoken : c₅.token = d := q₆.token_eq
  rw [htoken] at hcases
  have q := (Takes.next_of_kind hk trivial).trans (q₁.trans (q₂.trans (q₃.trans (q₄.trans
    (q₅.trans (q₆.trans (q₇.trans (q₈.trans q₉))))))))
  exact ⟨_, q, .switch hk ho hsel hp hb hcases hd hl hbody he hinner rfl q.isOver⟩
termination_by 4 * c.remaining + 1

theorem derives_cases (c : Cursor) :
    (c.cases .standard).Ends (fun arms c' => ∃ ts, c.Takes ts c' ∧ CasesFrom arms ts c'.token)
      fun _ _ => True := by
  rw [cases]
  split
  · rename_i h
    have hlt := next_lt h trivial
    refine c.next.takes_caseLabel.andThen ?_
    intro label c₁ h₁ hends
    obtain ⟨n, l, hn, rfl, htype, hl, q₁⟩ := hends
    refine (derives_statements c₁).andThen ?_
    intro body c₂ h₂ hends
    obtain ⟨bs, q₂, hbody⟩ := hends
    refine (derives_cases c₂).andThen ?_
    intro arms c₃ h₃ hends
    obtain ⟨rs, q₃, harms⟩ := hends
    have harm := (Takes.next_of_kind h trivial).trans (q₁.trans q₂)
    have hstart : c₁.token = (bs ++ rs).headD c₃.token := (q₂.trans q₃).token_eq
    have q : c.Takes (c.token :: n :: l :: (bs ++ rs)) c₃ :=
      (Takes.next_of_kind h trivial).trans (q₁.trans (q₂.trans q₃))
    exact ⟨_, q, .cons h hn htype hl hbody harms harm.isOver
      (congrArg (fun t => t.span.start) hstart) (harm.stop_spanFrom _ _)⟩
  · exact ⟨[], .refl c, .nil⟩
termination_by 4 * c.remaining

theorem derives_block (c : Cursor) : c.Derives (c.block .standard) Block.ReadFrom := by
  rw [block]
  refine (c.takes_expectNoting .openCurly).andThen ?_
  intro o c₁ h₁ hends
  obtain ⟨ho, q₁⟩ := hends
  refine (derives_statements c₁).andThen ?_
  intro body c₂ h₂ hends
  obtain ⟨bs, q₂, hbody⟩ := hends
  refine (c₂.takes_expectNoting .closeCurly).andThen ?_
  intro e c₃ h₃ hends
  obtain ⟨he, q₃⟩ := hends
  have q := q₁.trans (q₂.trans q₃)
  exact ⟨_, q, .mk ho hbody he q.isOver⟩
termination_by 4 * c.remaining + 1

theorem derives_statements (c : Cursor) : c.Derives (c.statements .standard) StatementsFrom := by
  rw [statements]
  split
  · exact ⟨[], .refl c, .nil⟩
  · refine (derives_statement c).andThen ?_
    intro first c₁ h₁ hends
    obtain ⟨fs, q₁, hf⟩ := hends
    refine (derives_statements c₁).andThen ?_
    intro rest c₂ h₂ hends
    obtain ⟨rs, q₂, hr⟩ := hends
    exact ⟨_, q₁.trans q₂, .cons hf hr⟩
termination_by 4 * c.remaining + 4

end

/-! ## Rules for programs -/

theorem takes_numType (c : Cursor) :
    c.numType.Ends (fun type c' => ∃ t, t.kind = type.word.kind ∧ c.Takes [t] c')
      fun _ _ => True := by
  rw [numType]
  split
  case h_1 h => exact ⟨_, h, .next_of_kind h trivial⟩
  case h_2 h => exact ⟨_, h, .next_of_kind h trivial⟩
  case h_3 => trivial

theorem derives_furtherIdents (c : Cursor) : c.Derives c.furtherIdents FurtherFrom := by
  rw [furtherIdents]
  split
  · rename_i h
    have hlt := next_lt h trivial
    refine c.next.takes_ident.andThen ?_
    intro name c₁ h₁ hends
    obtain ⟨i, hi, rfl, q₁⟩ := hends
    refine (derives_furtherIdents c₁).andThen ?_
    intro names c₂ h₂ hends
    obtain ⟨ts, q₂, hnames⟩ := hends
    exact ⟨_, (Takes.next_of_kind h trivial).trans (q₁.trans q₂), .cons h hi hnames⟩
  · exact ⟨[], .refl c, .nil⟩
termination_by c.remaining

theorem derives_declaration (c : Cursor) : c.Derives c.declaration Declaration.ReadFrom := by
  rw [declaration]
  refine c.takes_ident.andThen ?_
  intro first c₁ h₁ hends
  obtain ⟨i, hi, rfl, q₁⟩ := hends
  refine (derives_furtherIdents c₁).andThen ?_
  intro names c₂ h₂ hends
  obtain ⟨ns, q₂, hnames⟩ := hends
  refine (c₂.takes_expectNoting .colon).andThen ?_
  intro l c₃ h₃ hends
  obtain ⟨hl, q₃⟩ := hends
  refine c₃.takes_numType.andThen ?_
  intro type c₄ h₄ hends
  obtain ⟨t, ht, q₄⟩ := hends
  refine (c₄.takes_expect .semicolon).andThen ?_
  intro s c₅ h₅ hends
  obtain ⟨hs, q₅⟩ := hends
  have q := q₁.trans (q₂.trans (q₃.trans (q₄.trans q₅)))
  exact ⟨_, q, .mk hi hnames hl ht hs rfl q.isOver⟩

theorem derives_declarations (c : Cursor) : c.Derives c.declarations DeclarationsFrom := by
  rw [declarations]
  split
  · refine (derives_declaration c).andThen ?_
    intro first c₁ h₁ hends
    obtain ⟨fs, q₁, hf⟩ := hends
    refine (derives_declarations c₁).andThen ?_
    intro rest c₂ h₂ hends
    obtain ⟨rs, q₂, hr⟩ := hends
    exact ⟨_, q₁.trans q₂, .cons hf hr⟩
  · exact ⟨[], .refl c, .nil⟩
termination_by c.remaining

/-- A program is read up to a token that is an end. -/
theorem derives_program (c : Cursor) :
    c.program.Ends (fun p _ => ∃ ts c', c.Takes ts c' ∧ p.ReadFrom ts ∧ c'.kind = .eof)
      fun _ _ => True := by
  rw [program]
  refine (derives_declarations c).andThen ?_
  intro declarations c₁ h₁ hends
  obtain ⟨ds, q₁, hd⟩ := hends
  refine (derives_block c₁).andThen ?_
  intro body c₂ h₂ hends
  obtain ⟨bs, q₂, hb⟩ := hends
  unfold demand
  split
  · rename_i h
    exact ⟨_, c₂, q₁.trans q₂, .mk hd hb, h⟩
  · trivial

end Cursor

/-- The tokens ahead are those of the list, but for an end token at its end. -/
theorem Cursor.ahead_ofTokens (tokens : List Token) (file : String) :
    (ofTokens tokens file).ahead = tokens ∨
      ∃ last, last.kind = .eof ∧ tokens = (ofTokens tokens file).ahead ++ [last] := by
  unfold ofTokens
  split
  · rename_i hnone
    exact .inl (List.getLast?_eq_none_iff.mp hnone).symm
  · rename_i last hlast
    split
    · rename_i heof
      obtain ⟨init, rfl⟩ := List.getLast?_eq_some_iff.mp hlast
      exact .inr ⟨last, heof, congrArg (· ++ [last]) List.dropLast_concat.symm⟩
    · exact .inl rfl

/-- A program is read from the first tokens of a list. If a token comes after them, it is an end. -/
theorem Program.readFrom_of_ofTokens {tokens : List Token} {file : String} {p : Program}
    (h : Program.ofTokens tokens file = .ok p) :
    ∃ ts rest, tokens = ts ++ rest ∧ p.ReadFrom ts ∧ ∀ t ∈ rest.head?, t.kind = .eof := by
  obtain ⟨_, ts, c, q, hread, heof⟩ := (Cursor.derives_program _).of_result_eq_ok h
  rw [Cursor.kind, Cursor.token] at heof
  obtain hahead | ⟨last, hlast, hahead⟩ := Cursor.ahead_ofTokens tokens file
  · refine ⟨ts, c.ahead, hahead.symm.trans q.ahead, hread, ?_⟩
    intro t ht
    rwa [List.headD_eq_head?_getD, Option.mem_def.mp ht] at heof
  · refine ⟨ts, c.ahead ++ [last], ?_, hread, ?_⟩
    · rw [hahead, q.ahead, List.append_assoc]
    · intro t ht
      rw [List.headD_eq_head?_getD] at heof
      rw [List.head?_append, Option.mem_def, Option.or_eq_some_iff] at ht
      obtain ht | ⟨-, ht⟩ := ht
      · rwa [ht] at heof
      · exact Option.some.inj ht ▸ hlast

end Cpl
