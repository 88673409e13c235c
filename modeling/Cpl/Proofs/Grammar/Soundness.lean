import Cpl.Proofs.Grammar.Passing

/-!
# What the grammar reads

A rule that reads a tree has passed exactly the words with which the tree is written, and the tree is
grammatical; a rule that fails has passed words with which some grammatical tree begins, up to the token
that it blames. Both are stated together for each rule (`Cursor.Spells`), by induction on the tokens ahead.
-/

namespace Cpl

open Reading

/-- The words are the beginning of some good tree. -/
def Begins {α : Type} (words : α → List Word) (good : α → Prop) (ws : List Word) : Prop :=
  ∃ x, good x ∧ ws <+: words x

namespace Cursor

section Spells

variable {α β : Type} {n : Nat} {c₀ c : Cursor} {pre : List Word} {words : α → List Word}
  {good : α → Prop} {r : Reading α n}

/-- The reading passes the words of a good tree, or fails after words with which one begins. -/
def Spells (c : Cursor) (words : α → List Word) (good : α → Prop) (r : Reading α n) : Prop :=
  r.Ends (fun x c' => c.Passes (words x) c' ∧ good x) (c.Fails (Begins words good))

/-- A part of a larger tree: if it fails, what has been passed before it and of it begins the larger tree,
since any good tree could stand in its place. -/
theorem Spells.after {words' : β → List Word} {good' : β → Prop} (h : c.Spells words good r)
    (q : c₀.Passes pre c) (hb : ∀ x, good x → Begins words' good' (pre ++ words x)) :
    r.Ends (fun x c' => c₀.Passes (pre ++ words x) c' ∧ good x)
      (c₀.Fails (Begins words' good')) := by
  refine h.imp (fun _ _ ⟨hp, hg⟩ => ⟨q.trans hp, hg⟩) fun _ _ hw => hw.after q ?_
  rintro ws ⟨x, hg, hx⟩
  obtain ⟨y, hy, hpre⟩ := hb x hg
  exact ⟨y, hy, ((List.prefix_append_right_inj _).mpr hx).trans hpre⟩

end Spells

theorem word_token {c : Cursor} {k : Kind} (h : c.kind = k) : c.token.word = ⟨k, c.token.value⟩ := by
  subst h
  rfl

end Cursor

theorem Kind.ofOperator_spelling {k : Kind}
    (h : k.isAdditive = true ∨ k.isMultiplicative = true ∨ k.isRelational = true) :
    k.isOpen = false ∧ Kind.ofOperator k.spelling = k := by
  revert h
  cases k <;> decide

namespace Token

/-- An operator token has the kind of its text. -/
theorem Proper.kind_operator {t : Token} (h : t.Proper)
    (hk : t.kind.isAdditive = true ∨ t.kind.isMultiplicative = true ∨ t.kind.isRelational = true) :
    t.operator.kind = t.kind := by
  obtain ⟨ho, hs⟩ := Kind.ofOperator_spelling hk
  rw [Operator.kind, Token.operator, h.value ho, hs]

theorem word_operator {t : Token} (h : t.operator.kind = t.kind) : t.operator.word = t.word := by
  rw [Operator.word, h]
  rfl

theorem word_of_castType {t : Token} {type : NumType} (hk : t.kind = .cast)
    (h : t.castType = .ok type) : t.word = type.castWord := by
  unfold castType at h
  split at h <;> cases h <;> rename_i hv <;> rw [Token.word, hk, hv] <;> rfl

theorem problem_of_castType {t : Token} {error : Diagnostic} (h : t.castType = .error error) :
    error = ⟨.invalidCast t.value, t.span.start⟩ := by
  unfold castType at h
  split at h <;> cases h
  rfl

end Token

/-! ## Expressions -/

/-- The shortest expression there is, to end what has been begun. -/
def Expression.one : Expression :=
  .term (.factor (.literal ⟨"1"⟩))

theorem Expression.grammatical_one : Expression.one.Grammatical :=
  trivial

namespace Cursor

mutual

theorem spells_expression (c : Cursor) (hc : c.Proper) :
    c.Spells Expression.words Expression.Grammatical c.expression := by
  rw [expression]
  refine ((spells_term c hc).after (.refl c)
    fun t ht => ⟨.term t, ht, List.prefix_rfl⟩).andThen ?_
  rintro first c₁ h₁ ⟨q, hf⟩
  exact (spells_expressionAfter c c₁ (.term first) hc q hf).weaken h₁
termination_by 3 * c.remaining + 2

/-- From where the chain starts, the rule passes the words of the whole chain. -/
theorem spells_expressionAfter (c₀ c : Cursor) (left : Expression) (hc : c₀.Proper)
    (q : c₀.Passes left.words c) (hl : left.Grammatical) :
    c₀.Spells Expression.words Expression.Grammatical (c.expressionAfter left) := by
  rw [expressionAfter]
  split
  · rename_i h
    have hne := Kind.ne_eof_of_isAdditive h
    have hlt := remaining_next_lt hne
    have hkind := ((q.proper hc).token hne).kind_operator (.inl h)
    have hop : c.token.operator.symbol ∈ _ := Operator.isAdditive_iff.mp (hkind ▸ h)
    have q₁ := q.trans (.next hne)
    rw [← Token.word_operator hkind] at q₁
    refine ((spells_term c.next (q₁.proper hc)).after q₁
      fun t ht => ⟨.chain left c.token.operator t, ⟨hl, hop, ht⟩, List.prefix_rfl⟩).andThen ?_
    rintro right c₁ h₁ ⟨q₂, hr⟩
    exact (spells_expressionAfter c₀ c₁ (.chain left c.token.operator right) hc q₂
      ⟨hl, hop, hr⟩).weaken _
  · exact ⟨q, hl⟩
termination_by 3 * c.remaining

theorem spells_term (c : Cursor) (hc : c.Proper) :
    c.Spells Term.words Term.Grammatical c.term := by
  rw [term]
  refine ((spells_factor c hc).after (.refl c)
    fun f hf => ⟨.factor f, hf, List.prefix_rfl⟩).andThen ?_
  rintro first c₁ h₁ ⟨q, hf⟩
  exact (spells_termAfter c c₁ (.factor first) hc q hf).weaken h₁
termination_by 3 * c.remaining + 1

@[inherit_doc spells_expressionAfter]
theorem spells_termAfter (c₀ c : Cursor) (left : Term) (hc : c₀.Proper)
    (q : c₀.Passes left.words c) (hl : left.Grammatical) :
    c₀.Spells Term.words Term.Grammatical (c.termAfter left) := by
  rw [termAfter]
  split
  · rename_i h
    have hne := Kind.ne_eof_of_isMultiplicative h
    have hlt := remaining_next_lt hne
    have hkind := ((q.proper hc).token hne).kind_operator (.inr (.inl h))
    have hop : c.token.operator.symbol ∈ _ := Operator.isMultiplicative_iff.mp (hkind ▸ h)
    have q₁ := q.trans (.next hne)
    rw [← Token.word_operator hkind] at q₁
    refine ((spells_factor c.next (q₁.proper hc)).after q₁
      fun f hf => ⟨.chain left c.token.operator f, ⟨hl, hop, hf⟩, List.prefix_rfl⟩).andThen ?_
    rintro right c₁ h₁ ⟨q₂, hr⟩
    exact (spells_termAfter c₀ c₁ (.chain left c.token.operator right) hc q₂ ⟨hl, hop, hr⟩).weaken _
  · exact ⟨q, hl⟩
termination_by 3 * c.remaining

theorem spells_factor (c : Cursor) (hc : c.Proper) :
    c.Spells Factor.words Factor.Grammatical c.factor := by
  have hbegins : Begins Factor.words Factor.Grammatical [] :=
    ⟨.literal ⟨"1"⟩, trivial, List.nil_prefix⟩
  rw [factor]
  split
  case h_1 h =>
    have q : c.Passes _ c.next := .next (by rw [h]; exact Kind.noConfusion)
    rw [word_token h] at q
    exact ⟨q, trivial⟩
  case h_2 h =>
    have q : c.Passes _ c.next := .next (by rw [h]; exact Kind.noConfusion)
    rw [word_token h] at q
    exact ⟨q, trivial⟩
  case h_3 h =>
    have hlt := next_lt h trivial
    have q := hc.next h Kind.noConfusion rfl
    refine ((spells_expression c.next (q.proper hc)).after q
      fun e he => ⟨.parens e .nowhere, he, List.prefix_append ..⟩).andThen ?_
    rintro inner c₁ h₁ ⟨q₁, hi⟩
    refine (ends_expect .closeParen hc q₁ rfl
      ⟨.parens inner .nowhere, hi, List.prefix_append ..⟩).andThen ?_
    exact fun _ c₂ h₂ q₂ => ⟨q₂, hi⟩
  case h_4 h =>
    have hne : c.kind ≠ .eof := by simp [h]
    have hlt : c.next.remaining < c.remaining := remaining_next_lt hne
    cases htype : c.token.castType with
    | error error =>
      -- the token has been passed when its text is looked at
      obtain rfl := Token.problem_of_castType htype
      exact fails_behind hne (.refl c) rfl rfl hbegins
    | ok type =>
      have q : c.Passes _ c.next := .next hne
      rw [Token.word_of_castType h htype] at q
      refine (ends_expect .openParen hc q rfl
        ⟨.cast type .one .nowhere, Expression.grammatical_one, by simp [Factor.words]⟩).andThen ?_
      intro _ c₁ h₁ q₁
      refine ((spells_expression c₁ (q₁.proper hc)).after q₁
        fun e he => ⟨.cast type e .nowhere, he, List.prefix_append ..⟩).andThen ?_
      rintro inner c₂ h₂ ⟨q₂, hi⟩
      refine (ends_expect .closeParen hc q₂ rfl
        ⟨.cast type inner .nowhere, hi, List.prefix_append ..⟩).andThen ?_
      exact fun _ c₃ h₃ q₃ => ⟨q₃, hi⟩
  case h_5 => exact fails_here (.refl c) rfl rfl hbegins
termination_by 3 * c.remaining

end

end Cursor

/-! ## Conditions -/

/-- A shortest test. -/
def Test.same : Test :=
  .compare .one ⟨"==", Span.nowhere.start⟩ .one

theorem Test.grammatical_same : Test.same.Grammatical :=
  ⟨Expression.grammatical_one, .head _, Expression.grammatical_one⟩

/-- A shortest condition. -/
def Condition.same : Condition :=
  .clause (.test .same)

theorem Condition.grammatical_same : Condition.same.Grammatical :=
  Test.grammatical_same

namespace Cursor

mutual

theorem spells_condition (c : Cursor) (hc : c.Proper) :
    c.Spells Condition.words Condition.Grammatical c.condition := by
  rw [condition]
  refine ((spells_clause c hc).after (.refl c)
    fun l hl => ⟨.clause l, hl, List.prefix_rfl⟩).andThen ?_
  rintro first c₁ h₁ ⟨q, hf⟩
  exact (spells_conditionAfter c c₁ (.clause first) hc q hf).weaken h₁
termination_by 3 * c.remaining + 2

@[inherit_doc spells_expressionAfter]
theorem spells_conditionAfter (c₀ c : Cursor) (left : Condition) (hc : c₀.Proper)
    (q : c₀.Passes left.words c) (hl : left.Grammatical) :
    c₀.Spells Condition.words Condition.Grammatical (c.conditionAfter left) := by
  rw [conditionAfter]
  split
  · rename_i h
    have hlt := next_lt h trivial
    have q₁ := q.trans ((q.proper hc).next h Kind.noConfusion rfl)
    refine ((spells_clause c.next (q₁.proper hc)).after q₁
      fun l hr => ⟨.or left l, ⟨hl, hr⟩, List.prefix_rfl⟩).andThen ?_
    rintro right c₁ h₁ ⟨q₂, hr⟩
    exact (spells_conditionAfter c₀ c₁ (.or left right) hc q₂ ⟨hl, hr⟩).weaken _
  · exact ⟨q, hl⟩
termination_by 3 * c.remaining

theorem spells_clause (c : Cursor) (hc : c.Proper) :
    c.Spells Clause.words Clause.Grammatical c.clause := by
  rw [clause]
  refine ((spells_test c hc).after (.refl c)
    fun t ht => ⟨.test t, ht, List.prefix_rfl⟩).andThen ?_
  rintro first c₁ h₁ ⟨q, hf⟩
  exact (spells_clauseAfter c c₁ (.test first) hc q hf).weaken h₁
termination_by 3 * c.remaining + 1

@[inherit_doc spells_expressionAfter]
theorem spells_clauseAfter (c₀ c : Cursor) (left : Clause) (hc : c₀.Proper)
    (q : c₀.Passes left.words c) (hl : left.Grammatical) :
    c₀.Spells Clause.words Clause.Grammatical (c.clauseAfter left) := by
  rw [clauseAfter]
  split
  · rename_i h
    have hlt := next_lt h trivial
    have q₁ := q.trans ((q.proper hc).next h Kind.noConfusion rfl)
    refine ((spells_test c.next (q₁.proper hc)).after q₁
      fun t hr => ⟨.and left t, ⟨hl, hr⟩, List.prefix_rfl⟩).andThen ?_
    rintro right c₁ h₁ ⟨q₂, hr⟩
    exact (spells_clauseAfter c₀ c₁ (.and left right) hc q₂ ⟨hl, hr⟩).weaken _
  · exact ⟨q, hl⟩
termination_by 3 * c.remaining

theorem spells_test (c : Cursor) (hc : c.Proper) :
    c.Spells Test.words Test.Grammatical c.test := by
  rw [test]
  split
  · rename_i h
    have hlt := next_lt h trivial
    have q := hc.next h Kind.noConfusion rfl
    refine (ends_expectNoting .openParen hc q rfl
      ⟨.not .same .nowhere, Condition.grammatical_same, by simp [Test.words]⟩).andThen ?_
    intro _ c₁ h₁ q₁
    refine ((spells_condition c₁ (q₁.proper hc)).after q₁
      fun d hd => ⟨.not d .nowhere, hd, List.prefix_append ..⟩).andThen ?_
    rintro inner c₂ h₂ ⟨q₂, hi⟩
    refine (ends_expect .closeParen hc q₂ rfl
      ⟨.not inner .nowhere, hi, List.prefix_append ..⟩).andThen ?_
    exact fun _ c₃ h₃ q₃ => ⟨q₃, hi⟩
  · -- the operator and the second side of a test are free, as long as they have not been read
    have hbegins : ∀ e : Expression, e.Grammatical → Begins Test.words Test.Grammatical e.words :=
      fun e he => ⟨.compare e ⟨"==", Span.nowhere.start⟩ .one,
        ⟨he, .head _, Expression.grammatical_one⟩, by simp [Test.words]⟩
    refine ((spells_expression c hc).after (.refl c) hbegins).andThen ?_
    rintro left c₁ h₁ ⟨q₁, hl⟩
    split
    · rename_i h
      have hne := Kind.ne_eof_of_isRelational h
      have hkind := ((q₁.proper hc).token hne).kind_operator (.inr (.inr h))
      have hop : c₁.token.operator.symbol ∈ _ := Operator.isRelational_iff.mp (hkind ▸ h)
      have q₂ := q₁.trans (.next hne)
      rw [← Token.word_operator hkind] at q₂
      refine ((spells_expression c₁.next (q₂.proper hc)).after q₂
        fun e he => ⟨.compare left c₁.token.operator e, ⟨hl, hop, he⟩, List.prefix_rfl⟩).andThen ?_
      exact fun right c₂ h₂ ⟨q₃, hr⟩ => ⟨q₃, hl, hop, hr⟩
    · exact fails_here q₁ rfl rfl (hbegins left hl)
termination_by 3 * c.remaining

end

end Cursor

/-! ## Statements -/

/-- The kind of the token with which a statement of the form starts. -/
def Form.firstKind : Form → Kind
  | .assignment => .identifier
  | .input => .kwInput
  | .output => .kwOutput
  | .conditional => .kwIf
  | .loop => .kwWhile
  | .choice => .kwSwitch
  | .leave => .kwBreak
  | .block => .openCurly

theorem FormTable.kind_of_standard {k : Kind} {form : Form}
    (h : FormTable.standard k = some (.form form)) : k = form.firstKind := by
  unfold standard at h
  split at h <;> cases h <;> rfl

namespace Cursor

section Forms

variable {c₀ c : Cursor} {pre : List Word} {begins : List Word → Prop}

theorem ends_ident (q : c₀.Passes pre c) (hb : begins pre) :
    c.ident.Ends (fun i c' => c₀.Passes (pre ++ [i.word]) c') (c₀.Fails begins) := by
  refine (ends_take q rfl rfl hb).andThen ?_
  rintro t c' h' ⟨hk, rfl, rfl⟩
  have q' := q.trans (.next (by simp [hk]))
  rwa [word_token hk] at q'

theorem spells_assignment (c : Cursor) (hc : c.Proper) :
    c.Spells Statement.words Statement.Grammatical c.assignment := by
  rw [assignment]
  refine (ends_ident (.refl c) ⟨.leave .nowhere, trivial, List.nil_prefix⟩).andThen ?_
  intro target c₁ h₁ q₁
  refine (ends_expectNoting .assignment hc q₁ rfl
    ⟨.assign target .one .nowhere, Expression.grammatical_one, by simp [Statement.words]⟩).andThen ?_
  intro _ c₂ h₂ q₂
  refine ((spells_expression c₂ (q₂.proper hc)).after q₂
    fun e he => ⟨.assign target e .nowhere, he, List.prefix_append ..⟩).andThen ?_
  rintro value c₃ h₃ ⟨q₃, hv⟩
  refine (ends_expect .semicolon hc q₃ rfl
    ⟨.assign target value .nowhere, hv, List.prefix_append ..⟩).andThen ?_
  exact fun _ c₄ h₄ q₄ => ⟨q₄, hv⟩

theorem spells_input (c : Cursor) (hc : c.Proper) (hk : c.kind = .kwInput) :
    c.Spells Statement.words Statement.Grammatical c.input := by
  rw [input]
  have q := hc.next hk Kind.noConfusion rfl
  refine (ends_expect .openParen hc q rfl
    ⟨.input ⟨"", .nowhere⟩ .nowhere, trivial, by simp [Statement.words]⟩).andThen ?_
  intro _ c₁ h₁ q₁
  refine (ends_ident q₁
    ⟨.input ⟨"", .nowhere⟩ .nowhere, trivial, by simp [Statement.words]⟩).andThen ?_
  intro target c₂ h₂ q₂
  refine (ends_expect .closeParen hc q₂ rfl
    ⟨.input target .nowhere, trivial, by simp [Statement.words]⟩).andThen ?_
  intro _ c₃ h₃ q₃
  refine (ends_expect .semicolon hc q₃ rfl
    ⟨.input target .nowhere, trivial, List.prefix_append ..⟩).andThen ?_
  exact fun _ c₄ h₄ q₄ => ⟨q₄, trivial⟩

theorem spells_output (c : Cursor) (hc : c.Proper) (hk : c.kind = .kwOutput) :
    c.Spells Statement.words Statement.Grammatical c.output := by
  rw [output]
  have q := hc.next hk Kind.noConfusion rfl
  refine (ends_expect .openParen hc q rfl
    ⟨.output .one .nowhere, Expression.grammatical_one, by simp [Statement.words]⟩).andThen ?_
  intro _ c₁ h₁ q₁
  refine ((spells_expression c₁ (q₁.proper hc)).after q₁
    fun e he => ⟨.output e .nowhere, he, by simp [Statement.words]⟩).andThen ?_
  rintro value c₂ h₂ ⟨q₂, hv⟩
  refine (ends_expect .closeParen hc q₂ rfl
    ⟨.output value .nowhere, hv, by simp [Statement.words]⟩).andThen ?_
  intro _ c₃ h₃ q₃
  refine (ends_expect .semicolon hc q₃ rfl
    ⟨.output value .nowhere, hv, List.prefix_append ..⟩).andThen ?_
  exact fun _ c₄ h₄ q₄ => ⟨q₄, hv⟩

theorem spells_leave (c : Cursor) (hc : c.Proper) (hk : c.kind = .kwBreak) :
    c.Spells Statement.words Statement.Grammatical c.leave := by
  rw [leave]
  have q := hc.next hk Kind.noConfusion rfl
  refine (ends_expect .semicolon hc q rfl
    ⟨.leave .nowhere, trivial, List.prefix_append ..⟩).andThen ?_
  exact fun _ c₁ h₁ q₁ => ⟨q₁, trivial⟩

theorem ends_caseLabel (hc : c₀.Proper) (q : c₀.Passes pre c) (hb : begins pre)
    (hb' : ∀ l : Literal, '.' ∉ l.text.toList → begins (pre ++ [l.word])) :
    c.caseLabel.Ends
      (fun l c' => c₀.Passes (pre ++ [l.word] ++ [Kind.colon.word]) c' ∧ '.' ∉ l.text.toList)
      (c₀.Fails begins) := by
  rw [caseLabel]
  refine (ends_take q rfl rfl hb).andThen ?_
  rintro t c₁ h₁ ⟨hk, rfl, rfl⟩
  have hne : c.kind ≠ .eof := by simp [hk]
  dsimp only
  split
  · rename_i htype
    have hl := Literal.type_eq_int_iff.mp htype
    have q₁ := q.trans (.next hne)
    rw [word_token hk] at q₁
    refine (ends_expect .colon hc q₁ rfl (hb' ⟨c.token.value⟩ hl)).andThen ?_
    exact fun _ c₂ h₂ q₂ => ⟨q₂, hl⟩
  · exact fails_behind hne q rfl rfl hb

end Forms

mutual

/-- After a statement that ends in an "if" without "else" there is no "else": it would belong to it. -/
theorem noElse_statement (c : Cursor) :
    (c.statement .standard).Ends (fun s c' => s.endsOpen = true → c'.kind ≠ .kwElse)
      fun _ _ => True := by
  rw [statement]
  split
  · exact noElse_formed c _
  · trivial
termination_by 4 * c.remaining + 3

theorem noElse_formed (c : Cursor) (form : Form) :
    (c.formed .standard form).Ends (fun s c' => s.endsOpen = true → c'.kind ≠ .kwElse)
      fun _ _ => True := by
  cases form <;> rw [formed]
  case conditional => exact noElse_conditional c
  case loop => exact noElse_loop c
  case' assignment => rw [assignment]
  case' input => rw [input]
  case' output => rw [output]
  case' choice => rw [choice]
  case' leave => rw [leave]
  -- a statement of any other form ends in a token of its own
  all_goals
    repeat refine .of_andThen fun _ _ _ => ?_
    exact nofun
termination_by 4 * c.remaining + 2

theorem noElse_conditional (c : Cursor) :
    (c.conditional .standard).Ends (fun s c' => s.endsOpen = true → c'.kind ≠ .kwElse)
      fun _ _ => True := by
  have hle := c.remaining_next_le
  rw [conditional]
  refine .of_andThen fun _ c₁ h₁ => .of_andThen fun condition c₂ h₂ => .of_andThen fun _ c₃ h₃ =>
    .of_andThen fun body c₄ h₄ => ?_
  split
  · rename_i h
    have hlt := next_lt h trivial
    exact (noElse_statement c₄.next).andThen fun other c₅ h₅ hno => hno
  · rename_i h
    exact fun _ => h
termination_by 4 * c.remaining + 1

theorem noElse_loop (c : Cursor) :
    (c.loop .standard).Ends (fun s c' => s.endsOpen = true → c'.kind ≠ .kwElse)
      fun _ _ => True := by
  have hle := c.remaining_next_le
  rw [loop]
  refine .of_andThen fun _ c₁ h₁ => .of_andThen fun condition c₂ h₂ => .of_andThen fun _ c₃ h₃ => ?_
  exact (noElse_statement c₃).andThen fun body c₄ h₄ hno => hno
termination_by 4 * c.remaining + 1

end

mutual

theorem spells_statement (c : Cursor) (hc : c.Proper) :
    c.Spells Statement.words Statement.Grammatical (c.statement .standard) := by
  rw [statement]
  split
  · rename_i form h
    exact spells_formed c form hc (FormTable.kind_of_standard h)
  · exact fails_here (.refl c) rfl rfl ⟨.leave .nowhere, trivial, List.nil_prefix⟩
termination_by 4 * c.remaining + 3

theorem spells_formed (c : Cursor) (form : Form) (hc : c.Proper) (hk : c.kind = form.firstKind) :
    c.Spells Statement.words Statement.Grammatical (c.formed .standard form) := by
  cases form <;> rw [formed]
  case assignment => exact spells_assignment c hc
  case input => exact spells_input c hc hk
  case output => exact spells_output c hc hk
  case conditional => exact spells_conditional c hc hk
  case loop => exact spells_loop c hc hk
  case choice => exact spells_choice c hc hk
  case leave => exact spells_leave c hc hk
  case block =>
    exact ((spells_block c hc).after (.refl c) fun b hb => ⟨.block b, hb, List.prefix_rfl⟩).andThen
      fun _ _ _ h => h
termination_by 4 * c.remaining + 2

theorem spells_conditional (c : Cursor) (hc : c.Proper) (hk : c.kind = .kwIf) :
    c.Spells Statement.words Statement.Grammatical (c.conditional .standard) := by
  have hle := c.remaining_next_le
  rw [conditional]
  have q := hc.next hk Kind.noConfusion rfl
  refine (ends_expect .openParen hc q rfl ⟨.ifThen .same (.leave .nowhere) .nowhere,
    ⟨Condition.grammatical_same, trivial⟩, by simp [Statement.words]⟩).andThen ?_
  intro _ c₁ h₁ q₁
  refine ((spells_condition c₁ (q₁.proper hc)).after q₁ fun d hd =>
    ⟨.ifThen d (.leave .nowhere) .nowhere, ⟨hd, trivial⟩, by simp [Statement.words]⟩).andThen ?_
  rintro condition c₂ h₂ ⟨q₂, hcond⟩
  refine (ends_expect .closeParen hc q₂ rfl ⟨.ifThen condition (.leave .nowhere) .nowhere,
    ⟨hcond, trivial⟩, by simp [Statement.words]⟩).andThen ?_
  intro _ c₃ h₃ q₃
  refine (((spells_statement c₃ (q₃.proper hc)).after q₃ fun s hs =>
    ⟨.ifThen condition s .nowhere, ⟨hcond, hs⟩, List.prefix_rfl⟩).and
      (noElse_statement c₃)).andThen ?_
  rintro body c₄ h₄ ⟨⟨q₄, hbody⟩, hno⟩
  split
  · rename_i h
    have hlt := next_lt h trivial
    -- an open body would have taken the "else"
    have hclosed : body.endsOpen = false := Bool.eq_false_iff.mpr fun ho => hno ho h
    have q₅ := q₄.trans ((q₄.proper hc).next h Kind.noConfusion rfl)
    refine ((spells_statement c₄.next (q₅.proper hc)).after q₅ fun s hs =>
      ⟨.ifElse condition body s .nowhere, ⟨hcond, hbody, hclosed, hs⟩, List.prefix_rfl⟩).andThen ?_
    exact fun other c₅ h₅ ⟨q₆, hother⟩ => ⟨q₆, hcond, hbody, hclosed, hother⟩
  · exact ⟨q₄, hcond, hbody⟩
termination_by 4 * c.remaining + 1

theorem spells_loop (c : Cursor) (hc : c.Proper) (hk : c.kind = .kwWhile) :
    c.Spells Statement.words Statement.Grammatical (c.loop .standard) := by
  have hle := c.remaining_next_le
  rw [loop]
  have q := hc.next hk Kind.noConfusion rfl
  refine (ends_expect .openParen hc q rfl ⟨.loop .same (.leave .nowhere) .nowhere,
    ⟨Condition.grammatical_same, trivial⟩, by simp [Statement.words]⟩).andThen ?_
  intro _ c₁ h₁ q₁
  refine ((spells_condition c₁ (q₁.proper hc)).after q₁ fun d hd =>
    ⟨.loop d (.leave .nowhere) .nowhere, ⟨hd, trivial⟩, by simp [Statement.words]⟩).andThen ?_
  rintro condition c₂ h₂ ⟨q₂, hcond⟩
  refine (ends_expect .closeParen hc q₂ rfl ⟨.loop condition (.leave .nowhere) .nowhere,
    ⟨hcond, trivial⟩, by simp [Statement.words]⟩).andThen ?_
  intro _ c₃ h₃ q₃
  refine ((spells_statement c₃ (q₃.proper hc)).after q₃ fun s hs =>
    ⟨.loop condition s .nowhere, ⟨hcond, hs⟩, List.prefix_rfl⟩).andThen ?_
  exact fun body c₄ h₄ ⟨q₄, hbody⟩ => ⟨q₄, hcond, hbody⟩
termination_by 4 * c.remaining + 1

theorem spells_choice (c : Cursor) (hc : c.Proper) (hk : c.kind = .kwSwitch) :
    c.Spells Statement.words Statement.Grammatical (c.choice .standard) := by
  have hle := c.remaining_next_le
  rw [choice]
  have q := hc.next hk Kind.noConfusion rfl
  refine (ends_expect .openParen hc q rfl ⟨.switch .one [] ⟨[], .nowhere⟩ .nowhere,
    ⟨Expression.grammatical_one, trivial, trivial⟩, by simp [Statement.words]⟩).andThen ?_
  intro _ c₁ h₁ q₁
  refine ((spells_expression c₁ (q₁.proper hc)).after q₁ fun e he =>
    ⟨.switch e [] ⟨[], .nowhere⟩ .nowhere, ⟨he, trivial, trivial⟩, by simp [Statement.words]⟩).andThen ?_
  rintro selector c₂ h₂ ⟨q₂, hsel⟩
  refine (ends_expect .closeParen hc q₂ rfl ⟨.switch selector [] ⟨[], .nowhere⟩ .nowhere,
    ⟨hsel, trivial, trivial⟩, by simp [Statement.words]⟩).andThen ?_
  intro _ c₃ h₃ q₃
  refine (ends_expect .openCurly hc q₃ rfl ⟨.switch selector [] ⟨[], .nowhere⟩ .nowhere,
    ⟨hsel, trivial, trivial⟩, by simp [Statement.words]⟩).andThen ?_
  intro _ c₄ h₄ q₄
  refine ((spells_cases c₄ (q₄.proper hc)).after q₄ fun arms ha =>
    ⟨.switch selector arms ⟨[], .nowhere⟩ .nowhere, ⟨hsel, ha, trivial⟩,
      by simp [Statement.words]⟩).andThen ?_
  rintro arms c₅ h₅ ⟨q₅, harms⟩
  refine (ends_expectNoting .kwDefault hc q₅ rfl ⟨.switch selector arms ⟨[], .nowhere⟩ .nowhere,
    ⟨hsel, harms, trivial⟩, by simp [Statement.words]⟩).andThen ?_
  intro _ c₆ h₆ q₆
  refine (ends_expect .colon hc q₆ rfl ⟨.switch selector arms ⟨[], .nowhere⟩ .nowhere,
    ⟨hsel, harms, trivial⟩, by simp [Statement.words]⟩).andThen ?_
  intro _ c₇ h₇ q₇
  refine ((spells_statements c₇ (q₇.proper hc)).after q₇ fun ss hs =>
    ⟨.switch selector arms ⟨ss, .nowhere⟩ .nowhere, ⟨hsel, harms, hs⟩,
      List.prefix_append ..⟩).andThen ?_
  rintro body c₈ h₈ ⟨q₈, hbody⟩
  refine (ends_expect .closeCurly hc q₈ rfl ⟨.switch selector arms ⟨body, .nowhere⟩ .nowhere,
    ⟨hsel, harms, hbody⟩, List.prefix_append ..⟩).andThen ?_
  exact fun _ c₉ h₉ q₉ => ⟨q₉, hsel, harms, hbody⟩
termination_by 4 * c.remaining + 1

theorem spells_cases (c : Cursor) (hc : c.Proper) :
    c.Spells casesWords casesGrammatical (c.cases .standard) := by
  rw [cases]
  split
  · rename_i h
    have hlt := next_lt h trivial
    have q := hc.next h Kind.noConfusion rfl
    refine (ends_caseLabel hc q
      ⟨[⟨⟨"1"⟩, ⟨[], .nowhere⟩, .nowhere⟩], ⟨by decide, trivial, trivial⟩, by simp [casesWords]⟩
      fun l hl => ⟨[⟨l, ⟨[], .nowhere⟩, .nowhere⟩], ⟨hl, trivial, trivial⟩,
        by simp [casesWords]⟩).andThen ?_
    rintro label c₁ h₁ ⟨q₁, hlabel⟩
    refine ((spells_statements c₁ (q₁.proper hc)).after q₁ fun ss hs =>
      ⟨[⟨label, ⟨ss, .nowhere⟩, .nowhere⟩], ⟨hlabel, hs, trivial⟩, List.prefix_append ..⟩).andThen ?_
    rintro body c₂ h₂ ⟨q₂, hbody⟩
    refine ((spells_cases c₂ (q₂.proper hc)).after q₂ fun arms ha =>
      ⟨⟨label, ⟨body, .nowhere⟩, .nowhere⟩ :: arms, ⟨hlabel, hbody, ha⟩, List.prefix_rfl⟩).andThen ?_
    exact fun arms c₃ h₃ ⟨q₃, harms⟩ => ⟨q₃, hlabel, hbody, harms⟩
  · exact ⟨.refl c, trivial⟩
termination_by 4 * c.remaining

theorem spells_block (c : Cursor) (hc : c.Proper) :
    c.Spells Block.words Block.Grammatical (c.block .standard) := by
  rw [block]
  refine (ends_expectNoting .openCurly hc (.refl c) rfl
    ⟨⟨[], .nowhere⟩, trivial, List.nil_prefix⟩).andThen ?_
  intro _ c₁ h₁ q₁
  refine ((spells_statements c₁ (q₁.proper hc)).after q₁ fun ss hs =>
    ⟨⟨ss, .nowhere⟩, hs, List.prefix_append ..⟩).andThen ?_
  rintro body c₂ h₂ ⟨q₂, hbody⟩
  refine (ends_expectNoting .closeCurly hc q₂ rfl
    ⟨⟨body, .nowhere⟩, hbody, List.prefix_append ..⟩).andThen ?_
  exact fun _ c₃ h₃ q₃ => ⟨q₃, hbody⟩
termination_by 4 * c.remaining + 1

theorem spells_statements (c : Cursor) (hc : c.Proper) :
    c.Spells statementsWords statementsGrammatical (c.statements .standard) := by
  rw [statements]
  split
  · exact ⟨.refl c, trivial⟩
  · refine ((spells_statement c hc).after (.refl c) fun s hs =>
      ⟨[s], ⟨hs, trivial⟩, by simp [statementsWords]⟩).andThen ?_
    rintro first c₁ h₁ ⟨q₁, hf⟩
    refine ((spells_statements c₁ (q₁.proper hc)).after q₁ fun ss hs =>
      ⟨first :: ss, ⟨hf, hs⟩, List.prefix_rfl⟩).andThen ?_
    exact fun rest c₂ h₂ ⟨q₂, hr⟩ => ⟨q₂, hf, hr⟩
termination_by 4 * c.remaining + 4

end

/-! ## Programs -/

section Parts

variable {c₀ c : Cursor} {pre : List Word} {begins : List Word → Prop}

theorem ends_numType (hc : c₀.Proper) (q : c₀.Passes pre c) (hb : begins pre) :
    c.numType.Ends (fun type c' => c₀.Passes (pre ++ [type.word]) c') (c₀.Fails begins) := by
  rw [numType]
  split
  case h_1 h => exact q.trans ((q.proper hc).next h Kind.noConfusion rfl)
  case h_2 h => exact q.trans ((q.proper hc).next h Kind.noConfusion rfl)
  case h_3 => exact fails_here q rfl rfl hb

end Parts

theorem spells_furtherIdents (c : Cursor) (hc : c.Proper) :
    c.Spells furtherWords (fun _ => True) c.furtherIdents := by
  rw [furtherIdents]
  split
  · rename_i h
    have hlt := next_lt h trivial
    refine (ends_ident (hc.next h Kind.noConfusion rfl)
      ⟨[⟨"", .nowhere⟩], trivial, by simp [furtherWords]⟩).andThen ?_
    intro name c₁ h₁ q₁
    refine ((spells_furtherIdents c₁ (q₁.proper hc)).after q₁ fun names _ =>
      ⟨name :: names, trivial, List.prefix_rfl⟩).andThen ?_
    exact fun names c₂ h₂ ⟨q₂, _⟩ => ⟨q₂, trivial⟩
  · exact ⟨.refl c, trivial⟩
termination_by c.remaining

theorem spells_declaration (c : Cursor) (hc : c.Proper) :
    c.Spells Declaration.words (fun d => d.names ≠ []) c.declaration := by
  rw [declaration]
  refine (ends_ident (.refl c) ⟨⟨[⟨"", .nowhere⟩], .int, .nowhere⟩, List.cons_ne_nil _ _,
    List.nil_prefix⟩).andThen ?_
  intro first c₁ h₁ q₁
  refine ((spells_furtherIdents c₁ (q₁.proper hc)).after q₁ fun names _ =>
    ⟨⟨first :: names, .int, .nowhere⟩, List.cons_ne_nil _ _,
      by simp [Declaration.words, identsWords]⟩).andThen ?_
  rintro names c₂ h₂ ⟨q₂, -⟩
  refine (ends_expectNoting .colon hc q₂ rfl ⟨⟨first :: names, .int, .nowhere⟩,
    List.cons_ne_nil _ _, by simp [Declaration.words, identsWords]⟩).andThen ?_
  intro _ c₃ h₃ q₃
  refine (ends_numType hc q₃ ⟨⟨first :: names, .int, .nowhere⟩,
    List.cons_ne_nil _ _, by simp [Declaration.words, identsWords]⟩).andThen ?_
  intro type c₄ h₄ q₄
  refine (ends_expect .semicolon hc q₄ rfl ⟨⟨first :: names, type, .nowhere⟩,
    List.cons_ne_nil _ _, List.prefix_append ..⟩).andThen ?_
  exact fun _ c₅ h₅ q₅ => ⟨q₅, List.cons_ne_nil _ _⟩

theorem spells_declarations (c : Cursor) (hc : c.Proper) :
    c.Spells declarationsWords (fun ds => ∀ d ∈ ds, d.names ≠ []) c.declarations := by
  rw [declarations]
  split
  · refine ((spells_declaration c hc).after (.refl c) fun d hd =>
      ⟨[d], by simpa using hd, by simp [declarationsWords]⟩).andThen ?_
    rintro first c₁ h₁ ⟨q₁, hf⟩
    refine ((spells_declarations c₁ (q₁.proper hc)).after q₁ fun ds hds =>
      ⟨first :: ds, by simpa using ⟨hf, hds⟩, List.prefix_rfl⟩).andThen ?_
    exact fun rest c₂ h₂ ⟨q₂, hr⟩ => ⟨q₂, by simpa using ⟨hf, hr⟩⟩
  · exact ⟨.refl c, by simp⟩
termination_by c.remaining

/-- A program is read up to the end. -/
theorem ends_program (c : Cursor) (hc : c.Proper) :
    c.program.Ends (fun p c' => c.Passes p.words c' ∧ c'.ahead = [] ∧ p.Grammatical)
      (c.Fails (Begins Program.words Program.Grammatical)) := by
  rw [program]
  refine ((spells_declarations c hc).after (.refl c) fun ds hds =>
    ⟨⟨ds, ⟨[], .nowhere⟩⟩, ⟨hds, trivial⟩, List.prefix_append ..⟩).andThen ?_
  rintro declarations c₁ h₁ ⟨q₁, hd⟩
  refine ((spells_block c₁ (q₁.proper hc)).after q₁ fun b hb =>
    ⟨⟨declarations, b⟩, ⟨hd, hb⟩, List.prefix_rfl⟩).andThen ?_
  rintro body c₂ h₂ ⟨q₂, hb⟩
  unfold demand
  split
  · rename_i h
    have hnil := (q₂.proper hc).ahead_eq_nil h
    show c.Passes _ c₂.next ∧ c₂.next.ahead = [] ∧ _
    rw [next_of_ahead_eq_nil hnil]
    exact ⟨q₂, hnil, hd, hb⟩
  · exact fails_here q₂ rfl rfl ⟨⟨declarations, body⟩, ⟨hd, hb⟩, List.prefix_rfl⟩

end Cursor

/-- The tokens of a text from which a program is read are the words of that program, which is grammatical,
and the end. -/
theorem Program.map_word_eq_words {source file file' : String} {ts : List Token} {p : Program}
    (ht : tokenize source file = .ok ts) (hp : Program.ofTokens ts file' = .ok p) :
    ts.map Token.word = p.words ++ [Kind.eof.word] ∧ p.Grammatical := by
  obtain ⟨init, mark, rfl, hproper⟩ := proper_of_tokenize ht
  rw [ofTokens, Cursor.ofTokens_concat init rfl] at hp
  have hc : (⟨[], init, ⟨"EOF", ⟨mark, mark⟩⟩⟩ : Cursor).Proper := hproper
  obtain ⟨c, q, hnil, hg⟩ := (Cursor.ends_program _ hc).of_result_eq_ok hp
  refine ⟨?_, hg⟩
  obtain ⟨passed, hahead, hwords⟩ := q.ahead
  rw [hnil, List.append_nil] at hahead
  subst hahead
  rw [List.map_append, hwords]
  rfl

/-- Here an "else" follows a loop, and belongs to the "if" before it. -/
def approach : String :=
  "i, n: int; \x7b if (i < n) while (!(i == n)) i = i + 1; " ++
    "else switch (i) \x7b case 2: default: \x7d \x7d"

theorem Program.map_word_approach :
    ∃ ts p, tokenize approach "approach.ou" = .ok ts ∧ Program.ofTokens ts "approach.ou" = .ok p ∧
      ts.map Token.word = p.words ++ [Kind.eof.word] ∧ p.Grammatical := by
  have hparses : ((tokenize approach "approach.ou").toOption.bind fun ts =>
      (Program.ofTokens ts "approach.ou").toOption).isSome = true := by decide +kernel
  cases ht : tokenize approach "approach.ou" with
  | error error => rw [ht] at hparses; cases hparses
  | ok ts =>
    cases hp : Program.ofTokens ts "approach.ou" with
    | error error => simp [ht, hp, Except.toOption] at hparses
    | ok p => exact ⟨ts, p, rfl, hp, map_word_eq_words ht hp⟩

end Cpl
