import Cpl.Proofs.Grammar.Soundness

/-!
# What the grammar accepts

From the words of a grammatical tree the grammar reads that tree again, up to places. The rules for
chains and for statements look one token further than the tree goes, so what may follow is a hypothesis of
each lemma; for a chain it is put off to the rule that goes on after the part that has been read.

The main statement, `Program.ofTokens_of_words`, is about a whole program.
-/

namespace Cpl

open Reading Cursor

/-! ## Readings that succeed -/

namespace Reading

variable {α β : Type} {m n : Nat} {r : Reading α m} {right : α → Cursor → Prop}

/-- The reading ends well, with a value and a cursor as `right` says. -/
def Succeeds (r : Reading α m) (right : α → Cursor → Prop) : Prop :=
  r.Ends right fun _ _ => False

theorem Succeeds.weaken (h : r.Succeeds right) (hn : m ≤ n) : (r.weaken hn).Succeeds right :=
  Ends.weaken h hn

theorem Succeeds.andThen {right' : β → Cursor → Prop}
    {f : (value : α) → (c : Cursor) → c.remaining < m → Reading β n} (h : r.Succeeds right)
    (hf : ∀ value c hc, right value c → (f value c hc).Succeeds right') :
    (r.andThen f).Succeeds right' :=
  Ends.andThen h hf

theorem Succeeds.imp {right' : α → Cursor → Prop} (h : r.Succeeds right)
    (hr : ∀ value c, right value c → right' value c) : r.Succeeds right' :=
  Ends.imp h hr fun _ _ hw => hw

theorem Succeeds.result_eq_ok (h : r.Succeeds right) : ∃ x c, r.result = .ok x ∧ right x c := by
  cases r with
  | done value c hc => exact ⟨value, c, rfl, h⟩
  | failed error c => exact h.elim

end Reading

/-- The kind of the first word. -/
def headKind : List Word → Kind
  | [] => .eof
  | w :: _ => w.kind

namespace Cursor

variable {c : Cursor} {w : Word} {rest : List Word}

theorem kind_of_words (h : c.words = rest) : c.kind = headKind rest := by
  obtain ⟨tail, hc⟩ := c.words_eq_cons
  rw [← h, hc]
  rfl

theorem word_of_words (h : c.words = w :: rest) : c.token.word = w := by
  obtain ⟨tail, hc⟩ := c.words_eq_cons
  rw [hc] at h
  exact (List.cons.inj h).1

theorem words_next (h : c.words = w :: rest) (hw : w.kind ≠ .eof) : c.next.words = rest := by
  have hk : c.kind ≠ .eof := kind_of_words h ▸ hw
  have hc := (Passes.next hk).words_eq
  rw [h] at hc
  exact (List.cons.inj hc).2.symm

theorem succeeds_take {k : Kind} {v : String} {error : Diagnostic} {hk : k.IsWritten}
    (h : c.words = ⟨k, v⟩ :: rest) :
    (c.take k error hk).Succeeds fun t c' => t.value = v ∧ c'.words = rest := by
  have hkind : c.kind = k := kind_of_words h
  unfold take
  rw [dif_pos hkind]
  exact ⟨congrArg Word.value (word_of_words h), words_next h hk.ne_eof⟩

theorem succeeds_expect {k : Kind} {hk : k.IsWritten} (h : c.words = k.word :: rest) :
    (c.expect k hk).Succeeds fun _ c' => c'.words = rest :=
  (succeeds_take h).imp fun _ _ h' => h'.2

theorem succeeds_expectNoting {k : Kind} {message : String} {hk : k.IsWritten}
    (h : c.words = k.word :: rest) :
    (c.expectNoting k message hk).Succeeds fun _ c' => c'.words = rest :=
  (succeeds_take h).imp fun _ _ h' => h'.2

end Cursor

/-! ## Expressions -/

namespace Kind

theorem isMultiplicative_of_isAdditive {k : Kind} (h : k.isAdditive = true) :
    k.isMultiplicative = false := by
  revert h
  cases k <;> decide

/-- An expression does not go on with a token of this kind. -/
def endsExpression (k : Kind) : Bool :=
  !k.isAdditive && !k.isMultiplicative

theorem endsExpression_of_isRelational {k : Kind} (h : k.isRelational = true) :
    k.endsExpression = true := by
  revert h
  cases k <;> decide

end Kind

namespace Cursor

variable {c : Cursor} {rest : List Word}

theorem bare_operator {o : Operator} (h : c.words = o.word :: rest) :
    c.token.operator.bare = o.bare :=
  congrArg (fun w : Word => (⟨w.value, Span.nowhere.start⟩ : Operator)) (word_of_words h)

theorem bare_ident {i : Ident} (h : c.words = i.word :: rest) : c.token.ident.bare = i.bare :=
  congrArg (fun w : Word => (⟨w.value, .nowhere⟩ : Ident)) (word_of_words h)

theorem castType_of_words {type : NumType} (h : c.words = type.castWord :: rest) :
    c.token.castType = .ok type := by
  have hv : c.token.value = type.castWord.value := congrArg Word.value (word_of_words h)
  unfold Token.castType
  rw [hv]
  cases type <;> rfl

end Cursor

/-- From the words of the expression its rule reads it, and goes on after it. -/
def Expression.Readable (e : Expression) : Prop :=
  ∀ (c : Cursor) (rest : List Word) (right : Expression → Cursor → Prop),
    c.words = e.words ++ rest → (headKind rest).isMultiplicative = false →
    (∀ (e' : Expression) (c' : Cursor), e'.bare = e.bare → c'.words = rest →
      (c'.expressionAfter e').Succeeds right) →
    c.expression.Succeeds right

@[inherit_doc Expression.Readable]
def Term.Readable (t : Term) : Prop :=
  ∀ (c : Cursor) (rest : List Word) (right : Term → Cursor → Prop), c.words = t.words ++ rest →
    (∀ (t' : Term) (c' : Cursor), t'.bare = t.bare → c'.words = rest →
      (c'.termAfter t').Succeeds right) →
    c.term.Succeeds right

/-- From the words of the factor its rule reads it. -/
def Factor.Readable (f : Factor) : Prop :=
  ∀ (c : Cursor) (rest : List Word), c.words = f.words ++ rest →
    c.factor.Succeeds fun f' c' => f'.bare = f.bare ∧ c'.words = rest

theorem Expression.Readable.succeeds {e : Expression} (he : e.Readable) {c : Cursor}
    {rest : List Word} (hw : c.words = e.words ++ rest)
    (hrest : (headKind rest).endsExpression = true) :
    c.expression.Succeeds fun e' c' => e'.bare = e.bare ∧ c'.words = rest := by
  simp only [Kind.endsExpression, Bool.and_eq_true, Bool.not_eq_true'] at hrest
  refine he c rest _ hw hrest.2 fun e' c' hb hw' => ?_
  have hk : c'.kind.isAdditive = false := kind_of_words hw' ▸ hrest.1
  rw [Cursor.expressionAfter, dif_neg (by simp [hk])]
  exact ⟨hb, hw'⟩

theorem Term.Readable.succeeds {t : Term} (ht : t.Readable) {c : Cursor} {rest : List Word}
    (hw : c.words = t.words ++ rest) (hrest : (headKind rest).isMultiplicative = false) :
    c.term.Succeeds fun t' c' => t'.bare = t.bare ∧ c'.words = rest := by
  refine ht c rest _ hw fun t' c' hb hw' => ?_
  have hk : c'.kind.isMultiplicative = false := kind_of_words hw' ▸ hrest
  rw [Cursor.termAfter, dif_neg (by simp [hk])]
  exact ⟨hb, hw'⟩

mutual

theorem Expression.readable (e : Expression) (he : e.Grammatical) : e.Readable := by
  intro c rest right hw hrest hnext
  cases e with
  | term t =>
    rw [Cursor.expression]
    refine ((t.readable he).succeeds hw hrest).andThen ?_
    rintro t' c₁ h₁ ⟨hb, hw₁⟩
    exact (hnext (.term t') c₁ (congrArg Expression.term hb) hw₁).weaken h₁
  | chain left operator last =>
    obtain ⟨hl, ho, hr⟩ := he
    rw [← Operator.isAdditive_iff] at ho
    rw [Expression.words, List.append_assoc, List.append_assoc] at hw
    -- the left part is read first, and then its rule goes on at the operator
    refine left.readable hl c _ right hw (Kind.isMultiplicative_of_isAdditive ho) ?_
    intro left' c₁ hb₁ hw₁
    have hk : c₁.kind.isAdditive = true := kind_of_words hw₁ ▸ ho
    have hw₂ := words_next hw₁ (Kind.ne_eof_of_isAdditive ho)
    rw [Cursor.expressionAfter, dif_pos hk]
    refine ((last.readable hr).succeeds hw₂ hrest).andThen ?_
    rintro last' c₂ h₂ ⟨hb₂, hw₃⟩
    refine (hnext (.chain left' c₁.token.operator last') c₂ ?_ hw₃).weaken _
    rw [Expression.bare, Expression.bare, hb₁, bare_operator hw₁, hb₂]

theorem Term.readable (t : Term) (ht : t.Grammatical) : t.Readable := by
  intro c rest right hw hnext
  cases t with
  | factor f =>
    rw [Cursor.term]
    refine (f.readable ht c rest hw).andThen ?_
    rintro f' c₁ h₁ ⟨hb, hw₁⟩
    exact (hnext (.factor f') c₁ (congrArg Term.factor hb) hw₁).weaken h₁
  | chain left operator last =>
    obtain ⟨hl, ho, hr⟩ := ht
    rw [← Operator.isMultiplicative_iff] at ho
    rw [Term.words, List.append_assoc, List.append_assoc] at hw
    refine left.readable hl c _ right hw ?_
    intro left' c₁ hb₁ hw₁
    have hk : c₁.kind.isMultiplicative = true := kind_of_words hw₁ ▸ ho
    have hw₂ := words_next hw₁ (Kind.ne_eof_of_isMultiplicative ho)
    rw [Cursor.termAfter, dif_pos hk]
    refine (last.readable hr c₁.next rest hw₂).andThen ?_
    rintro last' c₂ h₂ ⟨hb₂, hw₃⟩
    refine (hnext (.chain left' c₁.token.operator last') c₂ ?_ hw₃).weaken _
    rw [Term.bare, Term.bare, hb₁, bare_operator hw₁, hb₂]

theorem Factor.readable (f : Factor) (hf : f.Grammatical) : f.Readable := by
  intro c rest hw
  cases f with
  | name ident =>
    rw [factor_identifier (kind_of_words hw)]
    exact ⟨congrArg Factor.name (bare_ident hw), words_next hw Kind.noConfusion⟩
  | literal literal =>
    have hv : c.token.value = literal.text := congrArg Word.value (word_of_words hw)
    rw [factor_number (kind_of_words hw), hv]
    exact ⟨rfl, words_next hw Kind.noConfusion⟩
  | parens inner span =>
    simp only [Factor.words, List.append_assoc, List.cons_append, List.nil_append] at hw
    rw [factor_openParen (kind_of_words hw)]
    refine ((inner.readable hf).succeeds (words_next hw Kind.noConfusion) rfl).andThen ?_
    rintro inner' c₁ h₁ ⟨hb, hw₁⟩
    refine (succeeds_expect hw₁).andThen ?_
    intro _ c₂ h₂ hw₂
    exact ⟨congrArg (Factor.parens · .nowhere) hb, hw₂⟩
  | cast type inner span =>
    simp only [Factor.words, List.append_assoc, List.cons_append, List.nil_append] at hw
    have hk : c.kind = .cast := by
      rw [kind_of_words hw]
      cases type <;> rfl
    have hne : type.castWord.kind ≠ .eof := by cases type <;> exact Kind.noConfusion
    rw [factor_cast hk (castType_of_words hw)]
    refine (succeeds_expect (words_next hw hne)).andThen ?_
    intro _ c₁ h₁ hw₁
    refine ((inner.readable hf).succeeds hw₁ rfl).andThen ?_
    rintro inner' c₂ h₂ ⟨hb, hw₂⟩
    refine (succeeds_expect hw₂).andThen ?_
    intro _ c₃ h₃ hw₃
    exact ⟨congrArg (Factor.cast type · .nowhere) hb, hw₃⟩

end

/-! ## Conditions -/

namespace Kind

/-- An expression starts with a token of this kind. -/
def startsExpression : Kind → Bool
  | identifier | number | openParen | cast => true
  | _ => false

theorem ne_not_of_startsExpression {k : Kind} (h : k.startsExpression = true) : k ≠ .not := by
  rintro rfl
  cases h

end Kind

mutual

theorem Expression.startsExpression_words (e : Expression) (rest : List Word) :
    (headKind (e.words ++ rest)).startsExpression = true := by
  cases e with
  | term t => exact t.startsExpression_words rest
  | chain left operator last =>
    rw [Expression.words, List.append_assoc, List.append_assoc]
    exact left.startsExpression_words _

theorem Term.startsExpression_words (t : Term) (rest : List Word) :
    (headKind (t.words ++ rest)).startsExpression = true := by
  cases t with
  | factor f => cases f with
    | name | literal | parens => rfl
    | cast type => cases type <;> rfl
  | chain left operator last =>
    rw [Term.words, List.append_assoc, List.append_assoc]
    exact left.startsExpression_words _

end

@[inherit_doc Expression.Readable]
def Condition.Readable (d : Condition) : Prop :=
  ∀ (c : Cursor) (rest : List Word) (right : Condition → Cursor → Prop),
    c.words = d.words ++ rest → (headKind rest).endsExpression = true → headKind rest ≠ .and →
    (∀ (d' : Condition) (c' : Cursor), d'.bare = d.bare → c'.words = rest →
      (c'.conditionAfter d').Succeeds right) →
    c.condition.Succeeds right

@[inherit_doc Expression.Readable]
def Clause.Readable (l : Clause) : Prop :=
  ∀ (c : Cursor) (rest : List Word) (right : Clause → Cursor → Prop),
    c.words = l.words ++ rest → (headKind rest).endsExpression = true →
    (∀ (l' : Clause) (c' : Cursor), l'.bare = l.bare → c'.words = rest →
      (c'.clauseAfter l').Succeeds right) →
    c.clause.Succeeds right

/-- From the words of the test its rule reads it. -/
def Test.Readable (t : Test) : Prop :=
  ∀ (c : Cursor) (rest : List Word), c.words = t.words ++ rest →
    (headKind rest).endsExpression = true →
    c.test.Succeeds fun t' c' => t'.bare = t.bare ∧ c'.words = rest

/-- A condition always stands in parentheses. -/
theorem Condition.Readable.succeeds {d : Condition} (hd : d.Readable) {c : Cursor}
    {rest : List Word} (hw : c.words = d.words ++ Kind.closeParen.word :: rest) :
    c.condition.Succeeds fun d' c' => d'.bare = d.bare ∧ c'.words = Kind.closeParen.word :: rest := by
  refine hd c _ _ hw rfl Kind.noConfusion fun d' c' hb hw' => ?_
  have hk : c'.kind ≠ .or := kind_of_words hw' ▸ Kind.noConfusion
  rw [Cursor.conditionAfter, dif_neg hk]
  exact ⟨hb, hw'⟩

theorem Clause.Readable.succeeds {l : Clause} (hl : l.Readable) {c : Cursor} {rest : List Word}
    (hw : c.words = l.words ++ rest) (hrest : (headKind rest).endsExpression = true)
    (hand : headKind rest ≠ .and) :
    c.clause.Succeeds fun l' c' => l'.bare = l.bare ∧ c'.words = rest := by
  refine hl c rest _ hw hrest fun l' c' hb hw' => ?_
  have hk : c'.kind ≠ .and := kind_of_words hw' ▸ hand
  rw [Cursor.clauseAfter, dif_neg hk]
  exact ⟨hb, hw'⟩

mutual

theorem Condition.readable (d : Condition) (hd : d.Grammatical) : d.Readable := by
  intro c rest right hw hrest hand hnext
  cases d with
  | clause l =>
    rw [Cursor.condition]
    refine ((l.readable hd).succeeds hw hrest hand).andThen ?_
    rintro l' c₁ h₁ ⟨hb, hw₁⟩
    exact (hnext (.clause l') c₁ (congrArg Condition.clause hb) hw₁).weaken h₁
  | or left last =>
    obtain ⟨hl, hr⟩ := hd
    rw [Condition.words, List.append_assoc, List.append_assoc] at hw
    refine left.readable hl c _ right hw rfl Kind.noConfusion ?_
    intro left' c₁ hb₁ hw₁
    have hk : c₁.kind = .or := kind_of_words hw₁
    rw [Cursor.conditionAfter, dif_pos hk]
    refine ((last.readable hr).succeeds (words_next hw₁ Kind.noConfusion) hrest hand).andThen ?_
    rintro last' c₂ h₂ ⟨hb₂, hw₂⟩
    refine (hnext (.or left' last') c₂ ?_ hw₂).weaken _
    rw [Condition.bare, Condition.bare, hb₁, hb₂]

theorem Clause.readable (l : Clause) (hl : l.Grammatical) : l.Readable := by
  intro c rest right hw hrest hnext
  cases l with
  | test t =>
    rw [Cursor.clause]
    refine (t.readable hl c rest hw hrest).andThen ?_
    rintro t' c₁ h₁ ⟨hb, hw₁⟩
    exact (hnext (.test t') c₁ (congrArg Clause.test hb) hw₁).weaken h₁
  | and left last =>
    obtain ⟨hl, hr⟩ := hl
    rw [Clause.words, List.append_assoc, List.append_assoc] at hw
    refine left.readable hl c _ right hw rfl ?_
    intro left' c₁ hb₁ hw₁
    have hk : c₁.kind = .and := kind_of_words hw₁
    rw [Cursor.clauseAfter, dif_pos hk]
    refine (last.readable hr c₁.next rest (words_next hw₁ Kind.noConfusion) hrest).andThen ?_
    rintro last' c₂ h₂ ⟨hb₂, hw₂⟩
    refine (hnext (.and left' last') c₂ ?_ hw₂).weaken _
    rw [Clause.bare, Clause.bare, hb₁, hb₂]

theorem Test.readable (t : Test) (ht : t.Grammatical) : t.Readable := by
  intro c rest hw hrest
  cases t with
  | compare left operator right =>
    obtain ⟨hl, ho, hr⟩ := ht
    rw [← Operator.isRelational_iff] at ho
    rw [Test.words, List.append_assoc, List.append_assoc] at hw
    have hk : c.kind ≠ .not :=
      Kind.ne_not_of_startsExpression (kind_of_words hw ▸ left.startsExpression_words _)
    rw [Cursor.test, dif_neg hk]
    refine ((left.readable hl).succeeds hw (Kind.endsExpression_of_isRelational ho)).andThen ?_
    rintro left' c₁ h₁ ⟨hb₁, hw₁⟩
    have hk₁ : c₁.kind.isRelational = true := kind_of_words hw₁ ▸ ho
    have hw₂ := words_next hw₁ (Kind.ne_eof_of_isRelational ho)
    rw [dif_pos hk₁]
    refine ((right.readable hr).succeeds hw₂ hrest).andThen ?_
    rintro right' c₂ h₂ ⟨hb₂, hw₃⟩
    refine ⟨?_, hw₃⟩
    rw [Test.bare, Test.bare, hb₁, bare_operator hw₁, hb₂]
  | not inner span =>
    simp only [Test.words, List.append_assoc, List.cons_append, List.nil_append] at hw
    have hk : c.kind = .not := kind_of_words hw
    rw [Cursor.test, dif_pos hk]
    refine (succeeds_expectNoting (words_next hw Kind.noConfusion)).andThen ?_
    intro _ c₁ h₁ hw₁
    refine ((inner.readable ht).succeeds hw₁).andThen ?_
    rintro inner' c₂ h₂ ⟨hb, hw₂⟩
    refine (succeeds_expect hw₂).andThen ?_
    intro _ c₃ h₃ hw₃
    exact ⟨congrArg (Test.not · .nowhere) hb, hw₃⟩

end

/-! ## Statements -/

namespace Form

theorem standard_firstKind (form : Form) :
    FormTable.standard form.firstKind = some (.form form) := by
  cases form <;> rfl

theorem endsStatements_firstKind (form : Form) : endsStatements form.firstKind = false := by
  cases form <;> rfl

theorem firstKind_ne_kwElse (form : Form) : form.firstKind ≠ .kwElse := by
  cases form <;> exact Kind.noConfusion

end Form

theorem Cursor.statement_of_kind {c : Cursor} {form : Form} (h : c.kind = form.firstKind) :
    c.statement .standard = c.formed .standard form := by
  rw [statement, h, form.standard_firstKind]

/-- The form of the words of a statement. -/
def Statement.form : Statement → Form
  | .assign _ _ _ => .assignment
  | .input _ _ => .input
  | .output _ _ => .output
  | .ifThen _ _ _ => .conditional
  | .ifElse _ _ _ _ => .conditional
  | .loop _ _ _ => .loop
  | .switch _ _ _ _ => .choice
  | .leave _ => .leave
  | .block _ => .block

theorem Statement.headKind_words (s : Statement) (rest : List Word) :
    headKind (s.words ++ rest) = s.form.firstKind := by
  cases s <;> rfl

/-- No "else" follows where a list of statements starts, since none starts with it and none ends before
it. -/
theorem headKind_statementsWords_ne (ss : List Statement) {rest : List Word}
    (hrest : endsStatements (headKind rest) = true) :
    headKind (statementsWords ss ++ rest) ≠ .kwElse := by
  cases ss with
  | nil =>
    intro h
    rw [statementsWords, List.nil_append] at h
    rw [h] at hrest
    cases hrest
  | cons first ss =>
    rw [statementsWords, List.append_assoc, first.headKind_words]
    exact first.form.firstKind_ne_kwElse

theorem endsStatements_casesWords (arms : List Case) (rest : List Word) :
    endsStatements (headKind (casesWords arms ++ Kind.kwDefault.word :: rest)) = true := by
  cases arms with
  | nil => rfl
  | cons arm arms =>
    obtain ⟨label, body, span⟩ := arm
    rfl

theorem succeeds_ident {c : Cursor} {i : Ident} {rest : List Word} (h : c.words = i.word :: rest) :
    c.ident.Succeeds fun i' c' => i'.bare = i.bare ∧ c'.words = rest := by
  refine (succeeds_take h).andThen ?_
  rintro t c₁ h₁ ⟨hv, hw⟩
  exact ⟨congrArg (Ident.mk · .nowhere) hv, hw⟩

theorem succeeds_caseLabel {c : Cursor} {label : Literal} {rest : List Word}
    (hl : '.' ∉ label.text.toList) (h : c.words = label.word :: Kind.colon.word :: rest) :
    c.caseLabel.Succeeds fun label' c' => label' = label ∧ c'.words = rest := by
  refine (succeeds_take h).andThen ?_
  rintro t c₁ h₁ ⟨hv, hw₁⟩
  have htype : (⟨t.value⟩ : Literal).type = .int := Literal.type_eq_int_iff.mpr (hv ▸ hl)
  dsimp only
  rw [if_pos htype]
  refine (succeeds_expect hw₁).andThen ?_
  intro _ c₂ h₂ hw₂
  exact ⟨congrArg Literal.mk hv, hw₂⟩

/-- From the words of the statement its rule reads it, unless an "else" follows to which it would
belong. -/
def Statement.Readable (s : Statement) : Prop :=
  ∀ (c : Cursor) (rest : List Word), c.words = s.words ++ rest →
    (s.endsOpen = true → headKind rest ≠ .kwElse) →
    (c.statement .standard).Succeeds fun s' c' => s'.bare = s.bare ∧ c'.words = rest

/-- From the words of the statements their rule reads them, up to a token that ends their list. -/
def StatementsReadable (ss : List Statement) : Prop :=
  ∀ (c : Cursor) (rest : List Word), c.words = statementsWords ss ++ rest →
    endsStatements (headKind rest) = true →
    (c.statements .standard).Succeeds fun ss' c' =>
      bareStatements ss' = bareStatements ss ∧ c'.words = rest

theorem StatementsReadable.succeeds_block {b : Block} (h : StatementsReadable b.body) {c : Cursor}
    {rest : List Word} (hw : c.words = b.words ++ rest) :
    (c.block .standard).Succeeds fun b' c' => b'.bare = b.bare ∧ c'.words = rest := by
  obtain ⟨body, span⟩ := b
  simp only [Block.words, Block.inside, List.append_assoc, List.cons_append, List.nil_append] at hw
  rw [Cursor.block]
  refine (succeeds_expectNoting hw).andThen ?_
  intro _ c₁ h₁ hw₁
  refine (h c₁ _ hw₁ rfl).andThen ?_
  rintro body' c₂ h₂ ⟨hb, hw₂⟩
  refine (succeeds_expectNoting hw₂).andThen ?_
  intro _ c₃ h₃ hw₃
  exact ⟨congrArg (Block.mk · .nowhere) hb, hw₃⟩

mutual

theorem Statement.readable (s : Statement) (hs : s.Grammatical) : s.Readable := by
  intro c rest hw hopen
  rw [statement_of_kind ((kind_of_words hw).trans (s.headKind_words rest))]
  cases s with
  | assign target value span =>
    simp only [Statement.words, List.append_assoc, List.cons_append, List.nil_append] at hw
    rw [Statement.form, formed, assignment]
    refine (succeeds_ident hw).andThen ?_
    rintro target' c₁ h₁ ⟨hb₁, hw₁⟩
    refine (succeeds_expectNoting hw₁).andThen ?_
    intro _ c₂ h₂ hw₂
    refine ((value.readable hs).succeeds hw₂ rfl).andThen ?_
    rintro value' c₃ h₃ ⟨hb₃, hw₃⟩
    refine (succeeds_expect hw₃).andThen ?_
    intro _ c₄ h₄ hw₄
    refine ⟨?_, hw₄⟩
    rw [Statement.bare, Statement.bare, hb₁, hb₃]
  | input target span =>
    simp only [Statement.words, List.cons_append, List.nil_append] at hw
    rw [Statement.form, formed, Cursor.input]
    refine (succeeds_expect (words_next hw Kind.noConfusion)).andThen ?_
    intro _ c₁ h₁ hw₁
    refine (succeeds_ident hw₁).andThen ?_
    rintro target' c₂ h₂ ⟨hb, hw₂⟩
    refine (succeeds_expect hw₂).andThen ?_
    intro _ c₃ h₃ hw₃
    refine (succeeds_expect hw₃).andThen ?_
    intro _ c₄ h₄ hw₄
    exact ⟨congrArg (Statement.input · .nowhere) hb, hw₄⟩
  | output value span =>
    simp only [Statement.words, List.append_assoc, List.cons_append, List.nil_append] at hw
    rw [Statement.form, formed, Cursor.output]
    refine (succeeds_expect (words_next hw Kind.noConfusion)).andThen ?_
    intro _ c₁ h₁ hw₁
    refine ((value.readable hs).succeeds hw₁ rfl).andThen ?_
    rintro value' c₂ h₂ ⟨hb, hw₂⟩
    refine (succeeds_expect hw₂).andThen ?_
    intro _ c₃ h₃ hw₃
    refine (succeeds_expect hw₃).andThen ?_
    intro _ c₄ h₄ hw₄
    exact ⟨congrArg (Statement.output · .nowhere) hb, hw₄⟩
  | ifThen condition body span =>
    simp only [Statement.words, List.append_assoc, List.cons_append, List.nil_append] at hw
    rw [Statement.form, formed, conditional]
    refine (succeeds_expect (words_next hw Kind.noConfusion)).andThen ?_
    intro _ c₁ h₁ hw₁
    refine ((condition.readable hs.1).succeeds hw₁).andThen ?_
    rintro condition' c₂ h₂ ⟨hb₂, hw₂⟩
    refine (succeeds_expect hw₂).andThen ?_
    intro _ c₃ h₃ hw₃
    refine (body.readable hs.2 c₃ rest hw₃ fun _ => hopen rfl).andThen ?_
    rintro body' c₄ h₄ ⟨hb₄, hw₄⟩
    rw [dif_neg (kind_of_words hw₄ ▸ hopen rfl)]
    refine ⟨?_, hw₄⟩
    rw [Statement.bare, Statement.bare, hb₂, hb₄]
  | ifElse condition body other span =>
    obtain ⟨hcond, hbody, hclosed, hother⟩ := hs
    simp only [Statement.words, List.append_assoc, List.cons_append, List.nil_append] at hw
    rw [Statement.form, formed, conditional]
    refine (succeeds_expect (words_next hw Kind.noConfusion)).andThen ?_
    intro _ c₁ h₁ hw₁
    refine ((condition.readable hcond).succeeds hw₁).andThen ?_
    rintro condition' c₂ h₂ ⟨hb₂, hw₂⟩
    refine (succeeds_expect hw₂).andThen ?_
    intro _ c₃ h₃ hw₃
    refine (body.readable hbody c₃ _ hw₃ fun ho => by rw [hclosed] at ho; cases ho).andThen ?_
    rintro body' c₄ h₄ ⟨hb₄, hw₄⟩
    have hk : c₄.kind = .kwElse := kind_of_words hw₄
    rw [dif_pos hk]
    refine (other.readable hother c₄.next rest (words_next hw₄ Kind.noConfusion) hopen).andThen ?_
    rintro other' c₅ h₅ ⟨hb₅, hw₅⟩
    refine ⟨?_, hw₅⟩
    rw [Statement.bare, Statement.bare, hb₂, hb₄, hb₅]
  | loop condition body span =>
    simp only [Statement.words, List.append_assoc, List.cons_append, List.nil_append] at hw
    rw [Statement.form, formed, Cursor.loop]
    refine (succeeds_expect (words_next hw Kind.noConfusion)).andThen ?_
    intro _ c₁ h₁ hw₁
    refine ((condition.readable hs.1).succeeds hw₁).andThen ?_
    rintro condition' c₂ h₂ ⟨hb₂, hw₂⟩
    refine (succeeds_expect hw₂).andThen ?_
    intro _ c₃ h₃ hw₃
    refine (body.readable hs.2 c₃ rest hw₃ hopen).andThen ?_
    rintro body' c₄ h₄ ⟨hb₄, hw₄⟩
    refine ⟨?_, hw₄⟩
    rw [Statement.bare, Statement.bare, hb₂, hb₄]
  | switch selector arms default span =>
    obtain ⟨body, inner⟩ := default
    obtain ⟨hsel, harms, hbody⟩ := hs
    simp only [Statement.words, Block.inside, List.append_assoc, List.cons_append,
      List.nil_append] at hw
    rw [Statement.form, formed, choice]
    refine (succeeds_expect (words_next hw Kind.noConfusion)).andThen ?_
    intro _ c₁ h₁ hw₁
    refine ((selector.readable hsel).succeeds hw₁ rfl).andThen ?_
    rintro selector' c₂ h₂ ⟨hb₂, hw₂⟩
    refine (succeeds_expect hw₂).andThen ?_
    intro _ c₃ h₃ hw₃
    refine (succeeds_expect hw₃).andThen ?_
    intro _ c₄ h₄ hw₄
    refine (cases_readable arms harms c₄ _ hw₄).andThen ?_
    rintro arms' c₅ h₅ ⟨hb₅, hw₅⟩
    refine (succeeds_expectNoting hw₅).andThen ?_
    intro _ c₆ h₆ hw₆
    refine (succeeds_expect hw₆).andThen ?_
    intro _ c₇ h₇ hw₇
    refine (statements_readable body hbody c₇ _ hw₇ rfl).andThen ?_
    rintro body' c₈ h₈ ⟨hb₈, hw₈⟩
    refine (succeeds_expect hw₈).andThen ?_
    intro _ c₉ h₉ hw₉
    refine ⟨?_, hw₉⟩
    rw [Statement.bare, Statement.bare, Block.bare, Block.bare, hb₂, hb₅, hb₈]
  | leave span =>
    simp only [Statement.words, List.cons_append, List.nil_append] at hw
    rw [Statement.form, formed, Cursor.leave]
    refine (succeeds_expect (words_next hw Kind.noConfusion)).andThen ?_
    intro _ c₁ h₁ hw₁
    exact ⟨rfl, hw₁⟩
  | block block =>
    obtain ⟨body, span⟩ := block
    rw [Statement.form, formed]
    refine ((statements_readable body hs).succeeds_block hw).andThen ?_
    rintro block' c₁ h₁ ⟨hb, hw₁⟩
    exact ⟨congrArg Statement.block hb, hw₁⟩

theorem statements_readable (ss : List Statement) (hs : statementsGrammatical ss) :
    StatementsReadable ss := by
  intro c rest hw hrest
  cases ss with
  | nil =>
    have hk : endsStatements c.kind = true := kind_of_words hw ▸ hrest
    rw [statements, if_pos hk]
    exact ⟨rfl, hw⟩
  | cons first ss =>
    obtain ⟨hf, hs⟩ := hs
    rw [statementsWords, List.append_assoc] at hw
    have hk : c.kind = first.form.firstKind := (kind_of_words hw).trans (first.headKind_words _)
    rw [statements, hk, first.form.endsStatements_firstKind, if_neg Bool.false_ne_true]
    refine (first.readable hf c _ hw fun _ => headKind_statementsWords_ne ss hrest).andThen ?_
    rintro first' c₁ h₁ ⟨hb₁, hw₁⟩
    refine (statements_readable ss hs c₁ rest hw₁ hrest).andThen ?_
    rintro ss' c₂ h₂ ⟨hb₂, hw₂⟩
    refine ⟨?_, hw₂⟩
    rw [bareStatements, bareStatements, hb₁, hb₂]

theorem cases_readable (arms : List Case) (ha : casesGrammatical arms) (c : Cursor)
    (rest : List Word) (hw : c.words = casesWords arms ++ Kind.kwDefault.word :: rest) :
    (c.cases .standard).Succeeds fun arms' c' =>
      bareCases arms' = bareCases arms ∧ c'.words = Kind.kwDefault.word :: rest := by
  cases arms with
  | nil =>
    have hk : c.kind ≠ .kwCase := kind_of_words hw ▸ Kind.noConfusion
    rw [Cursor.cases, dif_neg hk]
    exact ⟨rfl, hw⟩
  | cons arm arms =>
    obtain ⟨label, ⟨body, inner⟩, span⟩ := arm
    obtain ⟨hl, hbody, ha⟩ := ha
    simp only [casesWords, Block.inside, List.append_assoc, List.cons_append, List.nil_append] at hw
    have hk : c.kind = .kwCase := kind_of_words hw
    rw [Cursor.cases, dif_pos hk]
    refine (succeeds_caseLabel hl (words_next hw Kind.noConfusion)).andThen ?_
    rintro label' c₁ h₁ ⟨rfl, hw₁⟩
    refine (statements_readable body hbody c₁ _ hw₁ (endsStatements_casesWords arms rest)).andThen ?_
    rintro body' c₂ h₂ ⟨hb₂, hw₂⟩
    refine (cases_readable arms ha c₂ rest hw₂).andThen ?_
    rintro arms' c₃ h₃ ⟨hb₃, hw₃⟩
    refine ⟨?_, hw₃⟩
    rw [bareCases, bareCases, Block.bare, Block.bare, hb₂, hb₃]

end

/-! ## Programs -/

theorem succeeds_numType {c : Cursor} {type : NumType} {rest : List Word}
    (h : c.words = type.word :: rest) :
    c.numType.Succeeds fun type' c' => type' = type ∧ c'.words = rest := by
  have hk : c.kind = type.word.kind := kind_of_words h
  have hw : c.next.words = rest := words_next h (by cases type <;> exact Kind.noConfusion)
  rw [numType]
  cases type <;> split <;> grind [Succeeds, Ends, NumType.word, Kind.word]

theorem furtherIdents_readable (names : List Ident) (c : Cursor) (rest : List Word)
    (hw : c.words = furtherWords names ++ rest) (hrest : headKind rest ≠ .comma) :
    c.furtherIdents.Succeeds fun names' c' =>
      names'.map Ident.bare = names.map Ident.bare ∧ c'.words = rest := by
  induction names generalizing c with
  | nil =>
    have hk : c.kind ≠ .comma := kind_of_words hw ▸ hrest
    rw [furtherIdents, dif_neg hk]
    exact ⟨rfl, hw⟩
  | cons name names ih =>
    simp only [furtherWords, List.cons_append, List.nil_append] at hw
    have hk : c.kind = .comma := kind_of_words hw
    rw [furtherIdents, dif_pos hk]
    refine (succeeds_ident (words_next hw Kind.noConfusion)).andThen ?_
    rintro name' c₁ h₁ ⟨hb₁, hw₁⟩
    refine (ih c₁ hw₁).andThen ?_
    rintro names' c₂ h₂ ⟨hb₂, hw₂⟩
    refine ⟨?_, hw₂⟩
    rw [List.map_cons, List.map_cons, hb₁, hb₂]

theorem Declaration.readable (d : Declaration) (hd : d.names ≠ []) (c : Cursor) (rest : List Word)
    (hw : c.words = d.words ++ rest) :
    c.declaration.Succeeds fun d' c' => d'.bare = d.bare ∧ c'.words = rest := by
  obtain ⟨names, type, span⟩ := d
  obtain ⟨first, names, rfl⟩ := List.exists_cons_of_ne_nil hd
  simp only [Declaration.words, identsWords, List.append_assoc, List.cons_append,
    List.nil_append] at hw
  rw [Cursor.declaration]
  refine (succeeds_ident hw).andThen ?_
  rintro first' c₁ h₁ ⟨hb₁, hw₁⟩
  refine (furtherIdents_readable names c₁ _ hw₁ Kind.noConfusion).andThen ?_
  rintro names' c₂ h₂ ⟨hb₂, hw₂⟩
  refine (succeeds_expectNoting hw₂).andThen ?_
  intro _ c₃ h₃ hw₃
  refine (succeeds_numType hw₃).andThen ?_
  rintro type' c₄ h₄ ⟨rfl, hw₄⟩
  refine (succeeds_expect hw₄).andThen ?_
  intro _ c₅ h₅ hw₅
  refine ⟨?_, hw₅⟩
  simp only [Declaration.bare, List.map_cons, hb₁, hb₂]

theorem Declaration.headKind_words (d : Declaration) (hd : d.names ≠ []) (rest : List Word) :
    headKind (d.words ++ rest) = .identifier := by
  obtain ⟨names, type, span⟩ := d
  obtain ⟨first, names, rfl⟩ := List.exists_cons_of_ne_nil hd
  rfl

theorem declarations_readable (ds : List Declaration) (hd : ∀ d ∈ ds, d.names ≠ []) (c : Cursor)
    (rest : List Word) (hw : c.words = declarationsWords ds ++ rest)
    (hrest : headKind rest ≠ .identifier) :
    c.declarations.Succeeds fun ds' c' =>
      ds'.map Declaration.bare = ds.map Declaration.bare ∧ c'.words = rest := by
  induction ds generalizing c with
  | nil =>
    have hk : c.kind ≠ .identifier := kind_of_words hw ▸ hrest
    rw [declarations, if_neg hk]
    exact ⟨rfl, hw⟩
  | cons first ds ih =>
    rw [List.forall_mem_cons] at hd
    rw [declarationsWords, List.append_assoc] at hw
    have hk : c.kind = .identifier := (kind_of_words hw).trans (first.headKind_words hd.1 _)
    rw [declarations, if_pos hk]
    refine (first.readable hd.1 c _ hw).andThen ?_
    rintro first' c₁ h₁ ⟨hb₁, hw₁⟩
    refine (ih hd.2 c₁ hw₁).andThen ?_
    rintro ds' c₂ h₂ ⟨hb₂, hw₂⟩
    refine ⟨?_, hw₂⟩
    rw [List.map_cons, List.map_cons, hb₁, hb₂]

theorem Program.readable (p : Program) (hp : p.Grammatical) (c : Cursor)
    (hw : c.words = p.words ++ [Kind.eof.word]) :
    c.program.Succeeds fun p' _ => p'.bare = p.bare := by
  obtain ⟨declarations, ⟨body, span⟩⟩ := p
  rw [Program.words, List.append_assoc] at hw
  rw [Cursor.program]
  refine (declarations_readable declarations hp.declarations c _ hw Kind.noConfusion).andThen ?_
  rintro declarations' c₁ h₁ ⟨hb₁, hw₁⟩
  refine ((statements_readable body hp.body).succeeds_block hw₁).andThen ?_
  rintro body' c₂ h₂ ⟨hb₂, hw₂⟩
  have hk : c₂.kind = .eof := kind_of_words hw₂
  rw [demand, if_pos hk]
  show Program.bare _ = _
  rw [Program.bare, Program.bare, hb₁, hb₂]

theorem Cursor.words_ofTokens_of_words {ts : List Token} {ws : List Word} (file : String)
    (h : ts.map Token.word = ws ++ [Kind.eof.word]) :
    (ofTokens ts file).words = ws ++ [Kind.eof.word] := by
  obtain ⟨init, last, rfl, -, hlast⟩ := List.map_eq_append_iff.mp h
  obtain ⟨t, rfl, hword⟩ := List.map_eq_singleton_iff.mp hlast
  rw [words_ofTokens_concat init (congrArg Word.kind hword), h]

/-- The word as a token, at no place. -/
def Word.token (w : Word) : Token :=
  ⟨w.kind, w.value, .nowhere⟩

theorem map_word_map_token (ws : List Word) : (ws.map Word.token).map Token.word = ws := by
  rw [List.map_map]
  exact List.map_id ws

/-- The words of a grammatical program and the end are read as that program, up to places. -/
theorem Program.ofTokens_of_words {p : Program} {ts : List Token} (file : String)
    (hp : p.Grammatical) (ht : ts.map Token.word = p.words ++ [Kind.eof.word]) :
    ∃ p', Program.ofTokens ts file = .ok p' ∧ p'.bare = p.bare := by
  obtain ⟨p', -, hok, hb⟩ := (p.readable hp _ (words_ofTokens_of_words file ht)).result_eq_ok
  exact ⟨p', hok, hb⟩

/-- A loop between an "if" and its "else", which has an "if" of its own around the output of
`n - m * 7`. -/
def Program.nested : Program :=
  ⟨[⟨[⟨"n", .nowhere⟩, ⟨"m", .nowhere⟩], .int, .nowhere⟩],
    ⟨[.ifElse .same (.loop .same (.leave .nowhere) .nowhere)
        (.ifThen .same
          (.block ⟨[.output
            (.chain (.term (.factor (.name ⟨"n", .nowhere⟩))) ⟨"-", Span.nowhere.start⟩
              (.chain (.factor (.name ⟨"m", .nowhere⟩)) ⟨"*", Span.nowhere.start⟩ (.literal ⟨"7"⟩)))
            .nowhere], .nowhere⟩) .nowhere) .nowhere,
      .switch .one [⟨⟨"7"⟩, ⟨[], .nowhere⟩, .nowhere⟩] ⟨[], .nowhere⟩ .nowhere], .nowhere⟩⟩

theorem Program.ofTokens_nested :
    nested.Grammatical ∧
      ∃ p, Program.ofTokens ((nested.words ++ [Kind.eof.word]).map Word.token) "" = .ok p ∧
        p.bare = nested.bare := by
  have hnested : nested.Grammatical := {
    declarations := by decide
    body := by
      refine ⟨⟨Condition.grammatical_same, ⟨Condition.grammatical_same, trivial⟩, rfl,
        Condition.grammatical_same, ?_, trivial⟩, ?_⟩
      · exact ⟨trivial, by decide, trivial, by decide, trivial⟩
      · exact ⟨⟨Expression.grammatical_one, ⟨by decide, trivial, trivial⟩, trivial⟩, trivial⟩ }
  exact ⟨hnested, ofTokens_of_words "" hnested (map_word_map_token _)⟩

end Cpl
