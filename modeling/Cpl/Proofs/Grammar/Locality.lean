import Cpl.Proofs.Grammar.Completeness

/-!
# What the grammar looks at

A rule looks at the words that it passes and at one more: the current word when it succeeds, the blamed
word when it fails. Where another list of tokens has the same words so far, the rule does the same there.

`Cursor.Leads` states this for a reading `r` from `c` and readings `s i` from `d i`. There are many of these
because a step starts wherever the step before it may have ended (`Cursor.Landing`), and how far `r` gets
must not depend on which one it is. The relation is followed through a rule by `Leads.andThen`; where a
rule decides by the current token, `Leads.of_head` leaves only those `d i` that have the same one.
-/

namespace Cpl

open Reading

namespace Reading

variable {α β : Type} {m n : Nat} {r : Reading α m} {problem : Problem}

/-- The reading fails with the given problem. -/
def FailsWith (r : Reading α m) (problem : Problem) : Prop :=
  r.Ends (fun _ _ => False) fun error _ => error.problem = problem

theorem FailsWith.andThen {f : (value : α) → (c : Cursor) → c.remaining < m → Reading β n}
    (h : r.FailsWith problem) : (r.andThen f).FailsWith problem := by
  cases r with
  | done value c hc => exact h.elim
  | failed error c => exact h

theorem Succeeds.failsWith_andThen {right : α → Cursor → Prop}
    {f : (value : α) → (c : Cursor) → c.remaining < m → Reading β n} (h : r.Succeeds right)
    (hf : ∀ value c hc, right value c → (f value c hc).FailsWith problem) :
    (r.andThen f).FailsWith problem := by
  cases r with
  | done value c hc => exact hf value c hc h
  | failed error c => exact h.elim

end Reading

namespace Cursor

/-! ## Readings that follow another one -/

/-- An end that a reading of a family may have. -/
structure Landing {ι : Type} (β : Type) (n : ι → Nat) where
  index : ι
  value : β
  cursor : Cursor
  shorter : cursor.remaining < n index

section Leads

variable {ι α β γ δ : Type} {m m' : Nat} {n n' : ι → Nat} {c c' c'' : Cursor} {ws ws' : List Word}
  {r : Reading α m} {d : ι → Cursor} {s : (i : ι) → Reading β (n i)}

/-- From `c` the words `ws` are passed up to `c'`, and `follows i ws` holds for every `d i` that has the same
words up to the current one of `c'`. -/
def Along (c : Cursor) (d : ι → Cursor) (c' : Cursor) (follows : ι → List Word → Prop) : Prop :=
  ∃ ws, c.Passes ws c' ∧ ∀ i, ws ++ [c'.token.word] <+: (d i).words → follows i ws

/-- Wherever `r` gets from `c`, the readings `s i` from `d i` follow. -/
def Leads (c : Cursor) (r : Reading α m) (d : ι → Cursor) (s : (i : ι) → Reading β (n i)) : Prop :=
  r.Ends
    (fun _ c' => c.Along d c' fun i ws => (s i).Succeeds fun _ d' => (d i).Passes ws d')
    fun error c' => c.Along d (c'.blamed error) fun i _ => (s i).FailsWith error.problem

/-- If `r` fails from `c`, the readings `s i` from `d i` fail too. -/
def Misleads (c : Cursor) (r : Reading α m) (d : ι → Cursor) (s : (i : ι) → Reading β (n i)) : Prop :=
  r.Ends (fun _ _ => True)
    fun error c' => c.Along d (c'.blamed error) fun i _ => (s i).FailsWith error.problem

/-- The first of the words that are looked at is the current one. -/
theorem Passes.starts_at_token (q : c.Passes ws c') : [c.token.word] <+: ws ++ [c'.token.word] := by
  obtain ⟨rest, hc⟩ := c.words_eq_cons
  obtain ⟨rest', hc'⟩ := c'.words_eq_cons
  have hw := q.words_eq
  rw [hc, hc'] at hw
  cases ws with
  | nil =>
    rw [(List.cons.inj hw).1]
    exact List.prefix_rfl
  | cons w ws =>
    rw [(List.cons.inj hw).1]
    exact List.prefix_append [w] _

theorem word_eq_of_starts {d : Cursor} (h : [c.token.word] <+: d.words) :
    d.token.word = c.token.word := by
  obtain ⟨rest, hd⟩ := d.words_eq_cons
  rw [hd] at h
  exact (List.cons_prefix_cons.mp h).1.symm

theorem Passes.prefix_of_append {d d' : Cursor} (q : d.Passes ws d') (h : ws ++ ws' <+: d.words) :
    ws' <+: d'.words := by
  rw [q.words_eq] at h
  exact (List.prefix_append_right_inj _).mp h

/-- What follows first and what follows then. -/
theorem Along.trans {follows : ι → List Word → Prop} {follows' : Landing β n → List Word → Prop}
    (h : c.Along d c' fun i ws => (s i).Succeeds fun _ d' => (d i).Passes ws d')
    (h' : c'.Along Landing.cursor c'' follows')
    (hboth : ∀ i ws ws', (s i).Succeeds (fun y d' => (d i).Passes ws d' ∧
      ∀ hd, follows' ⟨i, y, d', hd⟩ ws') → follows i (ws ++ ws')) :
    c.Along d c'' follows := by
  obtain ⟨ws, q, hs⟩ := h
  obtain ⟨ws', q', hs'⟩ := h'
  refine ⟨ws ++ ws', q.trans q', fun i hi => hboth i ws ws' ?_⟩
  rw [List.append_assoc] at hi
  -- the words looked at on the second way start with the one at which the first way ended
  have hfirst := ((List.prefix_append_right_inj ws).mpr q'.starts_at_token).trans hi
  refine (hs i hfirst).imp fun y d' hd' => ⟨hd', fun hd => ?_⟩
  exact hs' ⟨i, y, d', hd⟩ (hd'.prefix_of_append hi)

section AndThen

variable {f : (x : α) → (c' : Cursor) → c'.remaining < m → Reading γ m'}
  {g : (i : ι) → (y : β) → (d' : Cursor) → d'.remaining < n i → Reading δ (n' i)}

theorem Along.succeeds_andThen
    (h : c.Along d c' fun i ws => (s i).Succeeds fun _ d' => (d i).Passes ws d')
    (h' : c'.Along Landing.cursor c'' fun (j : Landing β n) ws =>
      (g j.index j.value j.cursor j.shorter).Succeeds fun _ d' => j.cursor.Passes ws d') :
    c.Along d c'' fun i ws => ((s i).andThen (g i)).Succeeds fun _ d' => (d i).Passes ws d' := by
  refine h.trans h' fun i ws ws' hs => hs.andThen ?_
  rintro y d' hd ⟨q, hnext⟩
  exact (hnext hd).imp fun _ _ q' => q.trans q'

theorem Along.failsWith_andThen {problem : Problem}
    (h : c.Along d c' fun i ws => (s i).Succeeds fun _ d' => (d i).Passes ws d')
    (h' : c'.Along Landing.cursor c'' fun (j : Landing β n) _ =>
      (g j.index j.value j.cursor j.shorter).FailsWith problem) :
    c.Along d c'' fun i _ => ((s i).andThen (g i)).FailsWith problem := by
  refine h.trans h' fun i ws ws' hs => hs.failsWith_andThen ?_
  rintro y d' hd ⟨q, hnext⟩
  exact hnext hd

theorem Leads.andThen (h : c.Leads r d s)
    (hf : ∀ (x : α) (c' : Cursor) (hc : c'.remaining < m), c'.Leads (f x c' hc)
      (Landing.cursor : Landing β n → Cursor) fun j => g j.index j.value j.cursor j.shorter) :
    c.Leads (r.andThen f) d fun i => (s i).andThen (g i) := by
  cases r with
  | failed error c' =>
    obtain ⟨ws, q, hs⟩ := h
    exact ⟨ws, q, fun i hi => (hs i hi).andThen⟩
  | done x c' hc =>
    exact Ends.imp (hf x c' hc) (fun _ _ ha => Along.succeeds_andThen h ha)
      fun _ _ ha => Along.failsWith_andThen h ha

/-- As `Leads.andThen`, where only the failures of the rest matter. -/
theorem Leads.andThen_misleads (h : c.Leads r d s)
    (hf : ∀ (x : α) (c' : Cursor) (hc : c'.remaining < m), c'.Misleads (f x c' hc)
      (Landing.cursor : Landing β n → Cursor) fun j => g j.index j.value j.cursor j.shorter) :
    c.Misleads (r.andThen f) d fun i => (s i).andThen (g i) := by
  cases r with
  | failed error c' =>
    obtain ⟨ws, q, hs⟩ := h
    exact ⟨ws, q, fun i hi => (hs i hi).andThen⟩
  | done x c' hc =>
    exact Ends.imp (hf x c' hc) (fun _ _ _ => trivial) fun _ _ ha => Along.failsWith_andThen h ha

end AndThen

theorem Leads.weaken {hm : m ≤ m'} {hn : ∀ i, n i ≤ n' i} (h : c.Leads r d s) :
    c.Leads (r.weaken hm) d fun i => (s i).weaken (hn i) := by
  refine Ends.weaken (Ends.imp h ?_ ?_) hm
  · rintro x c' ⟨ws, q, hs⟩
    exact ⟨ws, q, fun i hi => (hs i hi).weaken _⟩
  · rintro error c' ⟨ws, q, hs⟩
    exact ⟨ws, q, fun i hi => Ends.weaken (hs i hi) _⟩

theorem Leads.congr {s' : (i : ι) → Reading β (n i)} (hs : ∀ i, s i = s' i)
    (h : c.Leads r d s') : c.Leads r d s := by
  rwa [funext hs]

/-- Only those readings matter that find the current word. -/
theorem Leads.of_head
    (h : c.Leads r (fun j : { i // (d i).token.word = c.token.word } => d j.1) fun j => s j.1) :
    c.Leads r d s := by
  refine Ends.imp h ?_ ?_
  · rintro x c' ⟨ws, q, hs⟩
    exact ⟨ws, q, fun i hi => hs ⟨i, word_eq_of_starts (q.starts_at_token.trans hi)⟩ hi⟩
  · rintro error c' ⟨ws, q, hs⟩
    exact ⟨ws, q, fun i hi => hs ⟨i, word_eq_of_starts (q.starts_at_token.trans hi)⟩ hi⟩

theorem Along.of_next {follows follows' : ι → List Word → Prop} (hne : c.kind ≠ .eof)
    (h : c.next.Along (fun i => (d i).next) c' follows)
    (hd : ∀ i ws, (d i).Passes [c.token.word] (d i).next → follows i ws →
      follows' i (c.token.word :: ws)) :
    c.Along d c' follows' := by
  obtain ⟨ws, q, hs⟩ := h
  have q' := (Passes.next hne).trans q
  refine ⟨c.token.word :: ws, q', fun i hi => ?_⟩
  have hword := word_eq_of_starts (q'.starts_at_token.trans hi)
  have hkind : (d i).kind ≠ .eof := fun hk => hne ((congrArg Word.kind hword).symm.trans hk)
  have qd : (d i).Passes [c.token.word] (d i).next := hword ▸ Passes.next hkind
  exact hd i ws qd (hs i (qd.prefix_of_append hi))

/-- The current token is passed unseen. -/
theorem Leads.of_next (hne : c.kind ≠ .eof) (h : c.next.Leads r (fun i => (d i).next) s) :
    c.Leads r d s := by
  refine Ends.imp h (fun x c' ha => ?_) fun error c' ha => ?_
  · refine ha.of_next hne fun i ws qd hs => ?_
    exact hs.imp fun _ _ q => qd.trans q
  · exact ha.of_next hne fun i ws qd hs => hs

theorem leads_done {x : α} {y : ι → β} {hc : c.remaining < m} {hd : ∀ i, (d i).remaining < n i} :
    c.Leads (.done x c hc) d fun i => .done (y i) (d i) (hd i) :=
  ⟨[], .refl c, fun i _ => .refl (d i)⟩

/-- An error about the current token. -/
theorem leads_failed {error : Diagnostic} {error' : ι → Diagnostic} (he : c.blamed error = c)
    (hp : ∀ i, (d i).token.word = c.token.word → (error' i).problem = error.problem) :
    c.Leads (.failed error c : Reading α m) d fun i => (.failed (error' i) (d i) : Reading β (n i)) := by
  show c.Along d (c.blamed error) _
  rw [he]
  exact ⟨[], .refl c, fun i hi => hp i (word_eq_of_starts hi)⟩

/-- An error about the token just passed. -/
theorem leads_failed_next {error : Diagnostic} {error' : ι → Diagnostic} {d' : ι → Cursor}
    (hne : c.kind ≠ .eof) (he : c.next.blamed error = c.next.back)
    (hp : ∀ i, (d i).token.word = c.token.word → (error' i).problem = error.problem) :
    c.Leads (.failed error c.next : Reading α m) d fun i =>
      (.failed (error' i) (d' i) : Reading β (n i)) := by
  show c.Along d (c.next.blamed error) _
  rw [he, back_next hne]
  exact ⟨[], .refl c, fun i hi => hp i (word_eq_of_starts hi)⟩

end Leads

section Steps

variable {ι : Type} {c : Cursor} {d : ι → Cursor} {k : Kind}

theorem kind_eq {d : Cursor} (h : d.token.word = c.token.word) : d.kind = c.kind :=
  congrArg Word.kind h

theorem value_eq {d : Cursor} (h : d.token.word = c.token.word) :
    d.token.value = c.token.value :=
  congrArg Word.value h

theorem problem_misfit {d : Cursor} (message : String) (h : d.token.word = c.token.word) :
    (d.misfit message).problem = (c.misfit message).problem :=
  congrArg (fun w : Word => Problem.misfitToken w.value message) h

theorem problem_unexpected {d : Cursor} (h : d.token.word = c.token.word) :
    d.unexpected.problem = c.unexpected.problem :=
  congrArg (fun w : Word => Problem.unexpectedToken w.value) h

theorem leads_take {error : Diagnostic} {error' : ι → Diagnostic} {h : k.IsWritten}
    (he : c.blamed error = c)
    (hp : ∀ i, (d i).token.word = c.token.word → (error' i).problem = error.problem) :
    c.Leads (c.take k error h) d fun i => (d i).take k (error' i) h := by
  refine .of_head ?_
  unfold take
  split
  · rename_i hk
    refine .congr (fun j => dif_pos ((kind_eq j.2).trans hk)) ?_
    exact .of_next (hk ▸ h.ne_eof) leads_done
  · rename_i hk
    refine .congr (fun j => dif_neg (by rwa [kind_eq j.2])) ?_
    exact leads_failed he fun j hj => hp j.1 hj

theorem leads_expect {h : k.IsWritten} : c.Leads (c.expect k h) d fun i => (d i).expect k h :=
  leads_take rfl fun _ => problem_unexpected

theorem leads_expectNoting {message : String} {h : k.IsWritten} :
    c.Leads (c.expectNoting k message h) d fun i => (d i).expectNoting k message h :=
  leads_take rfl fun _ => problem_misfit message

end Steps

/-! ## Expressions and conditions -/

end Cursor

theorem Kind.eq_of_startsExpression {k : Kind} (h : k.startsExpression = true) :
    k = identifier ∨ k = number ∨ k = openParen ∨ k = cast := by
  revert h
  cases k <;> decide

namespace Cursor

theorem factor_of_not {c : Cursor} (h : c.kind.startsExpression = false) :
    c.factor = .failed (c.misfit "expected an expression") c := by
  rw [factor]
  split <;> grind [Kind.startsExpression]

theorem factor_of_castType_eq_error {c : Cursor} {error : Diagnostic} (h : c.kind = .cast)
    (htype : c.token.castType = .error error) : c.factor = .failed error c.next := by
  rw [factor]
  split <;> grind

theorem castType_eq_ok {c d : Cursor} {type : NumType} (h : d.token.word = c.token.word)
    (htype : c.token.castType = .ok type) : d.token.castType = .ok type := by
  have hv : d.token.value = c.token.value := congrArg Word.value h
  unfold Token.castType at htype ⊢
  rw [hv]
  split at htype <;> cases htype <;> rfl

theorem castType_eq_error {c d : Cursor} {error : Diagnostic} (h : d.token.word = c.token.word)
    (htype : c.token.castType = .error error) :
    d.token.castType = .error ⟨.invalidCast c.token.value, d.position⟩ := by
  have hv : d.token.value = c.token.value := congrArg Word.value h
  unfold Token.castType at htype ⊢
  rw [hv]
  split at htype <;> cases htype
  rfl

mutual

theorem leads_expression (c : Cursor) {ι : Type} (d : ι → Cursor) :
    c.Leads c.expression d fun i => (d i).expression := by
  rw [expression]
  refine .congr (fun i => expression.eq_1 (d i)) ?_
  refine (leads_term c d).andThen fun first c₁ h₁ => ?_
  exact (leads_expressionAfter c₁ (.term first) Landing.cursor fun j => .term j.value).weaken
termination_by 3 * c.remaining + 2

theorem leads_expressionAfter (c : Cursor) (left : Expression) {ι : Type} (d : ι → Cursor)
    (left' : ι → Expression) :
    c.Leads (c.expressionAfter left) d fun i => (d i).expressionAfter (left' i) := by
  rw [expressionAfter]
  refine .of_head (.congr (fun j => expressionAfter.eq_1 (d j.1) (left' j.1)) ?_)
  split
  · rename_i h
    have hne := Kind.ne_eof_of_isAdditive h
    have hlt := remaining_next_lt hne
    refine .congr (fun j => dif_pos (by rwa [kind_eq j.2])) (.of_next hne ?_)
    refine (leads_term c.next _).andThen fun right c₁ h₁ => ?_
    exact (leads_expressionAfter c₁ _ Landing.cursor _).weaken
  · rename_i h
    exact .congr (fun j => dif_neg (by rwa [kind_eq j.2])) leads_done
termination_by 3 * c.remaining

theorem leads_term (c : Cursor) {ι : Type} (d : ι → Cursor) :
    c.Leads c.term d fun i => (d i).term := by
  rw [term]
  refine .congr (fun i => term.eq_1 (d i)) ?_
  refine (leads_factor c d).andThen fun first c₁ h₁ => ?_
  exact (leads_termAfter c₁ (.factor first) Landing.cursor fun j => .factor j.value).weaken
termination_by 3 * c.remaining + 1

theorem leads_termAfter (c : Cursor) (left : Term) {ι : Type} (d : ι → Cursor)
    (left' : ι → Term) :
    c.Leads (c.termAfter left) d fun i => (d i).termAfter (left' i) := by
  rw [termAfter]
  refine .of_head (.congr (fun j => termAfter.eq_1 (d j.1) (left' j.1)) ?_)
  split
  · rename_i h
    have hne := Kind.ne_eof_of_isMultiplicative h
    have hlt := remaining_next_lt hne
    refine .congr (fun j => dif_pos (by rwa [kind_eq j.2])) (.of_next hne ?_)
    refine (leads_factor c.next _).andThen fun right c₁ h₁ => ?_
    exact (leads_termAfter c₁ _ Landing.cursor _).weaken
  · rename_i h
    exact .congr (fun j => dif_neg (by rwa [kind_eq j.2])) leads_done
termination_by 3 * c.remaining

theorem leads_factor (c : Cursor) {ι : Type} (d : ι → Cursor) :
    c.Leads c.factor d fun i => (d i).factor := by
  cases hs : c.kind.startsExpression with
  | false =>
    rw [factor_of_not hs]
    refine .of_head (.congr (fun j => factor_of_not (by rw [kind_eq j.2, hs])) ?_)
    exact leads_failed rfl fun j => problem_misfit _
  | true =>
    obtain h | h | h | h := Kind.eq_of_startsExpression hs
    · rw [factor_identifier h]
      refine .of_head (.congr (fun j => factor_identifier ((kind_eq j.2).trans h)) ?_)
      exact .of_next (by simp [h]) leads_done
    · rw [factor_number h]
      refine .of_head (.congr (fun j => factor_number ((kind_eq j.2).trans h)) ?_)
      exact .of_next (by simp [h]) leads_done
    · have hlt := next_lt h trivial
      rw [factor_openParen h]
      refine .of_head (.congr (fun j => factor_openParen ((kind_eq j.2).trans h)) ?_)
      refine .of_next (by simp [h]) ?_
      refine (leads_expression c.next _).andThen fun inner c₁ h₁ => ?_
      exact leads_expect.andThen fun _ c₂ h₂ => leads_done
    · have hne : c.kind ≠ .eof := by simp [h]
      have hlt := remaining_next_lt hne
      cases htype : c.token.castType with
      | error error =>
        rw [factor_of_castType_eq_error h htype]
        obtain rfl := Token.problem_of_castType htype
        refine .of_head (.congr (fun j => factor_of_castType_eq_error ((kind_eq j.2).trans h)
          (castType_eq_error j.2 htype)) ?_)
        exact leads_failed_next hne rfl fun _ _ => rfl
      | ok type =>
        rw [factor_cast h htype]
        refine .of_head (.congr (fun j => factor_cast ((kind_eq j.2).trans h)
          (castType_eq_ok j.2 htype)) ?_)
        refine .of_next hne (leads_expect.andThen fun _ c₁ h₁ => ?_)
        refine (leads_expression c₁ _).andThen fun inner c₂ h₂ => ?_
        exact leads_expect.andThen fun _ c₃ h₃ => leads_done
termination_by 3 * c.remaining

end

mutual

theorem leads_condition (c : Cursor) {ι : Type} (d : ι → Cursor) :
    c.Leads c.condition d fun i => (d i).condition := by
  rw [condition]
  refine .congr (fun i => condition.eq_1 (d i)) ?_
  refine (leads_clause c d).andThen fun first c₁ h₁ => ?_
  exact (leads_conditionAfter c₁ _ Landing.cursor fun j => .clause j.value).weaken
termination_by 3 * c.remaining + 2

theorem leads_conditionAfter (c : Cursor) (left : Condition) {ι : Type} (d : ι → Cursor)
    (left' : ι → Condition) :
    c.Leads (c.conditionAfter left) d fun i => (d i).conditionAfter (left' i) := by
  rw [conditionAfter]
  refine .of_head (.congr (fun j => conditionAfter.eq_1 (d j.1) (left' j.1)) ?_)
  split
  · rename_i h
    have hne : c.kind ≠ .eof := by simp [h]
    have hlt := remaining_next_lt hne
    refine .congr (fun j => dif_pos (by rwa [kind_eq j.2])) (.of_next hne ?_)
    refine (leads_clause c.next _).andThen fun right c₁ h₁ => ?_
    exact (leads_conditionAfter c₁ _ Landing.cursor _).weaken
  · rename_i h
    exact .congr (fun j => dif_neg (by rwa [kind_eq j.2])) leads_done
termination_by 3 * c.remaining

theorem leads_clause (c : Cursor) {ι : Type} (d : ι → Cursor) :
    c.Leads c.clause d fun i => (d i).clause := by
  rw [clause]
  refine .congr (fun i => clause.eq_1 (d i)) ?_
  refine (leads_test c d).andThen fun first c₁ h₁ => ?_
  exact (leads_clauseAfter c₁ _ Landing.cursor fun j => .test j.value).weaken
termination_by 3 * c.remaining + 1

theorem leads_clauseAfter (c : Cursor) (left : Clause) {ι : Type} (d : ι → Cursor)
    (left' : ι → Clause) :
    c.Leads (c.clauseAfter left) d fun i => (d i).clauseAfter (left' i) := by
  rw [clauseAfter]
  refine .of_head (.congr (fun j => clauseAfter.eq_1 (d j.1) (left' j.1)) ?_)
  split
  · rename_i h
    have hne : c.kind ≠ .eof := by simp [h]
    have hlt := remaining_next_lt hne
    refine .congr (fun j => dif_pos (by rwa [kind_eq j.2])) (.of_next hne ?_)
    refine (leads_test c.next _).andThen fun right c₁ h₁ => ?_
    exact (leads_clauseAfter c₁ _ Landing.cursor _).weaken
  · rename_i h
    exact .congr (fun j => dif_neg (by rwa [kind_eq j.2])) leads_done
termination_by 3 * c.remaining

theorem leads_test (c : Cursor) {ι : Type} (d : ι → Cursor) :
    c.Leads c.test d fun i => (d i).test := by
  rw [test]
  refine .of_head (.congr (fun j => test.eq_1 (d j.1)) ?_)
  split
  · rename_i h
    have hne : c.kind ≠ .eof := by simp [h]
    have hlt := remaining_next_lt hne
    refine .congr (fun j => dif_pos (by rwa [kind_eq j.2])) (.of_next hne ?_)
    refine leads_expectNoting.andThen fun _ c₁ h₁ => ?_
    refine (leads_condition c₁ _).andThen fun inner c₂ h₂ => ?_
    exact leads_expect.andThen fun _ c₃ h₃ => leads_done
  · rename_i h
    refine .congr (fun j => dif_neg (by rwa [kind_eq j.2])) ?_
    refine (leads_expression c _).andThen fun left c₁ h₁ => .of_head ?_
    split
    · rename_i hk
      refine .congr (fun j => dif_pos (by rwa [kind_eq j.2])) ?_
      refine .of_next (Kind.ne_eof_of_isRelational hk) ?_
      exact (leads_expression c₁.next _).andThen fun right c₂ h₂ => leads_done
    · rename_i hk
      refine .congr (fun j => dif_neg (by rwa [kind_eq j.2])) ?_
      exact leads_failed rfl fun j => problem_misfit _
termination_by 3 * c.remaining

end

/-! ## Statements -/

section Forms

variable {c : Cursor} {ι : Type} {d : ι → Cursor}

theorem leads_ident : c.Leads c.ident d fun i => (d i).ident :=
  leads_expectNoting.andThen fun _ _ _ => leads_done

theorem leads_assignment : c.Leads c.assignment d fun i => (d i).assignment := by
  refine leads_ident.andThen fun target c₁ h₁ => leads_expectNoting.andThen fun _ c₂ h₂ => ?_
  refine (leads_expression c₂ _).andThen fun value c₃ h₃ => ?_
  exact leads_expect.andThen fun _ c₄ h₄ => leads_done

theorem leads_input (hk : c.kind = .kwInput) : c.Leads c.input d fun i => (d i).input := by
  refine .of_next (by simp [hk]) (leads_expect.andThen fun _ c₁ h₁ => ?_)
  refine leads_ident.andThen fun target c₂ h₂ => leads_expect.andThen fun _ c₃ h₃ => ?_
  exact leads_expect.andThen fun _ c₄ h₄ => leads_done

theorem leads_output (hk : c.kind = .kwOutput) : c.Leads c.output d fun i => (d i).output := by
  refine .of_next (by simp [hk]) (leads_expect.andThen fun _ c₁ h₁ => ?_)
  refine (leads_expression c₁ _).andThen fun value c₂ h₂ => leads_expect.andThen fun _ c₃ h₃ => ?_
  exact leads_expect.andThen fun _ c₄ h₄ => leads_done

theorem leads_leave (hk : c.kind = .kwBreak) : c.Leads c.leave d fun i => (d i).leave :=
  .of_next (by simp [hk]) (leads_expect.andThen fun _ _ _ => leads_done)

theorem caseLabel_of_ne (h : c.kind ≠ .number) :
    c.caseLabel = .failed (c.misfit "expected an integer case label") c := by
  simp [caseLabel, expectNoting, take, h, Reading.andThen]

theorem caseLabel_of_int (h : c.kind = .number) (hint : (⟨c.token.value⟩ : Literal).type = .int) :
    c.caseLabel = (c.next.expect .colon).andThen fun _ c₁ h₁ =>
      .done ⟨c.token.value⟩ c₁ (Nat.lt_trans h₁ (next_lt h trivial)) := by
  simp [caseLabel, expectNoting, take, h, hint, Reading.andThen]

theorem caseLabel_of_not_int (h : c.kind = .number)
    (hint : (⟨c.token.value⟩ : Literal).type ≠ .int) :
    c.caseLabel = .failed ⟨.labelNotInteger c.token.value, c.position⟩ c.next := by
  simp [caseLabel, expectNoting, take, h, hint, Reading.andThen, position]

/-- The label itself is blamed if it is no integer, so the step that passes it is not one of its own. -/
theorem leads_caseLabel : c.Leads c.caseLabel d fun i => (d i).caseLabel := by
  refine .of_head ?_
  by_cases h : c.kind = .number
  · have hne : c.kind ≠ .eof := by simp [h]
    by_cases hint : (⟨c.token.value⟩ : Literal).type = .int
    · rw [caseLabel_of_int h hint]
      refine .congr (fun j => caseLabel_of_int ((kind_eq j.2).trans h) (value_eq j.2 ▸ hint)) ?_
      exact .of_next hne (leads_expect.andThen fun _ _ _ => leads_done)
    · rw [caseLabel_of_not_int h hint]
      refine .congr (fun j => caseLabel_of_not_int ((kind_eq j.2).trans h)
        (value_eq j.2 ▸ hint)) ?_
      exact leads_failed_next hne rfl fun j hj => congrArg Problem.labelNotInteger (value_eq hj)
  · rw [caseLabel_of_ne h]
    refine .congr (fun j => caseLabel_of_ne (by rwa [kind_eq j.2])) ?_
    exact leads_failed rfl fun j => problem_misfit _

theorem statement_of_not (h : ¬ ∃ form : Form, c.kind = form.firstKind) :
    c.statement .standard = .failed (c.misfit "expected a statement") c := by
  rw [statement]
  split
  · rename_i form htable
    exact absurd ⟨form, FormTable.kind_of_standard htable⟩ h
  · rfl

end Forms

mutual

theorem leads_statement (c : Cursor) {ι : Type} (d : ι → Cursor) :
    c.Leads (c.statement .standard) d fun i => (d i).statement .standard := by
  refine .of_head ?_
  by_cases h : ∃ form : Form, c.kind = form.firstKind
  · obtain ⟨form, hk⟩ := h
    rw [statement_of_kind hk]
    refine .congr (fun j => statement_of_kind ((kind_eq j.2).trans hk)) ?_
    exact leads_formed c form hk _
  · rw [statement_of_not h]
    refine .congr (fun j => statement_of_not (by rwa [kind_eq j.2])) ?_
    exact leads_failed rfl fun j => problem_misfit _
termination_by 4 * c.remaining + 3

theorem leads_formed (c : Cursor) (form : Form) (hk : c.kind = form.firstKind) {ι : Type}
    (d : ι → Cursor) :
    c.Leads (c.formed .standard form) d fun i => (d i).formed .standard form := by
  cases form <;> simp only [formed]
  case assignment => exact leads_assignment
  case input => exact leads_input hk
  case output => exact leads_output hk
  case conditional => exact leads_conditional c hk d
  case loop => exact leads_loop c hk d
  case choice => exact leads_choice c hk d
  case leave => exact leads_leave hk
  case block => exact (leads_block c d).andThen fun _ _ _ => leads_done
termination_by 4 * c.remaining + 2

theorem leads_conditional (c : Cursor) (hk : c.kind = .kwIf) {ι : Type} (d : ι → Cursor) :
    c.Leads (c.conditional .standard) d fun i => (d i).conditional .standard := by
  have hle := c.remaining_next_le
  rw [conditional]
  refine .congr (fun i => conditional.eq_1 .standard (d i)) (.of_next (by simp [hk]) ?_)
  refine leads_expect.andThen fun _ c₁ h₁ => ?_
  refine (leads_condition c₁ _).andThen fun condition c₂ h₂ => ?_
  refine leads_expect.andThen fun _ c₃ h₃ => ?_
  refine (leads_statement c₃ _).andThen fun body c₄ h₄ => .of_head ?_
  split
  · rename_i h
    have hne : c₄.kind ≠ .eof := by simp [h]
    have hlt := remaining_next_lt hne
    refine .congr (fun j => dif_pos (by rwa [kind_eq j.2])) (.of_next hne ?_)
    exact (leads_statement c₄.next _).andThen fun other c₅ h₅ => leads_done
  · rename_i h
    exact .congr (fun j => dif_neg (by rwa [kind_eq j.2])) leads_done
termination_by 4 * c.remaining + 1

theorem leads_loop (c : Cursor) (hk : c.kind = .kwWhile) {ι : Type} (d : ι → Cursor) :
    c.Leads (c.loop .standard) d fun i => (d i).loop .standard := by
  have hle := c.remaining_next_le
  rw [loop]
  refine .congr (fun i => loop.eq_1 .standard (d i)) (.of_next (by simp [hk]) ?_)
  refine leads_expect.andThen fun _ c₁ h₁ => ?_
  refine (leads_condition c₁ _).andThen fun condition c₂ h₂ => ?_
  refine leads_expect.andThen fun _ c₃ h₃ => ?_
  exact (leads_statement c₃ _).andThen fun body c₄ h₄ => leads_done
termination_by 4 * c.remaining + 1

theorem leads_choice (c : Cursor) (hk : c.kind = .kwSwitch) {ι : Type} (d : ι → Cursor) :
    c.Leads (c.choice .standard) d fun i => (d i).choice .standard := by
  have hle := c.remaining_next_le
  rw [choice]
  refine .congr (fun i => choice.eq_1 .standard (d i)) (.of_next (by simp [hk]) ?_)
  refine leads_expect.andThen fun _ c₁ h₁ => ?_
  refine (leads_expression c₁ _).andThen fun selector c₂ h₂ => ?_
  refine leads_expect.andThen fun _ c₃ h₃ => leads_expect.andThen fun _ c₄ h₄ => ?_
  refine (leads_cases c₄ _).andThen fun arms c₅ h₅ => ?_
  refine leads_expectNoting.andThen fun _ c₆ h₆ => leads_expect.andThen fun _ c₇ h₇ => ?_
  refine (leads_statements c₇ _).andThen fun body c₈ h₈ => ?_
  exact leads_expect.andThen fun _ c₉ h₉ => leads_done
termination_by 4 * c.remaining + 1

theorem leads_cases (c : Cursor) {ι : Type} (d : ι → Cursor) :
    c.Leads (c.cases .standard) d fun i => (d i).cases .standard := by
  rw [cases]
  refine .of_head (.congr (fun j => cases.eq_1 .standard (d j.1)) ?_)
  split
  · rename_i h
    have hne : c.kind ≠ .eof := by simp [h]
    have hlt := remaining_next_lt hne
    refine .congr (fun j => dif_pos (by rwa [kind_eq j.2])) (.of_next hne ?_)
    refine leads_caseLabel.andThen fun label c₁ h₁ => ?_
    refine (leads_statements c₁ _).andThen fun body c₂ h₂ => ?_
    exact (leads_cases c₂ _).andThen fun arms c₃ h₃ => leads_done
  · rename_i h
    exact .congr (fun j => dif_neg (by rwa [kind_eq j.2])) leads_done
termination_by 4 * c.remaining

theorem leads_block (c : Cursor) {ι : Type} (d : ι → Cursor) :
    c.Leads (c.block .standard) d fun i => (d i).block .standard := by
  rw [block]
  refine .congr (fun i => block.eq_1 .standard (d i)) ?_
  refine leads_expectNoting.andThen fun _ c₁ h₁ => ?_
  refine (leads_statements c₁ _).andThen fun body c₂ h₂ => ?_
  exact leads_expectNoting.andThen fun _ c₃ h₃ => leads_done
termination_by 4 * c.remaining + 1

theorem leads_statements (c : Cursor) {ι : Type} (d : ι → Cursor) :
    c.Leads (c.statements .standard) d fun i => (d i).statements .standard := by
  rw [statements]
  refine .of_head (.congr (fun j => statements.eq_1 .standard (d j.1)) ?_)
  split
  · rename_i h
    exact .congr (fun j => if_pos (by rwa [kind_eq j.2])) leads_done
  · rename_i h
    refine .congr (fun j => if_neg (by rwa [kind_eq j.2])) ?_
    refine (leads_statement c _).andThen fun first c₁ h₁ => ?_
    exact (leads_statements c₁ _).andThen fun rest c₂ h₂ => leads_done
termination_by 4 * c.remaining + 4

end

/-! ## Programs -/

section Parts

variable {c : Cursor} {ι : Type} {d : ι → Cursor}

theorem numType_kwInt (h : c.kind = .kwInt) :
    c.numType = .done .int c.next (next_lt h trivial) := by
  rw [numType]
  split <;> grind

theorem numType_kwFloat (h : c.kind = .kwFloat) :
    c.numType = .done .float c.next (next_lt h trivial) := by
  rw [numType]
  split <;> grind

theorem numType_of_not (h : c.kind ≠ .kwInt) (h' : c.kind ≠ .kwFloat) :
    c.numType = .failed (c.misfit "expected `int` or `float`") c := by
  rw [numType]
  split <;> grind

theorem leads_numType : c.Leads c.numType d fun i => (d i).numType := by
  refine .of_head ?_
  by_cases h : c.kind = .kwInt
  · rw [numType_kwInt h]
    refine .congr (fun j => numType_kwInt ((kind_eq j.2).trans h)) ?_
    exact .of_next (by simp [h]) leads_done
  by_cases h' : c.kind = .kwFloat
  · rw [numType_kwFloat h']
    refine .congr (fun j => numType_kwFloat ((kind_eq j.2).trans h')) ?_
    exact .of_next (by simp [h']) leads_done
  · rw [numType_of_not h h']
    refine .congr (fun j => numType_of_not (by rwa [kind_eq j.2]) (by rwa [kind_eq j.2])) ?_
    exact leads_failed rfl fun j => problem_misfit _

end Parts

theorem leads_furtherIdents (c : Cursor) {ι : Type} (d : ι → Cursor) :
    c.Leads c.furtherIdents d fun i => (d i).furtherIdents := by
  rw [furtherIdents]
  refine .of_head (.congr (fun j => furtherIdents.eq_1 (d j.1)) ?_)
  split
  · rename_i h
    have hne : c.kind ≠ .eof := by simp [h]
    have hlt := remaining_next_lt hne
    refine .congr (fun j => dif_pos (by rwa [kind_eq j.2])) (.of_next hne ?_)
    refine leads_ident.andThen fun name c₁ h₁ => ?_
    exact (leads_furtherIdents c₁ _).andThen fun names c₂ h₂ => leads_done
  · rename_i h
    exact .congr (fun j => dif_neg (by rwa [kind_eq j.2])) leads_done
termination_by c.remaining

theorem leads_declaration (c : Cursor) {ι : Type} (d : ι → Cursor) :
    c.Leads c.declaration d fun i => (d i).declaration := by
  refine leads_ident.andThen fun first c₁ h₁ => ?_
  refine (leads_furtherIdents c₁ _).andThen fun names c₂ h₂ => ?_
  refine leads_expectNoting.andThen fun _ c₃ h₃ => leads_numType.andThen fun type c₄ h₄ => ?_
  exact leads_expect.andThen fun _ c₅ h₅ => leads_done

theorem leads_declarations (c : Cursor) {ι : Type} (d : ι → Cursor) :
    c.Leads c.declarations d fun i => (d i).declarations := by
  rw [declarations]
  refine .of_head (.congr (fun j => declarations.eq_1 (d j.1)) ?_)
  split
  · rename_i h
    refine .congr (fun j => if_pos (by rwa [kind_eq j.2])) ?_
    refine (leads_declaration c _).andThen fun first c₁ h₁ => ?_
    exact (leads_declarations c₁ _).andThen fun rest c₂ h₂ => leads_done
  · rename_i h
    exact .congr (fun j => if_neg (by rwa [kind_eq j.2])) leads_done
termination_by c.remaining

theorem misleads_program (c : Cursor) {ι : Type} (d : ι → Cursor) :
    c.Misleads c.program d fun i => (d i).program := by
  refine (leads_declarations c d).andThen_misleads fun declarations c₁ h₁ => ?_
  refine (leads_block c₁ _).andThen_misleads fun body c₂ h₂ => ?_
  unfold demand
  split
  · trivial
  · rename_i h
    refine ⟨[], .refl c₂, fun j hj => FailsWith.andThen ?_⟩
    have hword := word_eq_of_starts hj
    rw [if_neg (by rwa [kind_eq hword])]
    exact problem_misfit _ hword

end Cursor

end Cpl
