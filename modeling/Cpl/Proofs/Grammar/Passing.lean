import Cpl.Proofs.Layout

/-!
# Passing words

What the rules of the grammar do to a cursor. `Cursor.Passes c ws c'` says that from `c` on tokens with the
words `ws` are passed, up to `c'`. A rule that fails blames a token: the current one or, where the text
of a token is wrong, the one just passed (`Cursor.blamed`).

`Reading.Ends` states how a reading ends, well or not, and is followed through the steps of a rule by
`Reading.Ends.andThen`. The lemmas `ends_expect` and so on give the steps that pass one token. They are
about tokens that are spelled as their kinds are, as all tokens of a text are (`proper_of_tokenize`).
-/

namespace Cpl

/-! ## Spelling -/

/-- The token is not an end, and if its kind has one spelling it is spelled so. -/
structure Token.Proper (t : Token) : Prop where
  isWritten : t.kind ≠ .eof
  value : t.kind.isOpen = false → t.value = t.kind.spelling

theorem Token.Proper.word_eq {t : Token} (h : t.Proper) (ho : t.kind.isOpen = false) :
    t.word = t.kind.word := by
  rw [Token.word, Kind.word, h.value ho]

/-- The word of a token tells that it is proper. -/
theorem Word.Lexical.proper {t : Token} (h : t.word.Lexical) : t.Proper := by
  obtain ⟨kind, value, span⟩ := t
  refine ⟨h.ne_eof, fun ho => ?_⟩
  generalize hw : Token.word _ = w at h
  cases h with
  | identifier _ _ _ =>
    cases hw
    cases ho
  | integer _ _ =>
    cases hw
    cases ho
  | decimal _ _ _ =>
    cases hw
    cases ho
  | cast type =>
    cases type <;> cases hw <;> cases ho
  | fixed _ _ =>
    obtain rfl : kind = _ := congrArg Word.kind hw
    exact congrArg Word.value hw

/-- The tokens of a text are proper, and an end token closes them. -/
theorem proper_of_tokenize {source file : String} {ts : List Token}
    (h : tokenize source file = .ok ts) :
    ∃ init mark, ts = init ++ [Token.endAt mark] ∧ ∀ t ∈ init, t.Proper := by
  unfold tokenize Scan.result at h
  split at h <;> cases h
  exact ⟨_, _, rfl, fun t ht => (Scan.lexical_ofChars _ _ _ t ht).proper⟩

/-! ## Words ahead -/

namespace Cursor

variable {c c' c'' : Cursor} {ws ws' : List Word}

/-- The words from the current one on, with the end. -/
def words (c : Cursor) : List Word :=
  c.ahead.map Token.word ++ [c.finish.token.word]

theorem words_eq_cons (c : Cursor) : ∃ rest, c.words = c.token.word :: rest := by
  obtain ⟨passed, ahead, finish⟩ := c
  cases ahead with
  | nil => exact ⟨[], rfl⟩
  | cons t ts => exact ⟨_, rfl⟩

/-- Only the end token has the kind of the end, or else there are tokens ahead. -/
theorem ahead_eq_cons (h : c.kind ≠ .eof) : c.ahead = c.token :: c.next.ahead := by
  obtain ⟨passed, ahead, finish⟩ := c
  cases ahead with
  | nil => exact absurd rfl h
  | cons t ts => rfl

@[simp] theorem finish_next (c : Cursor) : c.next.finish = c.finish := by
  unfold next
  split <;> rfl

theorem next_of_ahead_eq_nil (h : c.ahead = []) : c.next = c := by
  unfold next
  rw [h]

theorem ofTokens_concat (init : List Token) {t : Token} (h : t.kind = .eof) (file : String) :
    ofTokens (init ++ [t]) file = ⟨[], init, ⟨t.value, t.span⟩⟩ := by
  simp [ofTokens, h]

/-- The words of a list that is closed by an end token. -/
theorem words_ofTokens_concat (init : List Token) {t : Token} (h : t.kind = .eof) (file : String) :
    (ofTokens (init ++ [t]) file).words = (init ++ [t]).map Token.word := by
  have ht : t.word = ⟨.eof, t.value⟩ := congrArg (Word.mk · t.value) h
  rw [ofTokens_concat init h, List.map_append, List.map_singleton, ht]
  rfl

/-- From `c` on tokens with the given words are passed, up to `c'`. -/
structure Passes (c : Cursor) (ws : List Word) (c' : Cursor) : Prop where
  ahead : ∃ ts, c.ahead = ts ++ c'.ahead ∧ ts.map Token.word = ws
  finish : c'.finish = c.finish

namespace Passes

theorem refl (c : Cursor) : c.Passes [] c :=
  ⟨⟨[], rfl, rfl⟩, rfl⟩

theorem trans (h : c.Passes ws c') (h' : c'.Passes ws' c'') : c.Passes (ws ++ ws') c'' := by
  obtain ⟨ts, ha, hw⟩ := h.ahead
  obtain ⟨ts', ha', hw'⟩ := h'.ahead
  refine ⟨⟨ts ++ ts', ?_, ?_⟩, h'.finish.trans h.finish⟩
  · rw [ha, ha', List.append_assoc]
  · rw [List.map_append, hw, hw']

/-- The current token is passed, unless it is an end. -/
theorem next (h : c.kind ≠ .eof) : c.Passes [c.token.word] c.next :=
  ⟨⟨[c.token], ahead_eq_cons h, rfl⟩, finish_next c⟩

theorem words_eq (h : c.Passes ws c') : c.words = ws ++ c'.words := by
  obtain ⟨ts, ha, hw⟩ := h.ahead
  rw [words, words, ha, h.finish, List.map_append, hw, List.append_assoc]

end Passes

/-- The tokens before the end are proper. -/
def Proper (c : Cursor) : Prop :=
  ∀ t ∈ c.ahead, t.Proper

theorem Passes.proper (h : c.Passes ws c') (hc : c.Proper) : c'.Proper := by
  obtain ⟨ts, ha, -⟩ := h.ahead
  intro t ht
  exact hc t (ha ▸ List.mem_append_right ts ht)

theorem Proper.token (hc : c.Proper) (h : c.kind ≠ .eof) : c.token.Proper :=
  hc _ (ahead_eq_cons h ▸ List.mem_cons_self ..)

/-- Where the end is the current token, there is nothing else ahead. -/
theorem Proper.ahead_eq_nil (hc : c.Proper) (h : c.kind = .eof) : c.ahead = [] := by
  obtain ⟨passed, ahead, finish⟩ := c
  cases ahead with
  | nil => rfl
  | cons t ts => exact absurd h (hc t List.mem_cons_self).isWritten

/-- A token whose kind has one spelling is passed as the word of that kind. -/
theorem Proper.next (hc : c.Proper) {k : Kind} (hk : c.kind = k) (he : k ≠ .eof)
    (ho : k.isOpen = false) : c.Passes [k.word] c.next := by
  subst hk
  have := Passes.next he
  rwa [(hc.token he).word_eq ho] at this

/-! ## Blame -/

/-- The cursor on the token before, if there is one. -/
def back (c : Cursor) : Cursor :=
  match c.passed with
  | [] => c
  | t :: ts => { c with passed := ts, ahead := t :: c.ahead }

theorem back_next (h : c.kind ≠ .eof) : c.next.back = c := by
  obtain ⟨passed, ahead, finish⟩ := c
  cases ahead with
  | nil => exact absurd rfl h
  | cons t ts => rfl

/-- The cursor on the token that the error of a failure is about. The text of a token is looked at when
the token has been passed. -/
def blamed (c : Cursor) (error : Diagnostic) : Cursor :=
  match error.problem with
  | .labelNotInteger _ => c.back
  | .invalidCast _ => c.back
  | _ => c

/-- A failure on the way from `c` to `c'`: tokens have been passed whose words are as `begins` says, and
the error is about the token after them. -/
def Fails (c : Cursor) (begins : List Word → Prop) (error : Diagnostic) (c' : Cursor) : Prop :=
  ∃ ws, c.Passes ws (c'.blamed error) ∧ (c'.blamed error).position = error.position ∧ begins ws

theorem Fails.after {begins begins' : List Word → Prop} {error : Diagnostic}
    (h : c'.Fails begins error c'') (hp : c.Passes ws c')
    (hb : ∀ ws', begins ws' → begins' (ws ++ ws')) : c.Fails begins' error c'' := by
  obtain ⟨ws', hp', hpos, hw⟩ := h
  exact ⟨ws ++ ws', hp.trans hp', hpos, hb ws' hw⟩

end Cursor

/-! ## How readings end -/

namespace Reading

variable {α β : Type} {m n : Nat} {r : Reading α m} {right : α → Cursor → Prop}
  {wrong : Diagnostic → Cursor → Prop}

/-- The reading ends well, with a value and a cursor as `right` says, or fails as `wrong` says. -/
def Ends (r : Reading α m) (right : α → Cursor → Prop) (wrong : Diagnostic → Cursor → Prop) : Prop :=
  match r with
  | done value c _ => right value c
  | failed error c => wrong error c

theorem Ends.weaken (h : r.Ends right wrong) (hn : m ≤ n) : (r.weaken hn).Ends right wrong := by
  cases r <;> exact h

theorem Ends.andThen {right' : β → Cursor → Prop}
    {f : (value : α) → (c : Cursor) → c.remaining < m → Reading β n} (h : r.Ends right wrong)
    (hf : ∀ value c hc, right value c → (f value c hc).Ends right' wrong) :
    (r.andThen f).Ends right' wrong := by
  cases r with
  | done value c hc => exact hf value c hc h
  | failed error c => exact h

/-- How the first reading ends may not matter for how the second one does. -/
theorem Ends.of_andThen {right' : β → Cursor → Prop}
    {f : (value : α) → (c : Cursor) → c.remaining < m → Reading β n}
    (hf : ∀ value c hc, (f value c hc).Ends right' fun _ _ => True) :
    (r.andThen f).Ends right' fun _ _ => True := by
  cases r with
  | done value c hc => exact hf value c hc
  | failed error c => trivial

theorem Ends.and {also : α → Cursor → Prop} (h : r.Ends right wrong)
    (h' : r.Ends also fun _ _ => True) : r.Ends (fun x c => right x c ∧ also x c) wrong := by
  cases r with
  | done value c hc => exact ⟨h, h'⟩
  | failed error c => exact h

theorem Ends.imp {right' : α → Cursor → Prop} {wrong' : Diagnostic → Cursor → Prop}
    (h : r.Ends right wrong) (hr : ∀ value c, right value c → right' value c)
    (hw : ∀ error c, wrong error c → wrong' error c) : r.Ends right' wrong' := by
  cases r with
  | done value c hc => exact hr value c h
  | failed error c => exact hw error c h

theorem Ends.of_result_eq_ok {x : α} (h : r.Ends right wrong) (hr : r.result = .ok x) :
    ∃ c, right x c := by
  cases r with
  | done value c hc =>
    cases hr
    exact ⟨c, h⟩
  | failed error c => cases hr

end Reading

namespace Cursor

open Reading

variable {c₀ c : Cursor} {pre : List Word} {begins : List Word → Prop}

/-- An error about the current token. -/
theorem fails_here {error : Diagnostic} (q : c₀.Passes pre c) (he : c.blamed error = c)
    (hpos : error.position = c.position) (hb : begins pre) : c₀.Fails begins error c := by
  refine ⟨pre, ?_, ?_, hb⟩
  · rwa [he]
  · rw [he, hpos]

/-- An error about the token just passed. -/
theorem fails_behind {error : Diagnostic} (h : c.kind ≠ .eof) (q : c₀.Passes pre c)
    (he : c.next.blamed error = c.next.back) (hpos : error.position = c.position)
    (hb : begins pre) : c₀.Fails begins error c.next := by
  rw [back_next h] at he
  refine ⟨pre, ?_, ?_, hb⟩
  · rwa [he]
  · rw [he, hpos]

theorem ends_take {k : Kind} {error : Diagnostic} {h : k.IsWritten} (q : c₀.Passes pre c)
    (he : c.blamed error = c) (hpos : error.position = c.position) (hb : begins pre) :
    (c.take k error h).Ends (fun t c' => c.kind = k ∧ t = c.token ∧ c' = c.next)
      (c₀.Fails begins) := by
  unfold take
  split
  · rename_i hk
    exact ⟨hk, rfl, rfl⟩
  · exact fails_here q he hpos hb

/-- A step that passes a word with one spelling. -/
theorem ends_take_word {k : Kind} {error : Diagnostic} {h : k.IsWritten} (hc : c₀.Proper)
    (q : c₀.Passes pre c) (he : c.blamed error = c) (hpos : error.position = c.position)
    (ho : k.isOpen = false) (hb : begins pre) :
    (c.take k error h).Ends (fun _ c' => c₀.Passes (pre ++ [k.word]) c') (c₀.Fails begins) := by
  refine (ends_take q he hpos hb).imp ?_ fun _ _ hw => hw
  rintro t c' ⟨hk, -, rfl⟩
  exact q.trans ((q.proper hc).next hk h.ne_eof ho)

theorem ends_expect (k : Kind) {h : k.IsWritten} (hc : c₀.Proper) (q : c₀.Passes pre c)
    (ho : k.isOpen = false) (hb : begins pre) :
    (c.expect k h).Ends (fun _ c' => c₀.Passes (pre ++ [k.word]) c') (c₀.Fails begins) :=
  ends_take_word hc q rfl rfl ho hb

theorem ends_expectNoting (k : Kind) {message : String} {h : k.IsWritten} (hc : c₀.Proper)
    (q : c₀.Passes pre c) (ho : k.isOpen = false) (hb : begins pre) :
    (c.expectNoting k message h).Ends (fun _ c' => c₀.Passes (pre ++ [k.word]) c')
      (c₀.Fails begins) :=
  ends_take_word hc q rfl rfl ho hb

/-! ## Rules at a token -/

theorem next_lt {k : Kind} (h : c.kind = k) (hk : k.IsWritten) : c.next.remaining < c.remaining :=
  remaining_next_lt (h ▸ hk.ne_eof)

theorem factor_identifier (h : c.kind = .identifier) :
    c.factor = .done (.name c.token.ident) c.next (next_lt h trivial) := by
  rw [factor]
  split <;> grind

theorem factor_number (h : c.kind = .number) :
    c.factor = .done (.literal ⟨c.token.value⟩) c.next (next_lt h trivial) := by
  rw [factor]
  split <;> grind

theorem factor_openParen (h : c.kind = .openParen) :
    c.factor =
      c.next.expression.andThen fun inner c₁ h₁ =>
      (c₁.expect .closeParen).andThen fun _ c₂ h₂ =>
      .done (.parens inner (c₂.spanFrom c.position)) c₂
        (Nat.lt_trans h₂ (Nat.lt_trans h₁ (next_lt h trivial))) := by
  rw [factor]
  split <;> grind

theorem factor_cast {type : NumType} (h : c.kind = .cast) (htype : c.token.castType = .ok type) :
    c.factor =
      (c.next.expect .openParen).andThen fun _ c₁ h₁ =>
      c₁.expression.andThen fun inner c₂ h₂ =>
      (c₂.expect .closeParen).andThen fun _ c₃ h₃ =>
      .done (.cast type inner (c₃.spanFrom c.position)) c₃
        (Nat.lt_trans h₃ (Nat.lt_trans h₂ (Nat.lt_trans h₁ (next_lt h trivial)))) := by
  rw [factor]
  split <;> grind

end Cursor

end Cpl
