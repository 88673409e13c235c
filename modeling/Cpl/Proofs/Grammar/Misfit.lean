import Cpl.Proofs.Grammar.Locality

/-!
# The first misfit

A list of tokens that is no program is refused at a certain token: some program begins with the words before
it, and none begins with the words up to it (`Program.refused_at_first_misfit`). The first is what the rules
pass until they fail (`Cursor.ends_program`), completed to a program that is read again (`Program.readable`);
the second is that the rules look no further than the token that they blame (`Cursor.misleads_program`).
-/

namespace Cpl

namespace Cursor

variable {c c' : Cursor} {ws ws' : List Word}

theorem map_word_prefix_words (ts : List Token) (file : String) :
    ts.map Token.word <+: (ofTokens ts file).words := by
  obtain rfl | ⟨init, t, rfl⟩ := List.eq_nil_or_concat ts
  · exact List.nil_prefix
  rw [List.concat_eq_append]
  by_cases h : t.kind = .eof
  · exact words_ofTokens_concat init h file ▸ List.prefix_rfl
  · have hopen : (ofTokens (init ++ [t]) file).ahead = init ++ [t] := by
      simp [ofTokens, h]
    rw [words, hopen]
    exact List.prefix_append _ _

theorem Passes.unique (q : c.Passes ws c') (q' : c.Passes ws' c') : ws = ws' := by
  have h := q.words_eq
  rw [q'.words_eq] at h
  exact (List.append_cancel_right h).symm

/-- The tokens from the current one on, split at the current one of `c'`. -/
theorem Passes.exists_split (q : c.Passes ws c') :
    ∃ before after, c.ahead ++ [c.finish.token] = before ++ c'.token :: after ∧
      before.map Token.word = ws := by
  obtain ⟨before, hahead, hwords⟩ := q.ahead
  have hfinish := q.finish
  obtain ⟨passed, ahead, finish⟩ := c'
  cases ahead with
  | nil => exact ⟨before, [], by rw [hahead, ← hfinish, List.append_nil]; rfl, hwords⟩
  | cons t ahead => exact ⟨before, ahead ++ [c.finish.token], by rw [hahead]; simp [token], hwords⟩

/-- Where a program fails, and where all others with the same words do. -/
theorem exists_of_program_eq_failed {error : Diagnostic} (hc : c.Proper)
    (h : c.program = .failed error c') {ι : Type} (d : ι → Cursor) :
    ∃ ws, c.Passes ws (c'.blamed error) ∧ (c'.blamed error).position = error.position ∧
      Begins Program.words Program.Grammatical ws ∧
      ∀ i, ws ++ [(c'.blamed error).token.word] <+: (d i).words →
        (d i).program.FailsWith error.problem := by
  have hread := c.ends_program hc
  have hlocal := c.misleads_program d
  rw [h] at hread hlocal
  obtain ⟨ws, q, hpos, hbegins⟩ := hread
  obtain ⟨ws', q', hfails⟩ := hlocal
  rw [← q.unique q'] at hfails
  exact ⟨ws, q, hpos, hbegins, hfails⟩

end Cursor

/-- Every beginning of a grammatical program begins some list that is read. -/
theorem Begins.exists_ofTokens {ws : List Word} (h : Begins Program.words Program.Grammatical ws) :
    ∃ us file p, ws <+: us.map Token.word ∧ Program.ofTokens us file = .ok p := by
  obtain ⟨p, hp, hpre⟩ := h
  have hwords := map_word_map_token (p.words ++ [Kind.eof.word])
  have hread := p.readable hp _ (Cursor.words_ofTokens_of_words "" hwords)
  obtain ⟨p', -, hok, -⟩ := hread.result_eq_ok
  refine ⟨_, "", p', ?_, hok⟩
  rw [hwords]
  exact hpre.trans (List.prefix_append _ _)

namespace Reading

variable {α : Type} {m : Nat} {r : Reading α m}

theorem FailsWith.result_ne_ok {problem : Problem} (h : r.FailsWith problem) (x : α) :
    r.result ≠ .ok x := by
  cases r with
  | done value c hc => exact h.elim
  | failed error c => exact fun hr => by cases hr

theorem eq_failed_of_result {error : Diagnostic} (h : r.result = .error error) :
    ∃ c, r = .failed error c := by
  cases r with
  | done value c hc => cases h
  | failed e c =>
    cases h
    exact ⟨c, rfl⟩

end Reading

/-- Tokens of a text that are no program are refused at a token: some program begins with the words
before it, but none with the words up to it. -/
theorem Program.refused_at_first_misfit {source file file' : String} {ts : List Token}
    {error : Diagnostic} (ht : tokenize source file = .ok ts)
    (he : Program.ofTokens ts file' = .error error) :
    ∃ k t, ts[k]? = some t ∧ error.position = t.span.start ∧
      (∃ us file p, (ts.take k).map Token.word <+: us.map Token.word ∧
        Program.ofTokens us file = .ok p) ∧
      ∀ us file p, (ts.take (k + 1)).map Token.word <+: us.map Token.word →
        Program.ofTokens us file ≠ .ok p := by
  obtain ⟨init, mark, rfl, hproper⟩ := proper_of_tokenize ht
  rw [ofTokens, Cursor.ofTokens_concat init rfl] at he
  have hc : (⟨[], init, ⟨"EOF", ⟨mark, mark⟩⟩⟩ : Cursor).Proper := hproper
  obtain ⟨c, hfailed⟩ := Reading.eq_failed_of_result he
  obtain ⟨ws, q, hpos, hbegins, hfails⟩ := Cursor.exists_of_program_eq_failed hc hfailed
    fun u : List Token × String => Cursor.ofTokens u.1 u.2
  obtain ⟨before, after, hsplit, hbefore⟩ := q.exists_split
  have hts : init ++ [Token.endAt mark] = before ++ (c.blamed error).token :: after := hsplit
  rw [hts]
  refine ⟨before.length, (c.blamed error).token, by simp, hpos.symm, ?_, ?_⟩
  · rw [List.take_left, hbefore]
    exact hbegins.exists_ofTokens
  · intro us file p hpre
    simp only [List.take_length_add_append, List.take_succ_cons, List.take_zero, List.map_append,
      List.map_singleton, hbefore] at hpre
    have hwords := hpre.trans (Cursor.map_word_prefix_words us file)
    exact (hfails (us, file) hwords).result_ne_ok p

/-- The semicolon before the "else" is missing. -/
def unfinished : String :=
  "n: int; \x7b if (n < 1) n = 2 else n = 3; \x7d"

theorem Program.unfinished_refused :
    ∃ ts error, tokenize unfinished "unfinished.ou" = .ok ts ∧
      Program.ofTokens ts "unfinished.ou" = .error error ∧
      ∃ k t, ts[k]? = some t ∧ error.position = t.span.start ∧
        (∃ us file p, (ts.take k).map Token.word <+: us.map Token.word ∧
          Program.ofTokens us file = .ok p) ∧
        ∀ us file p, (ts.take (k + 1)).map Token.word <+: us.map Token.word →
          Program.ofTokens us file ≠ .ok p := by
  have hfails : ((tokenize unfinished "unfinished.ou").toOption.map fun ts =>
      (Program.ofTokens ts "unfinished.ou").toOption.isNone) = some true := by decide +kernel
  cases ht : tokenize unfinished "unfinished.ou" with
  | error error => rw [ht] at hfails; cases hfails
  | ok ts =>
    cases hp : Program.ofTokens ts "unfinished.ou" with
    | ok p => simp [ht, hp, Except.toOption] at hfails
    | error error => exact ⟨ts, error, rfl, hp, refused_at_first_misfit ht hp⟩

end Cpl
