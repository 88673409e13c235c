import Cpl.Proofs.Grammar.Passing
import Cpl.Proofs.Grammar.Procedures

/-!
# Progress

With fuel for six calls at each token ahead, and six more, each procedure comes to an end where its rule does
(`Procedure.follows_expression` and so on). A call that passes no token before it goes to a rule lower down, of which
there are less than six in a row, as the bounds on the fuel count.

A success has fewer tokens ahead than the rule started with (`Reading`), so in the same list it stands further on. No
rule can succeed without passing a token: `advance` does not pass the end token, but a rule that calls it
unseen goes on to expect a token of another kind.
-/

namespace Cpl

namespace Procedure

/-! ## Expressions and conditions -/

mutual

theorem follows_expression (c : Cursor) (fuel : Nat) (hfuel : 6 * c.remaining + 2 < fuel) :
    (expression fuel).Follows c c.expression := by
  obtain _ | fuel := fuel
  · omega
  rw [expression, Cursor.expression]
  refine (follows_term c fuel (by omega)).bind fun first c₁ h₁ => ?_
  exact (follows_expressionAfter c₁ (.term first) fuel (by omega)).weaken h₁
termination_by 6 * c.remaining + 2

theorem follows_expressionAfter (c : Cursor) (left : Expression) (fuel : Nat) (hfuel : 6 * c.remaining < fuel) :
    (expressionAfter left fuel).Follows c (c.expressionAfter left) := by
  obtain _ | fuel := fuel
  · omega
  rw [expressionAfter, Cursor.expressionAfter]
  refine follows_get ?_
  split
  · rename_i h
    have hlt := Cursor.remaining_next_lt (Kind.ne_eof_of_isAdditive h)
    refine follows_advance ?_
    refine (follows_term c.next fuel (by omega)).bind fun right c₁ h₁ => ?_
    exact (follows_expressionAfter c₁ _ fuel (by omega)).weaken _
  · exact follows_pure left _
termination_by 6 * c.remaining

theorem follows_term (c : Cursor) (fuel : Nat) (hfuel : 6 * c.remaining + 1 < fuel) :
    (term fuel).Follows c c.term := by
  obtain _ | fuel := fuel
  · omega
  rw [term, Cursor.term]
  refine (follows_factor c fuel (by omega)).bind fun first c₁ h₁ => ?_
  exact (follows_termAfter c₁ (.factor first) fuel (by omega)).weaken h₁
termination_by 6 * c.remaining + 1

theorem follows_termAfter (c : Cursor) (left : Term) (fuel : Nat) (hfuel : 6 * c.remaining < fuel) :
    (termAfter left fuel).Follows c (c.termAfter left) := by
  obtain _ | fuel := fuel
  · omega
  rw [termAfter, Cursor.termAfter]
  refine follows_get ?_
  split
  · rename_i h
    have hlt := Cursor.remaining_next_lt (Kind.ne_eof_of_isMultiplicative h)
    refine follows_advance ?_
    refine (follows_factor c.next fuel (by omega)).bind fun right c₁ h₁ => ?_
    exact (follows_termAfter c₁ _ fuel (by omega)).weaken _
  · exact follows_pure left _
termination_by 6 * c.remaining

theorem follows_factor (c : Cursor) (fuel : Nat) (hfuel : 6 * c.remaining < fuel) :
    (factor fuel).Follows c c.factor := by
  obtain _ | fuel := fuel
  · omega
  rw [Cursor.factor]
  -- the reading is split first, since it keeps the kind it finds for its bound
  split <;> rw [factor] <;> refine follows_get ?_
  case h_1 h =>
    simp only [h]
    exact follows_advance (follows_pure _ _)
  case h_2 h =>
    simp only [h]
    exact follows_advance (follows_pure _ _)
  case h_3 h =>
    have hlt := Cursor.next_lt h trivial
    simp only [h]
    refine follows_advance ?_
    refine (follows_expression c.next fuel (by omega)).bind fun inner c₁ h₁ => ?_
    refine (follows_expect c₁ .closeParen).bind fun _ c₂ h₂ => ?_
    exact follows_get (follows_pure _ _)
  case h_4 h =>
    have hlt := Cursor.next_lt h trivial
    simp only [h]
    refine follows_advance ?_
    cases c.token.castType with
    | error error => exact follows_throw error
    | ok type =>
      refine (follows_expect c.next .openParen).bind fun _ c₁ h₁ => ?_
      refine (follows_expression c₁ fuel (by omega)).bind fun inner c₂ h₂ => ?_
      refine (follows_expect c₂ .closeParen).bind fun _ c₃ h₃ => ?_
      exact follows_get (follows_pure _ _)
  case h_5 h₁ h₂ h₃ h₄ => split <;> first | contradiction | exact follows_throw _
termination_by 6 * c.remaining

end

mutual

theorem follows_condition (c : Cursor) (fuel : Nat) (hfuel : 6 * c.remaining + 5 < fuel) :
    (condition fuel).Follows c c.condition := by
  obtain _ | fuel := fuel
  · omega
  rw [condition, Cursor.condition]
  refine (follows_clause c fuel (by omega)).bind fun first c₁ h₁ => ?_
  exact (follows_conditionAfter c₁ (.clause first) fuel (by omega)).weaken h₁
termination_by 6 * c.remaining + 5

theorem follows_conditionAfter (c : Cursor) (left : Condition) (fuel : Nat) (hfuel : 6 * c.remaining < fuel) :
    (conditionAfter left fuel).Follows c (c.conditionAfter left) := by
  obtain _ | fuel := fuel
  · omega
  rw [conditionAfter, Cursor.conditionAfter]
  refine follows_get ?_
  split
  · rename_i h
    have hlt := Cursor.next_lt h trivial
    refine follows_advance ?_
    refine (follows_clause c.next fuel (by omega)).bind fun right c₁ h₁ => ?_
    exact (follows_conditionAfter c₁ _ fuel (by omega)).weaken _
  · exact follows_pure left _
termination_by 6 * c.remaining

theorem follows_clause (c : Cursor) (fuel : Nat) (hfuel : 6 * c.remaining + 4 < fuel) :
    (clause fuel).Follows c c.clause := by
  obtain _ | fuel := fuel
  · omega
  rw [clause, Cursor.clause]
  refine (follows_test c fuel (by omega)).bind fun first c₁ h₁ => ?_
  exact (follows_clauseAfter c₁ (.test first) fuel (by omega)).weaken h₁
termination_by 6 * c.remaining + 4

theorem follows_clauseAfter (c : Cursor) (left : Clause) (fuel : Nat) (hfuel : 6 * c.remaining < fuel) :
    (clauseAfter left fuel).Follows c (c.clauseAfter left) := by
  obtain _ | fuel := fuel
  · omega
  rw [clauseAfter, Cursor.clauseAfter]
  refine follows_get ?_
  split
  · rename_i h
    have hlt := Cursor.next_lt h trivial
    refine follows_advance ?_
    refine (follows_test c.next fuel (by omega)).bind fun right c₁ h₁ => ?_
    exact (follows_clauseAfter c₁ _ fuel (by omega)).weaken _
  · exact follows_pure left _
termination_by 6 * c.remaining

theorem follows_test (c : Cursor) (fuel : Nat) (hfuel : 6 * c.remaining + 3 < fuel) :
    (test fuel).Follows c c.test := by
  obtain _ | fuel := fuel
  · omega
  rw [test, Cursor.test]
  refine follows_get ?_
  split
  · rename_i h
    have hlt := Cursor.next_lt h trivial
    refine follows_advance ?_
    refine (follows_expectNoting c.next .openParen).bind fun _ c₁ h₁ => ?_
    refine (follows_condition c₁ fuel (by omega)).bind fun inner c₂ h₂ => ?_
    refine (follows_expect c₂ .closeParen).bind fun _ c₃ h₃ => ?_
    exact follows_get (follows_pure _ _)
  · refine (follows_expression c fuel (by omega)).bind fun left c₁ h₁ => ?_
    refine follows_get ?_
    have hle := c₁.remaining_next_le
    split
    · refine follows_advance ?_
      refine (follows_expression c₁.next fuel (by omega)).bind fun right c₂ h₂ => ?_
      exact follows_pure _ _
    · exact follows_throw _
termination_by 6 * c.remaining + 3

end

/-! ## Statements -/

theorem follows_ident (c : Cursor) : ident.Follows c c.ident := by
  refine (follows_expectNoting c .identifier).bind fun name c₁ h₁ => ?_
  exact follows_pure _ _

theorem follows_assignment (c : Cursor) (fuel : Nat) (hfuel : 6 * c.remaining < fuel) :
    (assignment fuel).Follows c c.assignment := by
  refine follows_get ?_
  refine (follows_ident c).bind fun target c₁ h₁ => ?_
  refine (follows_expectNoting c₁ .assignment).bind fun _ c₂ h₂ => ?_
  refine (follows_expression c₂ fuel (by omega)).bind fun value c₃ h₃ => ?_
  refine (follows_expect c₃ .semicolon).bind fun _ c₄ h₄ => ?_
  exact follows_get (follows_pure _ _)

theorem follows_input (c : Cursor) : input.Follows c c.input := by
  refine follows_advance ?_
  refine (follows_expect c.next .openParen).bind fun _ c₁ h₁ => ?_
  refine (follows_ident c₁).bind fun target c₂ h₂ => ?_
  refine (follows_expect c₂ .closeParen).bind fun _ c₃ h₃ => ?_
  refine (follows_expect c₃ .semicolon).bind fun _ c₄ h₄ => ?_
  exact follows_get (follows_pure _ _)

theorem follows_output (c : Cursor) (fuel : Nat) (hfuel : 6 * c.remaining < fuel) :
    (output fuel).Follows c c.output := by
  have hle := c.remaining_next_le
  refine follows_advance ?_
  refine (follows_expect c.next .openParen).bind fun _ c₁ h₁ => ?_
  refine (follows_expression c₁ fuel (by omega)).bind fun value c₂ h₂ => ?_
  refine (follows_expect c₂ .closeParen).bind fun _ c₃ h₃ => ?_
  refine (follows_expect c₃ .semicolon).bind fun _ c₄ h₄ => ?_
  exact follows_get (follows_pure _ _)

theorem follows_leave (c : Cursor) : leave.Follows c c.leave := by
  refine follows_advance ?_
  refine (follows_expect c.next .semicolon).bind fun _ c₁ h₁ => ?_
  exact follows_get (follows_pure _ _)

theorem follows_caseLabel (c : Cursor) : caseLabel.Follows c c.caseLabel := by
  refine (follows_expectNoting c .number).bind fun number c₁ h₁ => ?_
  dsimp only
  split
  · refine (follows_expect c₁ .colon).bind fun _ c₂ h₂ => ?_
    exact follows_pure _ _
  · exact follows_throw _

/-- Where the table points back to itself no fuel is enough. -/
theorem outcome_statement_of_any {table : FormTable} {c : Cursor} (h : table c.kind = some .any)
    (fuel : Nat) : (statement table fuel).outcome c = none := by
  induction fuel with
  | zero => rfl
  | succ fuel ih =>
    rw [statement, outcome_get, h]
    exact ih

/-- The table of the language never points back to itself. -/
theorem standard_ne_any (kind : Kind) : FormTable.standard kind ≠ some .any := by
  unfold FormTable.standard
  split <;> exact fun h => by cases h

mutual

theorem follows_statement (c : Cursor) (fuel : Nat) (hfuel : 6 * c.remaining + 2 < fuel) :
    (statement .standard fuel).Follows c (c.statement .standard) := by
  obtain _ | fuel := fuel
  · omega
  rw [statement, Cursor.statement]
  refine follows_get ?_
  rcases h : FormTable.standard c.kind with _ | form | _
  · exact follows_throw _
  · exact follows_formed c form fuel (by omega)
  · exact absurd h (standard_ne_any _)
termination_by 6 * c.remaining + 2

theorem follows_formed (c : Cursor) (form : Form) (fuel : Nat) (hfuel : 6 * c.remaining + 1 < fuel) :
    (formed .standard form fuel).Follows c (c.formed .standard form) := by
  obtain _ | fuel := fuel
  · omega
  cases form <;> rw [formed, Cursor.formed]
  case assignment => exact follows_assignment c fuel (by omega)
  case input => exact follows_input c
  case output => exact follows_output c fuel (by omega)
  case conditional => exact follows_conditional c fuel (by omega)
  case loop => exact follows_loop c fuel (by omega)
  case choice => exact follows_choice c fuel (by omega)
  case leave => exact follows_leave c
  case block => exact (follows_block c fuel (by omega)).bind fun _ _ _ => follows_pure _ _
termination_by 6 * c.remaining + 1

theorem follows_conditional (c : Cursor) (fuel : Nat) (hfuel : 6 * c.remaining < fuel) :
    (conditional .standard fuel).Follows c (c.conditional .standard) := by
  obtain _ | fuel := fuel
  · omega
  have hle := c.remaining_next_le
  rw [conditional, Cursor.conditional]
  refine follows_advance ?_
  refine (follows_expect c.next .openParen).bind fun _ c₁ h₁ => ?_
  refine (follows_condition c₁ fuel (by omega)).bind fun guard c₂ h₂ => ?_
  refine (follows_expect c₂ .closeParen).bind fun _ c₃ h₃ => ?_
  refine (follows_statement c₃ fuel (by omega)).bind fun body c₄ h₄ => ?_
  refine follows_get ?_
  split
  · rename_i h
    have hlt := Cursor.next_lt h trivial
    refine follows_advance ?_
    refine (follows_statement c₄.next fuel (by omega)).bind fun other c₅ h₅ => ?_
    exact follows_get (follows_pure _ _)
  · exact follows_pure _ _
termination_by 6 * c.remaining

theorem follows_loop (c : Cursor) (fuel : Nat) (hfuel : 6 * c.remaining < fuel) :
    (loop .standard fuel).Follows c (c.loop .standard) := by
  obtain _ | fuel := fuel
  · omega
  have hle := c.remaining_next_le
  rw [loop, Cursor.loop]
  refine follows_advance ?_
  refine (follows_expect c.next .openParen).bind fun _ c₁ h₁ => ?_
  refine (follows_condition c₁ fuel (by omega)).bind fun guard c₂ h₂ => ?_
  refine (follows_expect c₂ .closeParen).bind fun _ c₃ h₃ => ?_
  refine (follows_statement c₃ fuel (by omega)).bind fun body c₄ h₄ => ?_
  exact follows_get (follows_pure _ _)
termination_by 6 * c.remaining

theorem follows_choice (c : Cursor) (fuel : Nat) (hfuel : 6 * c.remaining < fuel) :
    (choice .standard fuel).Follows c (c.choice .standard) := by
  obtain _ | fuel := fuel
  · omega
  have hle := c.remaining_next_le
  rw [choice, Cursor.choice]
  refine follows_advance ?_
  refine (follows_expect c.next .openParen).bind fun _ c₁ h₁ => ?_
  refine (follows_expression c₁ fuel (by omega)).bind fun selector c₂ h₂ => ?_
  refine (follows_expect c₂ .closeParen).bind fun _ c₃ h₃ => ?_
  refine (follows_expect c₃ .openCurly).bind fun _ c₄ h₄ => ?_
  refine (follows_cases c₄ fuel (by omega)).bind fun arms c₅ h₅ => ?_
  refine follows_get ?_
  refine (follows_expectNoting c₅ .kwDefault).bind fun _ c₆ h₆ => ?_
  refine (follows_expect c₆ .colon).bind fun _ c₇ h₇ => ?_
  refine (follows_statements c₇ fuel (by omega)).bind fun body c₈ h₈ => ?_
  refine follows_get ?_
  refine (follows_expect c₈ .closeCurly).bind fun _ c₉ h₉ => ?_
  exact follows_get (follows_pure _ _)
termination_by 6 * c.remaining

theorem follows_cases (c : Cursor) (fuel : Nat) (hfuel : 6 * c.remaining < fuel) :
    (cases .standard fuel).Follows c (c.cases .standard) := by
  obtain _ | fuel := fuel
  · omega
  rw [cases, Cursor.cases]
  refine follows_get ?_
  split
  · rename_i h
    have hlt := Cursor.next_lt h trivial
    refine follows_advance ?_
    refine (follows_caseLabel c.next).bind fun label c₁ h₁ => ?_
    refine follows_get ?_
    refine (follows_statements c₁ fuel (by omega)).bind fun body c₂ h₂ => ?_
    refine follows_get ?_
    refine (follows_cases c₂ fuel (by omega)).bind fun arms c₃ h₃ => ?_
    exact follows_pure _ _
  · exact follows_pure [] _
termination_by 6 * c.remaining

theorem follows_block (c : Cursor) (fuel : Nat) (hfuel : 6 * c.remaining < fuel) :
    (block .standard fuel).Follows c (c.block .standard) := by
  obtain _ | fuel := fuel
  · omega
  rw [block, Cursor.block]
  refine follows_get ?_
  refine (follows_expectNoting c .openCurly).bind fun _ c₁ h₁ => ?_
  refine (follows_statements c₁ fuel (by omega)).bind fun body c₂ h₂ => ?_
  refine (follows_expectNoting c₂ .closeCurly).bind fun _ c₃ h₃ => ?_
  exact follows_get (follows_pure _ _)
termination_by 6 * c.remaining

theorem follows_statements (c : Cursor) (fuel : Nat) (hfuel : 6 * c.remaining + 3 < fuel) :
    (statements .standard fuel).Follows c (c.statements .standard) := by
  obtain _ | fuel := fuel
  · omega
  rw [statements, Cursor.statements]
  refine follows_get ?_
  split
  · exact follows_pure [] _
  · refine (follows_statement c fuel (by omega)).bind fun first c₁ h₁ => ?_
    refine (follows_statements c₁ fuel (by omega)).bind fun rest c₂ h₂ => ?_
    exact follows_pure _ _
termination_by 6 * c.remaining + 3

end

/-! ## Programs -/

theorem follows_furtherIdents (c : Cursor) (fuel : Nat) (hfuel : c.remaining < fuel) :
    (furtherIdents fuel).Follows c c.furtherIdents := by
  obtain _ | fuel := fuel
  · omega
  rw [furtherIdents, Cursor.furtherIdents]
  refine follows_get ?_
  split
  · rename_i h
    have hlt := Cursor.next_lt h trivial
    refine follows_advance ?_
    refine (follows_ident c.next).bind fun name c₁ h₁ => ?_
    refine (follows_furtherIdents c₁ fuel (by omega)).bind fun names c₂ h₂ => ?_
    exact follows_pure _ _
  · exact follows_pure [] _
termination_by c.remaining

theorem follows_numType (c : Cursor) : numType.Follows c c.numType := by
  unfold Cursor.numType
  split <;> refine follows_get ?_
  case h_1 h =>
    simp only [h]
    exact follows_advance (follows_pure _ _)
  case h_2 h =>
    simp only [h]
    exact follows_advance (follows_pure _ _)
  case h_3 h₁ h₂ => split <;> first | contradiction | exact follows_throw _

theorem follows_declaration (c : Cursor) (fuel : Nat) (hfuel : c.remaining < fuel) :
    (declaration fuel).Follows c c.declaration := by
  refine follows_get ?_
  refine (follows_ident c).bind fun first c₁ h₁ => ?_
  refine (follows_furtherIdents c₁ fuel (by omega)).bind fun names c₂ h₂ => ?_
  refine (follows_expectNoting c₂ .colon).bind fun _ c₃ h₃ => ?_
  refine (follows_numType c₃).bind fun type c₄ h₄ => ?_
  refine (follows_expect c₄ .semicolon).bind fun _ c₅ h₅ => ?_
  exact follows_get (follows_pure _ _)

theorem follows_declarations (c : Cursor) (fuel : Nat) (hfuel : c.remaining + 1 < fuel) :
    (declarations fuel).Follows c c.declarations := by
  obtain _ | fuel := fuel
  · omega
  rw [declarations, Cursor.declarations]
  refine follows_get ?_
  split
  · refine (follows_declaration c fuel (by omega)).bind fun first c₁ h₁ => ?_
    refine (follows_declarations c₁ fuel (by omega)).bind fun rest c₂ h₂ => ?_
    exact follows_pure _ _
  · exact follows_pure [] _
termination_by c.remaining + 1

theorem follows_program (c : Cursor) (fuel : Nat) (hfuel : 6 * c.remaining + 5 < fuel) :
    (program fuel).Follows c c.program := by
  refine (follows_declarations c fuel (by omega)).bind fun declarations c₁ h₁ => ?_
  refine (follows_block c₁ fuel (by omega)).bind fun body c₂ h₂ => ?_
  refine (follows_demand c₂ .eof (Cursor.misfit · _)).bind fun _ c₃ h₃ => ?_
  exact follows_pure _ _

end Procedure

/-! ## Places in the list -/

namespace Cursor

/-- Behind the current token are the tokens ahead, the end token among them. -/
theorem index_add_remaining (c : Cursor) : c.index + c.remaining + 1 = c.tokens.length := by
  simp [index, remaining, tokens, Nat.add_assoc]

theorem getElem?_tokens_index (c : Cursor) : c.tokens[c.index]? = some c.token := by
  obtain ⟨passed, ahead, finish⟩ := c
  cases ahead <;> simp [tokens, index, token]

theorem index_ofTokens (tokens : List Token) (file : String) : (ofTokens tokens file).index = 0 := by
  unfold ofTokens
  split
  · rfl
  · split <;> rfl

/-- A list that is closed by an end token is taken as it is, any other gets one. -/
theorem tokens_ofTokens (ts : List Token) (file : String) :
    (∃ last ∈ ts.getLast?, last.kind = .eof ∧ (ofTokens ts file).tokens = ts) ∨
      (∀ last ∈ ts.getLast?, last.kind ≠ .eof) ∧
        ∃ mark : EndMark, (ofTokens ts file).tokens = ts ++ [mark.token] := by
  unfold ofTokens
  split
  · rename_i hnone
    obtain rfl := List.getLast?_eq_none_iff.mp hnone
    refine .inr ⟨?_, _, rfl⟩
    intro last hlast
    cases hlast
  · rename_i last hlast
    split
    · rename_i heof
      obtain ⟨init, rfl⟩ := List.getLast?_eq_some_iff.mp hlast
      refine .inl ⟨last, hlast, heof, ?_⟩
      obtain ⟨kind, value, span⟩ := last
      obtain rfl : kind = .eof := heof
      simp [tokens, EndMark.token]
    · rename_i heof
      refine .inr ⟨?_, _, rfl⟩
      intro last' hlast'
      rw [hlast] at hlast'
      cases hlast'
      exact heof

end Cursor

namespace Procedure

variable {α : Type} {c : Cursor}

/-- With enough fuel the procedure comes to an end as the reading says, at a token of the same list that is not before
`c`; after a success it is behind `c`. -/
structure Progresses (p : Nat → Procedure α) (c : Cursor) (r : Reading α c.remaining) : Prop where
  outcome : ∀ fuel, 6 * (c.remaining + 1) ≤ fuel → (p fuel).outcome c = some (r.result, r.cursor)
  tokens : r.cursor.tokens = c.tokens
  valid : r.cursor.index < c.tokens.length
  current : c.tokens[r.cursor.index]? = some r.cursor.token
  notBack : c.index ≤ r.cursor.index
  further : ∀ x, r.result = .ok x → c.index < r.cursor.index

theorem progresses_of_follows {p : Nat → Procedure α} {r : Reading α c.remaining}
    (h : ∀ fuel, 6 * c.remaining + 5 < fuel → (p fuel).Follows c r) : Progresses p c r := by
  obtain ⟨-, hbefore⟩ := h _ (Nat.lt_succ_self _)
  have hlength := r.cursor.index_add_remaining
  rw [hbefore.tokens] at hlength
  have hcurrent := r.cursor.getElem?_tokens_index
  rw [hbefore.tokens] at hcurrent
  refine ⟨fun fuel hle => (h fuel (by omega)).outcome, hbefore.tokens, by omega, hcurrent,
    hbefore.index, ?_⟩
  intro x hx
  cases r with
  | done value c' hshorter =>
    -- in a list of one length, fewer tokens ahead are more tokens passed
    have hstart := c.index_add_remaining
    change c'.index + c'.remaining + 1 = _ at hlength
    change c.index < c'.index
    omega
  | failed error c' => cases hx

/-- From every cursor each rule comes to an end, and a success has passed a token. So every list of tokens, whatever
they are, is read to a program or to an error. -/
theorem rules_progress :
    (∀ c : Cursor,
      Progresses declaration c c.declaration ∧
      Progresses (block .standard) c (c.block .standard) ∧
      Progresses (statement .standard) c (c.statement .standard) ∧
      (∀ form, Progresses (formed .standard form) c (c.formed .standard form)) ∧
      Progresses expression c c.expression ∧
      Progresses term c c.term ∧
      Progresses factor c c.factor ∧
      Progresses condition c c.condition ∧
      Progresses clause c c.clause ∧
      Progresses test c c.test ∧
      Progresses (fun _ => numType) c c.numType) ∧
    ∀ ts file, let c := Cursor.ofTokens ts file
      c.index = 0 ∧
      ((∃ last ∈ ts.getLast?, last.kind = .eof ∧ c.tokens = ts) ∨
        (∀ last ∈ ts.getLast?, last.kind ≠ .eof) ∧
          ∃ mark : EndMark, c.tokens = ts ++ [mark.token]) ∧
      c.Before c.program.cursor ∧
      ∀ fuel, 6 * (c.remaining + 1) ≤ fuel →
        (program fuel).outcome c = some (Program.ofTokens ts file, c.program.cursor) := by
  refine ⟨fun c => ⟨?_, ?_, ?_, fun form => ?_, ?_, ?_, ?_, ?_, ?_, ?_, ?_⟩, fun ts file => ?_⟩
  · exact progresses_of_follows fun fuel h => follows_declaration c fuel (by omega)
  · exact progresses_of_follows fun fuel h => follows_block c fuel (by omega)
  · exact progresses_of_follows fun fuel h => follows_statement c fuel (by omega)
  · exact progresses_of_follows fun fuel h => follows_formed c form fuel (by omega)
  · exact progresses_of_follows fun fuel h => follows_expression c fuel (by omega)
  · exact progresses_of_follows fun fuel h => follows_term c fuel (by omega)
  · exact progresses_of_follows fun fuel h => follows_factor c fuel (by omega)
  · exact progresses_of_follows fun fuel h => follows_condition c fuel h
  · exact progresses_of_follows fun fuel h => follows_clause c fuel (by omega)
  · exact progresses_of_follows fun fuel h => follows_test c fuel (by omega)
  · exact progresses_of_follows fun _ _ => follows_numType c
  · have hprogram := follows_program (.ofTokens ts file)
    refine ⟨Cursor.index_ofTokens ts file, Cursor.tokens_ofTokens ts file,
      (hprogram _ (Nat.lt_succ_self _)).before, fun fuel hle => ?_⟩
    exact (hprogram fuel (by omega)).outcome

end Procedure

end Cpl
