import Cpl.Compile
import Cpl.Proofs.Emission
import Cpl.Proofs.Grammar.Misfit

/-!
# Places do not matter

The places in a tree end up in diagnostics and in the texts of warnings, and nowhere else.

* `shown`: what is seen of a result if places are not looked at: a view of the value, or the problem;
* `Emit.Alike`: two steps that cannot be told apart by symbols, number of warnings and what they show.
  Every part of a tree is emitted like its bare tree (`Expression.alike_bare` and so on), so that trees
  with the same bare tree are emitted alike;
* `Program.shown_ofTokens`: tokens with the same words are read as such trees, or refused with the same
  problem;
* `compileSource_of_words`: so texts with the same words compile to the same code.
-/

namespace Cpl

open Emit

variable {α β γ δ : Type}

/-- What is seen of a result apart from places. -/
def shown (view : α → β) (r : Except Diagnostic α) : Except Problem β :=
  (r.map view).mapError Diagnostic.problem

@[simp] theorem shown_ok (view : α → β) (value : α) : shown view (.ok value) = .ok (view value) := rfl

@[simp] theorem shown_error (view : α → β) (error : Diagnostic) :
    shown view (.error error) = .error error.problem := rfl

/-- Results that show the same come about together. -/
theorem shown_eq_iff {view : α → β} {r r' : Except Diagnostic α} :
    shown view r = shown view r' ↔
      (∃ a a', r = .ok a ∧ r' = .ok a' ∧ view a = view a') ∨
        ∃ e e', r = .error e ∧ r' = .error e' ∧ e.problem = e'.problem := by
  cases r <;> cases r' <;> simp

/-- One computation after the other. -/
theorem shown_bind {view : α → β} {view' : γ → δ} {r r' : Except Diagnostic α}
    {f f' : α → Except Diagnostic γ} (h : shown view r = shown view r')
    (hf : ∀ a a', view a = view a' → shown view' (f a) = shown view' (f' a')) :
    shown view' (r >>= f) = shown view' (r' >>= f') := by
  rcases shown_eq_iff.mp h with ⟨a, a', rfl, rfl, ha⟩ | ⟨e, e', rfl, rfl, he⟩
  · exact hf a a' ha
  · exact congrArg Except.error he

/-! ## Steps that are alike -/

/-- What is seen of a compilation: the symbols and how many warnings there are. -/
def Compilation.outline (c : Compilation) : Symbols × Nat :=
  (c.symbols, c.warnings.length)

namespace Emit

/-- On compilations with the same outline the steps show the same and leave the same outline. -/
structure Alike (view : α → β) (step step' : Emit α) : Prop where
  on (c c' : Compilation) : c.outline = c'.outline →
    shown view (step.on c).1 = shown view (step'.on c').1 ∧
      (step.on c).2.outline = (step'.on c').2.outline

section

variable {view : α → β} {view' : γ → δ} {step step' step'' : Emit α}

theorem Alike.symm (h : Alike view step step') : Alike view step' step := by
  refine ⟨fun c c' hc => ?_⟩
  obtain ⟨hs, ho⟩ := h.on c' c hc.symm
  exact ⟨hs.symm, ho.symm⟩

theorem Alike.trans (h : Alike view step step') (h' : Alike view step' step'') :
    Alike view step step'' := by
  refine ⟨fun c c' hc => ?_⟩
  obtain ⟨hs, ho⟩ := h.on c c rfl
  obtain ⟨hs', ho'⟩ := h'.on c c' hc
  exact ⟨hs.trans hs', ho.trans ho'⟩

theorem alike_pure {value value' : α} (h : view value = view value') :
    Alike view (pure value) (pure value') :=
  ⟨fun _ _ hc => ⟨congrArg Except.ok h, hc⟩⟩

theorem alike_throw {error error' : Diagnostic} (h : error.problem = error'.problem) :
    Alike view (throw error) (throw error') :=
  ⟨fun _ _ hc => ⟨congrArg Except.error h, hc⟩⟩

theorem Alike.bind {next next' : α → Emit γ} (h : Alike view step step')
    (hn : ∀ value value', view value = view value' → Alike view' (next value) (next' value')) :
    Alike view' (step >>= next) (step' >>= next') := by
  refine ⟨fun c c' hc => ?_⟩
  obtain ⟨hs, ho⟩ := h.on c c' hc
  rw [on_bind, on_bind]
  generalize step.on c = ran at hs ho ⊢
  generalize step'.on c' = ran' at hs ho ⊢
  obtain ⟨r, d⟩ := ran
  obtain ⟨r', d'⟩ := ran'
  rcases shown_eq_iff.mp hs with ⟨value, value', rfl, rfl, hv⟩ | ⟨e, e', rfl, rfl, he⟩
  · exact (hn value value' hv).on d d' ho
  · exact ⟨congrArg Except.error he, ho⟩

/-- The same where the whole value is seen. -/
theorem Alike.bindSame {next next' : α → Emit γ} (h : Alike id step step')
    (hn : ∀ value, Alike view' (next value) (next' value)) :
    Alike view' (step >>= next) (step' >>= next') :=
  h.bind fun value value' hv => by
    obtain rfl : value = value' := hv
    exact hn value

end

/-! ## Operations -/

section

variable (position position' : Position)

/-- Where a problem is placed does not show. -/
theorem shown_mapError (r : Except Problem α) : shown id (r.mapError (⟨·, position⟩)) = r := by
  cases r <;> rfl

theorem alike_located (r : Except Problem α) :
    Alike id (located position r) (located position' r) := by
  refine ⟨fun c c' hc => ?_⟩
  rw [on_located, on_located, shown_mapError, shown_mapError]
  exact ⟨rfl, hc⟩

theorem alike_lookup (name : String) : Alike id (lookup name position) (lookup name position') := by
  refine ⟨fun c c' hc => ?_⟩
  rw [on_lookup, on_lookup, shown_mapError, shown_mapError, (Prod.mk.inj hc).1]
  exact ⟨rfl, hc⟩

theorem alike_typeOf (operand : Operand) :
    Alike id (typeOf operand position) (typeOf operand position') := by
  refine ⟨fun c c' hc => ?_⟩
  rw [on_typeOf, on_typeOf, shown_mapError, shown_mapError, (Prod.mk.inj hc).1]
  exact ⟨rfl, hc⟩

theorem alike_warn (message message' : String) : Alike id (warn message) (warn message') := by
  refine ⟨fun c c' hc => ?_⟩
  obtain ⟨hs, hw⟩ := Prod.mk.inj hc
  refine ⟨rfl, Prod.ext hs ?_⟩
  simp only [on_warn, Compilation.outline, List.length_append, List.length_singleton, hw]

theorem alike_temporary (type : NumType) : Alike id (temporary type) (temporary type) := by
  refine ⟨fun c c' hc => ?_⟩
  obtain ⟨hs, hw⟩ := Prod.mk.inj hc
  simp only [on_temporary, Compilation.outline, hs, hw, and_self]

theorem on_declare (name : String) (type : NumType) (c : Compilation) :
    (declare name type position).on c =
      match c.symbols.declare name type with
      | .ok symbols => (.ok (), { c with symbols })
      | .error problem => (.error ⟨problem, position⟩, c) := by
  change ((located position (c.symbols.declare name type)) >>=
    fun symbols => set { c with symbols }).on c = _
  rw [on_bind, on_located]
  cases c.symbols.declare name type <;> rfl

theorem alike_declare (name : String) (type : NumType) :
    Alike id (declare name type position) (declare name type position') := by
  refine ⟨fun c c' hc => ?_⟩
  obtain ⟨hs, hw⟩ := Prod.mk.inj hc
  rw [on_declare, on_declare, hs]
  cases c'.symbols.declare name type with
  | ok symbols => exact ⟨rfl, Prod.ext rfl hw⟩
  | error problem => exact ⟨rfl, hc⟩

end

section

variable (position position' : Position)

theorem alike_widenTo (common own : NumType) (value : Operand) :
    Alike id (widenTo common own value) (widenTo common own value) := by
  unfold widenTo
  split
  · exact alike_pure rfl
  · exact (alike_temporary _).bindSame fun _ => alike_pure rfl

theorem alike_widenPair (left right : Operand) :
    Alike id (widenPair left right position) (widenPair left right position') :=
  (alike_typeOf ..).bindSame fun _ => (alike_typeOf ..).bindSame fun _ =>
    (alike_widenTo ..).bindSame fun _ => (alike_widenTo ..).bindSame fun _ => alike_pure rfl

theorem alike_arithmetic (operator : Operator) (left right : Operand) :
    Alike id (arithmetic operator left right) (arithmetic operator.bare left right) :=
  (alike_widenPair ..).bindSame fun _ => (alike_temporary _).bindSame fun _ =>
    (alike_located ..).bindSame fun _ => alike_pure rfl

theorem alike_comparison (operator : Operator) (left right : Operand) :
    Alike id (comparison operator left right) (comparison operator.bare left right) :=
  (alike_widenPair ..).bindSame fun _ => (alike_temporary _).bindSame fun _ =>
    (alike_located ..).bindSame fun _ => alike_pure rfl

/-- The place shows in the text of the warning only. -/
theorem alike_castTo (type : NumType) (value : Operand) :
    Alike id (castTo type value position) (castTo type value position') := by
  refine (alike_typeOf ..).bindSame fun own => ?_
  split
  · exact (alike_warn ..).bindSame fun _ => alike_pure rfl
  · exact (alike_temporary _).bindSame fun _ => alike_pure rfl

theorem alike_assignment (target : Ident) (value : Operand) :
    Alike id (assignment target value position) (assignment target.bare value position') := by
  refine (alike_lookup ..).bindSame fun symbol => (alike_typeOf ..).bindSame fun own => ?_
  split
  · have refused : Alike id (throw ⟨.assignFloatToInt target.name, position⟩ : Emit PUnit)
        (throw ⟨.assignFloatToInt target.name, position'⟩) := alike_throw rfl
    exact refused.bindSame fun _ => (alike_widenTo ..).bindSame fun _ => alike_pure rfl
  · exact (alike_widenTo ..).bindSame fun _ => alike_pure rfl

theorem alike_printing (value : Operand) :
    Alike id (printing value position) (printing value position') :=
  (alike_typeOf ..).bindSame fun _ => (alike_widenTo ..).bindSame fun _ => alike_pure rfl

theorem alike_caseTest (selector : Operand) (label : Literal) (dest : String) (size : Nat) :
    Alike id (caseTest selector label dest size position)
      (caseTest selector label dest size position') :=
  (alike_widenPair ..).bindSame fun _ => (alike_located ..).bindSame fun _ => alike_pure rfl

theorem alike_declareNames (type : NumType) (names : List Ident) :
    Alike id (declareNames type names) (declareNames type (names.map Ident.bare)) := by
  induction names with
  | nil => exact alike_pure rfl
  | cons first rest ih => exact (alike_declare ..).bindSame fun _ => ih

theorem alike_declareAll (declarations : List Declaration) :
    Alike id (declareAll declarations) (declareAll (declarations.map Declaration.bare)) := by
  induction declarations with
  | nil => exact alike_pure rfl
  | cons first rest ih => exact (alike_declareNames ..).bindSame fun _ => ih

end

end Emit

/-! ## Expressions and conditions -/

mutual

/-- An expression is emitted like its bare tree. -/
theorem Expression.alike_bare : ∀ e : Expression, Alike id e.emit e.bare.emit
  | .term term => by
    rw [Expression.bare, Expression.emit, Expression.emit]
    exact term.alike_bare
  | .chain left operator right => by
    rw [Expression.bare, Expression.emit, Expression.emit]
    exact right.alike_bare.bindSame fun _ => left.alike_bare.bindSame fun _ =>
      (alike_arithmetic ..).bindSame fun _ => alike_pure rfl

theorem Term.alike_bare : ∀ t : Term, Alike id t.emit t.bare.emit
  | .factor factor => by
    rw [Term.bare, Term.emit, Term.emit]
    exact factor.alike_bare
  | .chain left operator right => by
    rw [Term.bare, Term.emit, Term.emit]
    exact right.alike_bare.bindSame fun _ => left.alike_bare.bindSame fun _ =>
      (alike_arithmetic ..).bindSame fun _ => alike_pure rfl

theorem Factor.alike_bare : ∀ f : Factor, Alike id f.emit f.bare.emit
  | .name ident => by
    rw [Factor.bare, Factor.emit, Factor.emit]
    exact (alike_lookup ..).bindSame fun _ => alike_pure rfl
  | .literal literal => by
    rw [Factor.bare, Factor.emit]
    exact alike_pure rfl
  | .parens inner span => by
    rw [Factor.bare, Factor.emit, Factor.emit]
    exact inner.alike_bare
  | .cast type inner span => by
    rw [Factor.bare, Factor.emit, Factor.emit]
    exact inner.alike_bare.bindSame fun _ => (alike_castTo ..).bindSame fun _ => alike_pure rfl

end

mutual

theorem Condition.alike_bare : ∀ b : Condition, Alike id b.emit b.bare.emit
  | .clause clause => by
    rw [Condition.bare, Condition.emit, Condition.emit]
    exact clause.alike_bare
  | .or left right => by
    rw [Condition.bare, Condition.emit, Condition.emit]
    exact right.alike_bare.bindSame fun _ => left.alike_bare.bindSame fun _ =>
      (alike_temporary _).bindSame fun _ => alike_pure rfl

theorem Clause.alike_bare : ∀ b : Clause, Alike id b.emit b.bare.emit
  | .test test => by
    rw [Clause.bare, Clause.emit, Clause.emit]
    exact test.alike_bare
  | .and left right => by
    rw [Clause.bare, Clause.emit, Clause.emit]
    exact right.alike_bare.bindSame fun _ => left.alike_bare.bindSame fun _ =>
      (alike_temporary _).bindSame fun _ => alike_pure rfl

theorem Test.alike_bare : ∀ b : Test, Alike id b.emit b.bare.emit
  | .compare left operator right => by
    rw [Test.bare, Test.emit, Test.emit]
    exact left.alike_bare.bindSame fun _ => right.alike_bare.bindSame fun _ =>
      (alike_comparison ..).bindSame fun _ => alike_pure rfl
  | .not inner span => by
    rw [Test.bare, Test.emit, Test.emit]
    exact inner.alike_bare.bindSame fun _ => (alike_temporary _).bindSame fun _ => alike_pure rfl

end

/-! ## Statements -/

namespace Instruction

/-- Without the place of an open break. -/
def bare : Instruction → Instruction
  | quad opcode operands => quad opcode operands
  | openBreak _ => openBreak Span.nowhere.start

/-- Code without the places of its open breaks. -/
def bareCode (code : List Instruction) : List Instruction :=
  code.map bare

@[simp] theorem bareCode_append (code rest : List Instruction) :
    bareCode (code ++ rest) = bareCode code ++ bareCode rest :=
  List.map_append

theorem length_eq_of_bareCode {code code' : List Instruction} (h : bareCode code = bareCode code') :
    code.length = code'.length := by
  simpa [bareCode] using congrArg List.length h

theorem closeBreaksFrom_bareCode (size : Nat) (code : List Instruction) :
    closeBreaksFrom size (bareCode code) = closeBreaksFrom size code := by
  induction code generalizing size with
  | nil => rfl
  | cons i code ih => cases i <;> simp [bareCode, bare, closeBreaksFrom, ← ih]

/-- Closed breaks have no places any more. -/
theorem closeBreaks_eq_of_bareCode {code code' : List Instruction}
    (h : bareCode code = bareCode code') : closeBreaks code = closeBreaks code' := by
  rw [closeBreaks, closeBreaks, ← closeBreaksFrom_bareCode, ← closeBreaksFrom_bareCode _ code', h,
    length_eq_of_bareCode h]

/-- Code without open breaks has no places. -/
theorem eq_of_bareCode {code code' : List Instruction} (h : bareCode code = bareCode code')
    (hopen : code.findSome? openBreak? = none) : code = code' := by
  have keeps (i : Instruction) (hi : i.openBreak? = none) : i.bare = i := by
    cases i with
    | quad opcode operands => rfl
    | openBreak position => cases hi
  have mark (i : Instruction) (hi : i.bare.openBreak? = none) : i.openBreak? = none := by
    cases i with
    | quad opcode operands => rfl
    | openBreak position => cases hi
  rw [List.findSome?_eq_none_iff] at hopen
  have hcode : bareCode code = code := by
    rw [bareCode, List.map_congr_left fun i hi => keeps i (hopen i hi), List.map_id']
  have hcode' : bareCode code' = code' := by
    refine (List.map_congr_left fun i hi => keeps i (mark i (hopen _ ?_))).trans (List.map_id' _)
    rw [← hcode, h]
    exact List.mem_map_of_mem hi
  rw [← hcode, h, hcode']

end Instruction

open Instruction

mutual

/-- A statement is emitted like its bare tree, up to the places of breaks that are still open. -/
theorem Statement.alike_bare : ∀ st : Statement, Alike bareCode st.emit st.bare.emit
  | .assign target value span => by
    rw [Statement.bare, Statement.emit, Statement.emit]
    exact value.alike_bare.bindSame fun _ => (alike_assignment ..).bindSame fun _ => alike_pure rfl
  | .input target span => by
    rw [Statement.bare, Statement.emit, Statement.emit]
    exact (alike_lookup ..).bindSame fun _ => alike_pure rfl
  | .output value span => by
    rw [Statement.bare, Statement.emit, Statement.emit]
    exact value.alike_bare.bindSame fun _ => (alike_printing ..).bindSame fun _ => alike_pure rfl
  | .ifThen condition body span => by
    rw [Statement.bare, Statement.emit, Statement.emit]
    refine condition.alike_bare.bindSame fun b => body.alike_bare.bind fun t t' ht => ?_
    rw [length_eq_of_bareCode ht]
    exact alike_pure (by rw [bareCode_append, bareCode_append _ t', ht])
  | .ifElse condition body other span => by
    rw [Statement.bare, Statement.emit, Statement.emit]
    refine condition.alike_bare.bindSame fun b => body.alike_bare.bind fun t t' ht =>
      other.alike_bare.bind fun e e' he => ?_
    rw [length_eq_of_bareCode ht, length_eq_of_bareCode he]
    exact alike_pure (by simp only [bareCode_append, ht, he])
  | .loop condition body span => by
    rw [Statement.bare, Statement.emit, Statement.emit]
    refine body.alike_bare.bind fun t t' ht => condition.alike_bare.bindSame fun b => ?_
    refine alike_pure (congrArg bareCode (closeBreaks_eq_of_bareCode ?_))
    simp only [bareCode_append, List.length_append, length_eq_of_bareCode ht, ht]
  | .switch selector cases default span => by
    rw [Statement.bare, Statement.emit, Statement.emit]
    refine selector.alike_bare.bindSame fun v => (alike_bareCases cases v.value).bind fun a a' ha =>
      default.alike_bare.bind fun d d' hd => ?_
    refine alike_pure (congrArg bareCode (closeBreaks_eq_of_bareCode ?_))
    simp only [bareCode_append, ha, hd]
  | .leave span => by
    rw [Statement.bare, Statement.emit, Statement.emit]
    exact alike_pure rfl
  | .block block => by
    rw [Statement.bare, Statement.emit, Statement.emit]
    exact block.alike_bare

theorem Block.alike_bare : ∀ b : Block, Alike bareCode b.emit b.bare.emit
  | ⟨body, span⟩ => by
    rw [Block.bare, Block.emit, Block.emit]
    exact alike_bareStatements body

theorem alike_bareStatements : ∀ body : List Statement,
    Alike bareCode (emitStatements body) (emitStatements (bareStatements body))
  | [] => by
    rw [bareStatements]
    exact alike_pure rfl
  | first :: rest => by
    rw [bareStatements, emitStatements, emitStatements]
    refine first.alike_bare.bind fun f f' hf => (alike_bareStatements rest).bind fun r r' hr => ?_
    exact alike_pure (by rw [bareCode_append, bareCode_append, hf, hr])

theorem alike_bareCases : ∀ (cases : List Case) (selector : Operand),
    Alike bareCode (emitCases selector cases) (emitCases selector (bareCases cases))
  | [], _ => by
    rw [bareCases]
    exact alike_pure rfl
  | ⟨label, body, span⟩ :: rest, selector => by
    rw [bareCases, emitCases, emitCases]
    refine (alike_temporary _).bindSame fun dest => body.alike_bare.bind fun b b' hb => ?_
    rw [length_eq_of_bareCode hb]
    refine (alike_caseTest ..).bindSame fun test => ?_
    refine (alike_bareCases rest selector).bind fun r r' hr => ?_
    exact alike_pure (by simp only [bareCode_append, hb, hr])

end

/-! ## Programs -/

namespace Program

theorem alike_bare (p : Program) : Alike id p.emit p.bare.emit := by
  refine (alike_declareAll _).bindSame fun _ => p.body.alike_bare.bind fun code code' hc => ?_
  cases hopen : code.findSome? openBreak? with
  | none =>
    obtain rfl := eq_of_bareCode hc hopen
    rw [hopen]
    exact alike_pure rfl
  | some position =>
    cases hopen' : code'.findSome? openBreak? with
    | none =>
      rw [← eq_of_bareCode hc.symm hopen', hopen'] at hopen
      cases hopen
    | some position' => exact alike_throw rfl

/-- Programs that are equal up to places compile to the same code with equally many warnings, or are
refused for the same reason. -/
theorem shown_compile {p p' : Program} (h : p.bare = p'.bare) :
    shown (fun q => (q.instructions, q.warnings.length)) p.compile =
      shown (fun q => (q.instructions, q.warnings.length)) p'.compile := by
  have alike : Alike id p.emit p'.emit := p.alike_bare.trans (h ▸ p'.alike_bare.symm)
  obtain ⟨hs, ho⟩ := alike.on .start .start rfl
  unfold compile
  generalize p.emit.on .start = ran at hs ho ⊢
  generalize p'.emit.on .start = ran' at hs ho ⊢
  obtain ⟨r, c⟩ := ran
  obtain ⟨r', c'⟩ := ran'
  rcases shown_eq_iff.mp hs with ⟨code, code', rfl, rfl, hcode⟩ | ⟨e, e', rfl, rfl, he⟩
  · obtain rfl : code = code' := hcode
    have hw : c.warnings.length = c'.warnings.length := congrArg Prod.snd ho
    dsimp only
    cases resolveAll code with
    | error problem => rfl
    | ok resolved => simp only [shown_ok, hw]
  · exact congrArg Except.error he

end Program

/-! ## Texts -/

theorem Reading.FailsWith.exists_result {m : Nat} {r : Reading α m} {problem : Problem}
    (h : r.FailsWith problem) : ∃ error, r.result = .error error ∧ error.problem = problem := by
  cases r with
  | done value c hc => exact h.elim
  | failed error c => exact ⟨error, rfl, h⟩

/-- The words ahead of a cursor decide what is read, up to places. -/
theorem Cursor.shown_program {c d : Cursor} (hc : c.Proper)
    (hf : c.finish.token.word = Kind.eof.word) (hw : c.words = d.words) :
    shown Program.bare c.program.result = shown Program.bare d.program.result := by
  cases hr : c.program.result with
  | ok p =>
    obtain ⟨c', q, hnil, hg⟩ := (c.ends_program hc).of_result_eq_ok hr
    have hwords : d.words = p.words ++ [Kind.eof.word] := by
      rw [← hw, q.words_eq, words, hnil, q.finish, hf]
      rfl
    obtain ⟨p', -, hok, hb⟩ := (p.readable hg d hwords).result_eq_ok
    rw [hok, shown_ok, shown_ok, hb]
  | error error =>
    -- the rules look no further than the token they blame, and up to it the words are the same
    obtain ⟨c', hfailed⟩ := Reading.eq_failed_of_result hr
    obtain ⟨ws, q, -, -, hfails⟩ := exists_of_program_eq_failed hc hfailed fun _ : Unit => d
    obtain ⟨rest, hrest⟩ := (c'.blamed error).words_eq_cons
    have hpre : ws ++ [(c'.blamed error).token.word] <+: d.words := by
      rw [← hw, q.words_eq, hrest]
      exact ⟨rest, by simp⟩
    obtain ⟨error', hr', hp⟩ := (hfails () hpre).exists_result
    rw [hr', shown_error, shown_error, hp]

section

variable {source source' file file' : String} {ts ts' : List Token}

theorem Program.shown_ofTokens (ht : tokenize source file = .ok ts)
    (ht' : tokenize source' file' = .ok ts') (hw : ts.map Token.word = ts'.map Token.word) :
    shown Program.bare (Program.ofTokens ts file) =
      shown Program.bare (Program.ofTokens ts' file') := by
  obtain ⟨init, mark, rfl, hproper⟩ := proper_of_tokenize ht
  obtain ⟨init', mark', rfl, -⟩ := proper_of_tokenize ht'
  refine Cursor.shown_program ?_ ?_ ?_
  · rw [Cursor.ofTokens_concat init rfl]
    exact hproper
  · rw [Cursor.ofTokens_concat init rfl]
    rfl
  · rw [Cursor.words_ofTokens_concat init rfl, Cursor.words_ofTokens_concat init' rfl, hw]

/-- Two texts with the same words, whatever their layout and the names of their files, compile to the same
code with equally many warnings, or are refused for the same reason. -/
theorem compileSource_of_words (ht : tokenize source file = .ok ts)
    (ht' : tokenize source' file' = .ok ts') (hw : ts.map Token.word = ts'.map Token.word) :
    (∃ q q', compileSource source file = .ok q ∧ compileSource source' file' = .ok q' ∧
      q.instructions = q'.instructions ∧ q.lines = q'.lines ∧
      q.warnings.length = q'.warnings.length) ∨
    ∃ error error', compileSource source file = .error error ∧
      compileSource source' file' = .error error' ∧ error.problem = error'.problem := by
  have hshown : shown (fun q => (q.instructions, q.warnings.length)) (compileSource source file) =
      shown (fun q => (q.instructions, q.warnings.length)) (compileSource source' file') := by
    simp only [compileSource, Program.ofSource, ht, ht']
    exact shown_bind (Program.shown_ofTokens ht ht' hw) fun _ _ => Program.shown_compile
  rcases shown_eq_iff.mp hshown with ⟨q, q', hq, hq', h⟩ | refused
  · obtain ⟨hi, hn⟩ := Prod.mk.inj h
    exact .inl ⟨q, q', hq, hq', hi, by rw [Listing.lines, Listing.lines, hi], hn⟩
  · exact .inr refused

end

/-- A program without layout. -/
def tight : String :=
  "x:float;\x7bx=static_cast<float>(x/2);\x7d"

/-- The same words with blanks, line ends and comments between them. -/
def loose : String :=
  "/* a half */ x : float ;\n\x7b\n\tx = static_cast<float> ( x //**/ 2 ) ;\n\x7d\n"

theorem compileSource_loose :
    ∃ ts ts', tokenize tight "tight.ou" = .ok ts ∧ tokenize loose "loose.ou" = .ok ts' ∧
      ts.map Token.word = ts'.map Token.word ∧
      ((∃ q q', compileSource tight "tight.ou" = .ok q ∧ compileSource loose "loose.ou" = .ok q' ∧
        q.instructions = q'.instructions ∧ q.lines = q'.lines ∧
        q.warnings.length = q'.warnings.length) ∨
      ∃ error error', compileSource tight "tight.ou" = .error error ∧
        compileSource loose "loose.ou" = .error error' ∧ error.problem = error'.problem) := by
  have hwords : (tokenize tight "tight.ou").toOption.map (List.map Token.word) =
      (tokenize loose "loose.ou").toOption.map (List.map Token.word) := by decide +kernel
  have hscans : (tokenize tight "tight.ou").isOk = true := by decide +kernel
  cases ht : tokenize tight "tight.ou" with
  | error error => rw [ht] at hscans; cases hscans
  | ok ts =>
    cases ht' : tokenize loose "loose.ou" with
    | error error => rw [ht, ht'] at hwords; cases hwords
    | ok ts' =>
      rw [ht, ht'] at hwords
      have hw := Option.some.inj hwords
      exact ⟨ts, ts', rfl, rfl, hw, compileSource_of_words ht ht' hw⟩

end Cpl
