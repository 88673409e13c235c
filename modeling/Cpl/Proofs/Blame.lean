import Cpl.Compile
import Cpl.Proofs.Acceptance
import Cpl.Proofs.Grammar.Origins
import Cpl.Proofs.Grammar.Soundness
import Cpl.Proofs.Lexicon
import Cpl.Proofs.Reports

/-!
# Diagnostics point into the text

When a text does not compile, the diagnostic is placed at one of its tokens, or at the character at which it
cannot be scanned.

Emitting code for a grammatical tree fails only with one of the objections to the tree, whatever the symbols
are: every value has a type when it is used, so types are never looked up in vain, and the operators are those
of the language (`Statement.codeOr` and the lemmas before it). Together with the origin of the objections, the
places of the tokens and what a report shows this gives `compileSource_error_points`.
-/

namespace Cpl

open Emit

/-! ## Operations -/

section

variable {α : Type} {c : Compilation}

/-- The step gives a value that has a type, by code without breaks, or ends with one of the diagnostics. -/
def Emit.ValueOr (step : Emit Emitted) (c : Compilation) (objections : List Diagnostic) : Prop :=
  step.Meets c (fun result c' => ∃ type, result.Yields c'.symbols type) (· ∈ objections)

/-- The step gives code whose open breaks lead to one of the diagnostics, or ends with one of them. -/
def Emit.CodeOr (step : Emit (List Instruction)) (c : Compilation) (objections : List Diagnostic) :
    Prop :=
  step.Meets c
    (fun code _ => ∀ position ∈ breaksOf code, ⟨.breakOutsideOfLoop, position⟩ ∈ objections)
    (· ∈ objections)

/-- A name is found, or else is unknown. -/
theorem meets_lookup (ident : Ident) :
    (lookup ident.name ident.span.start).Meets c
      (fun symbol c' => c' = c ∧ c.symbols.get? ident.name = some symbol) (· = ident.unknown) := by
  have h : (located ident.span.start (c.symbols.lookup ident.name)).Meets c
      (fun symbol c' => c' = c ∧ c.symbols.get? ident.name = some symbol) (· = ident.unknown) := by
    refine meets_located (fun symbol hs => ⟨rfl, Symbols.lookup_eq_ok_iff.mp hs⟩)
      fun problem hp => ?_
    rw [Symbols.lookup] at hp
    split at hp <;> cases hp
    rfl
  exact h

/-- A step whose one rule holds cannot fail. -/
theorem Emit.Meets.exists_gives {step : Emit α} {right : α → Compilation → Prop} {site : Site}
    {Γ : Scope} (h : step.Meets c right (Faults Γ [site])) (hs : site.Holds Γ) :
    ∃ value c', step.Gives c value c' ∧ right value c' := by
  rcases he : step.on c with ⟨error | value, c'⟩
  · obtain ⟨site', hm, hbroken, -⟩ := h.of_error he
    rw [List.mem_singleton.mp hm] at hbroken
    exact absurd hs hbroken
  · exact ⟨value, c', he, h.of_gives he⟩

variable {left right : Operand} {lt rt : NumType}

/-- With an operator of the language two values can be joined. -/
theorem exists_gives_arithmetic {operator : Operator}
    (ho : operator.symbol ∈ ["+", "-", "*", "/"]) (hl : c.symbols.typeOf left = .ok lt)
    (hr : c.symbols.typeOf right = .ok rt) :
    ∃ result c', (arithmetic operator left right).Gives c result c' ∧
      result.Yields c'.symbols (lt.unify rt) := by
  obtain ⟨result, c', hg, hy, -⟩ :=
    (meets_arithmetic operator hl hr : Meets _ _ _ (Faults (fun _ => none) _)).exists_gives ho
  exact ⟨result, c', hg, hy⟩

theorem exists_gives_comparison {operator : Operator}
    (ho : operator.symbol ∈ ["==", "!=", "<", ">", "<=", ">="])
    (hl : c.symbols.typeOf left = .ok lt) (hr : c.symbols.typeOf right = .ok rt) :
    ∃ result c', (comparison operator left right).Gives c result c' ∧
      breaksOf result.code = [] := by
  obtain ⟨result, c', hg, -, hb⟩ :=
    (meets_comparison operator hl hr : Meets _ _ _ (Faults (fun _ => none) _)).exists_gives ho
  exact ⟨result, c', hg, hb⟩

end

/-! ## Expressions and conditions -/

/-- The operands of a chain are emitted one after the other, the right one first, and then joined. -/
theorem valueOr_chain {right left : Emit Emitted} {c : Compilation} {rs ls : List Diagnostic}
    {operator : Operator} (ho : operator.symbol ∈ ["+", "-", "*", "/"]) (hr : right.ValueOr c rs)
    (hl : ∀ c₁, left.ValueOr c₁ ls) (hg : left.Extends) :
    Emit.ValueOr (do
      let r ← right
      let l ← left
      let result ← arithmetic operator l.value r.value
      return ⟨r.code ++ l.code ++ result.code, result.value⟩) c (ls ++ rs) := by
  refine hr.bind (fun r c₁ gr ⟨rt, yr⟩ => ?_) fun _ h => List.mem_append_right ls h
  refine (hl c₁).bind (fun l c₂ gl ⟨lt, yl⟩ => ?_) fun _ h => List.mem_append_left rs h
  have yr' := (hg.of_gives gl).symbols.typeOf yr.value
  obtain ⟨j, c₃, gj, yj⟩ := exists_gives_arithmetic ho yl.value yr'
  refine gj.bind_meets (meets_pure ⟨_, yj.value, ?_⟩)
  rw [breaksOf_append, breaksOf_append, yr.breaks, yl.breaks, yj.breaks]
  rfl

mutual

theorem Expression.valueOr : ∀ (e : Expression) {c : Compilation}, e.Grammatical →
    e.emit.ValueOr c e.objections
  | .term term, _, hg => term.valueOr hg
  | .chain left _ right, _, ⟨hl, ho, hr⟩ =>
    valueOr_chain (List.mem_append_left ["*", "/"] ho) (right.valueOr hr) (fun _ => left.valueOr hl)
      left.extends_emit

theorem Term.valueOr : ∀ (t : Term) {c : Compilation}, t.Grammatical →
    t.emit.ValueOr c t.objections
  | .factor factor, _, hg => factor.valueOr hg
  | .chain left _ right, _, ⟨hl, ho, hr⟩ =>
    valueOr_chain (List.mem_append_right ["+", "-"] ho) (right.valueOr hr)
      (fun _ => left.valueOr hl) left.extends_emit

theorem Factor.valueOr : ∀ (f : Factor) {c : Compilation}, f.Grammatical →
    f.emit.ValueOr c f.objections
  | .name ident, c, _ => by
    rw [Factor.emit, Factor.objections]
    refine (meets_lookup ident).bind ?_ fun _ h => List.mem_singleton.mpr h
    rintro symbol c' - ⟨rfl, hs⟩
    exact meets_pure ⟨symbol.type, Symbols.typeOf_name.mpr (Symbols.type?_of_get? hs), rfl⟩
  | .literal literal, _, _ => meets_pure ⟨literal.type, rfl, rfl⟩
  | .parens inner span, _, hg => inner.valueOr hg
  | .cast type inner span, c, hg => by
    rw [Factor.emit, Factor.objections]
    refine (inner.valueOr hg).bind (fun e c₁ _ ⟨own, ye⟩ => ?_) fun _ h => h
    obtain ⟨last, c₂, gl, yl⟩ := exists_gives_castTo type span.start ye.value
    refine gl.bind_meets (meets_pure ⟨type, yl.value, ?_⟩)
    rw [breaksOf_append, ye.breaks, yl.breaks, List.append_nil]

end

/-- The step gives code without breaks, or ends with one of the diagnostics. -/
def Emit.TruthOr (step : Emit Emitted) (c : Compilation) (objections : List Diagnostic) : Prop :=
  step.Meets c (fun result _ => breaksOf result.code = []) (· ∈ objections)

/-- "And" and "or" alike: the right side comes first, and the template itself cannot fail. -/
theorem truthOr_join {right left : Emit Emitted} {c : Compilation} {rs ls : List Diagnostic}
    {template : String → Operand → Operand → List Instruction}
    (ht : ∀ dest l r, breaksOf (template dest l r) = []) (hr : right.TruthOr c rs)
    (hl : ∀ c₁, left.TruthOr c₁ ls) :
    Emit.TruthOr (do
      let r ← right
      let l ← left
      let dest ← temporary .int
      return ⟨r.code ++ l.code ++ template dest l.value r.value, .name dest⟩) c (ls ++ rs) := by
  refine hr.bind (fun r c₁ _ br => ?_) fun _ h => List.mem_append_right ls h
  refine (hl c₁).bind (fun l c₂ _ bl => ?_) fun _ h => List.mem_append_left rs h
  refine Gives.bind_meets (gives_temporary.mpr ⟨rfl, rfl⟩) (meets_pure ?_)
  rw [breaksOf_append, breaksOf_append, br, bl, ht]
  rfl

mutual

theorem Condition.truthOr : ∀ (b : Condition) {c : Compilation}, b.Grammatical →
    b.emit.TruthOr c b.objections
  | .clause clause, _, hg => clause.truthOr hg
  | .or left right, _, ⟨hl, hr⟩ =>
    truthOr_join (fun _ _ _ => rfl) (right.truthOr hr) fun _ => left.truthOr hl

theorem Clause.truthOr : ∀ (b : Clause) {c : Compilation}, b.Grammatical →
    b.emit.TruthOr c b.objections
  | .test test, _, hg => test.truthOr hg
  | .and left right, _, ⟨hl, hr⟩ =>
    truthOr_join (fun _ _ _ => rfl) (right.truthOr hr) fun _ => left.truthOr hl

theorem Test.truthOr : ∀ (b : Test) {c : Compilation}, b.Grammatical →
    b.emit.TruthOr c b.objections
  | .compare left operator right, c, ⟨hl, ho, hr⟩ => by
    rw [Test.emit, Test.objections]
    refine (left.valueOr hl).bind (fun l c₁ gl ⟨lt, yl⟩ => ?_)
      fun _ h => List.mem_append_left _ h
    refine (right.valueOr hr).bind (fun r c₂ gr ⟨rt, yr⟩ => ?_)
      fun _ h => List.mem_append_right _ h
    have yl' := (right.extends_emit.of_gives gr).symbols.typeOf yl.value
    obtain ⟨j, c₃, gj, bj⟩ := exists_gives_comparison ho yl' yr.value
    refine gj.bind_meets (meets_pure ?_)
    rw [breaksOf_append, breaksOf_append, yl.breaks, yr.breaks, bj]
    rfl
  | .not inner span, c, hg => by
    rw [Test.emit, Test.objections]
    refine (inner.truthOr hg).bind (fun b c₁ _ bb => ?_) fun _ h => h
    refine Gives.bind_meets (gives_temporary.mpr ⟨rfl, rfl⟩) (meets_pure ?_)
    rw [breaksOf_append, bb]
    rfl

end

/-! ## Statements -/

/-- The target may be unknown, or INT when the value is FLOAT. -/
theorem codeOr_assignment {c : Compilation} {value : Operand} {own : NumType} (target : Ident)
    (position : Position) (hv : c.symbols.typeOf value = .ok own) :
    (assignment target value position).Meets c (fun code _ => breaksOf code = [])
      (· ∈ [target.unknown, ⟨.assignFloatToInt target.name, position⟩]) := by
  refine (meets_lookup target).bind ?_ ?_
  · rintro symbol c' - ⟨rfl, hs⟩
    refine (gives_typeOf.mpr ⟨hv, rfl⟩).bind_meets ?_
    split
    · exact meets_throw_bind (by simp)
    · obtain ⟨wide, c₁, hw, hb⟩ := exists_gives_widenTo c' symbol.type own value
      refine hw.bind_meets (meets_pure ?_)
      rw [breaksOf_append, hb]
      rfl
  · rintro _ rfl
    exact List.mem_cons_self

mutual

/-- A break in a loop or a switch is closed there; all others lead to objections. -/
theorem Statement.codeOr : ∀ (statement : Statement) {c : Compilation}, statement.Grammatical →
    statement.emit.CodeOr c statement.objections
  | .assign target value span, c, hg => by
    rw [Statement.emit, Statement.objections]
    refine (value.valueOr hg).bind (fun v c₁ _ ⟨own, yv⟩ => ?_) fun _ h => by simp [h]
    refine (codeOr_assignment target span.start yv.value).bind (fun code c₂ _ bc => ?_)
      fun _ h => List.mem_append_left value.objections h
    refine meets_pure fun position hp => ?_
    rw [breaksOf_append, yv.breaks, bc] at hp
    exact absurd hp List.not_mem_nil
  | .input target span, c, _ => by
    rw [Statement.emit, Statement.objections]
    refine (meets_lookup target).bind ?_ fun _ h => List.mem_singleton.mpr h
    exact fun symbol c' _ _ => meets_pure fun position hp => absurd hp List.not_mem_nil
  | .output value span, c, hg => by
    rw [Statement.emit, Statement.objections]
    refine (value.valueOr hg).bind (fun v c₁ _ ⟨own, yv⟩ => ?_) fun _ h => h
    obtain ⟨code, c₂, gc, bc⟩ := exists_gives_printing span.start yv.value
    refine gc.bind_meets (meets_pure fun position hp => ?_)
    rw [breaksOf_append, yv.breaks, bc] at hp
    exact absurd hp List.not_mem_nil
  | .ifThen condition body span, c, ⟨hb, ht⟩ => by
    rw [Statement.emit, Statement.objections]
    refine (condition.truthOr hb).bind (fun b c₁ _ bb => ?_) fun _ h => by simp [h]
    refine (body.codeOr ht).bind (fun t c₂ _ bt => ?_) fun _ h => by simp [h]
    refine meets_pure fun position hp => List.mem_append_right _ (bt position ?_)
    simpa only [breaksOf_append, breaksOf_jumpIfZero, bb, List.nil_append] using hp
  | .ifElse condition body other span, c, ⟨hb, ht, _, he⟩ => by
    rw [Statement.emit, Statement.objections]
    refine (condition.truthOr hb).bind (fun b c₁ _ bb => ?_) fun _ h => by simp [h]
    refine (body.codeOr ht).bind (fun t c₂ _ bt => ?_) fun _ h => by simp [h]
    refine (other.codeOr he).bind (fun e c₃ _ be => ?_) fun _ h => by simp [h]
    refine meets_pure fun position hp => ?_
    simp only [breaksOf_append, breaksOf_jumpIfZero, breaksOf_jump, bb, List.nil_append,
      List.append_nil, List.mem_append] at hp
    rcases hp with hp | hp
    · exact List.mem_append_left _ (List.mem_append_right _ (bt position hp))
    · exact List.mem_append_right _ (be position hp)
  | .loop condition body span, c, ⟨hb, ht⟩ => by
    rw [Statement.emit, Statement.objections]
    refine (body.codeOr ht).bind (fun t c₁ _ _ => ?_) fun _ h => by simp [h]
    refine (condition.truthOr hb).bind (fun b c₂ _ _ => ?_) fun _ h => by simp [h]
    refine meets_pure fun position hp => ?_
    rw [breaksOf_closeBreaks] at hp
    exact absurd hp List.not_mem_nil
  | .switch selector cases default span, c, ⟨hv, ha, hd⟩ => by
    rw [Statement.emit, Statement.objections]
    refine (selector.valueOr hv).bind (fun v c₁ _ ⟨own, yv⟩ => ?_) fun _ h => by simp [h]
    refine (codeOr_cases cases ha yv.value).bind (fun a c₂ _ _ => ?_) fun _ h => by simp [h]
    refine (default.codeOr hd).bind (fun d c₃ _ _ => ?_) fun _ h => by simp [h]
    refine meets_pure fun position hp => ?_
    rw [breaksOf_closeBreaks] at hp
    exact absurd hp List.not_mem_nil
  | .leave span, _, _ => meets_pure fun position hp => by
    rw [List.mem_singleton.mp hp, Statement.objections]
    exact List.mem_singleton_self _
  | .block block, _, hg => block.codeOr hg

theorem Block.codeOr : ∀ (block : Block) {c : Compilation}, block.Grammatical →
    block.emit.CodeOr c block.objections
  | ⟨body, _⟩, _, hg => codeOr_statements body hg

theorem codeOr_statements : ∀ (body : List Statement) {c : Compilation},
    statementsGrammatical body → (emitStatements body).CodeOr c (statementsObjections body)
  | [], _, _ => meets_pure fun _ hp => absurd hp List.not_mem_nil
  | first :: rest, c, ⟨hf, hr⟩ => by
    rw [emitStatements, statementsObjections]
    refine (first.codeOr hf).bind (fun f c₁ _ bf => ?_) fun _ h => by simp [h]
    refine (codeOr_statements rest hr).bind (fun r c₂ _ br => ?_) fun _ h => by simp [h]
    refine meets_pure fun position hp => ?_
    rw [breaksOf_append, List.mem_append] at hp
    rcases hp with hp | hp
    · exact List.mem_append_left _ (bf position hp)
    · exact List.mem_append_right _ (br position hp)

/-- The breaks in the arms are closed by the switch, whatever they are. -/
theorem codeOr_cases : ∀ (cases : List Case) {c : Compilation} {selector : Operand}
    {type : NumType}, casesGrammatical cases → c.symbols.typeOf selector = .ok type →
    (emitCases selector cases).Meets c (fun _ _ => True) (· ∈ casesObjections cases)
  | [], _, _, _, _, _ => meets_pure trivial
  | ⟨label, body, span⟩ :: rest, c, selector, type, ⟨_, hb, hr⟩, hs => by
    rw [emitCases, casesObjections]
    refine Gives.bind_meets (gives_temporary.mpr ⟨rfl, rfl⟩) ?_
    have g := c.symbols.grows_temporary .int
    refine (body.codeOr hb).bind (fun b c₁ gb _ => ?_) fun _ h => by simp [h]
    have g₁ := g.trans (body.extends_emit.of_gives gb).symbols
    obtain ⟨test, c₂, gt⟩ :=
      exists_gives_caseTest label c.symbols.fresh b.length span.start (g₁.typeOf hs)
    refine gt.bind_meets ?_
    have g₂ := g₁.trans ((extends_caseTest ..).of_gives gt).symbols
    refine (codeOr_cases rest hr (g₂.typeOf hs)).bind (fun m c₃ _ _ => ?_) fun _ h => by simp [h]
    exact meets_pure trivial

end

/-! ## Programs -/

namespace Program

variable {p : Program} {error : Diagnostic}

/-- Emission fails with one of the objections, or leaves a break open that leads to one. -/
theorem meets_objections (hg : p.Grammatical) :
    p.emit.Meets .start (fun _ _ => True) (· ∈ p.objections) := by
  have hstart : Symbols.empty.HasJust [] := ⟨fun _ => by simp [Symbols.empty, Symbols.contains],
    List.nodup_nil⟩
  refine (meets_declareAll p.declarations hstart).bind (fun _ c₁ _ _ => ?_) ?_
  · refine (p.body.codeOr hg.body).bind (fun code c₂ _ hb => ?_)
      fun _ h => List.mem_append_right _ h
    rw [findSome?_openBreak?]
    cases ho : breaksOf code with
    | nil => exact meets_pure trivial
    | cons position rest =>
      refine meets_throw (List.mem_append_right _ (hb position ?_))
      rw [ho]
      exact List.mem_cons_self
  · rintro _ ⟨before, ident, after, he, -, rfl⟩
    have hm : ident ∈ p.declarations.flatMap Declaration.names := by
      rw [List.nil_append] at he
      rw [he]
      exact List.mem_append_right before List.mem_cons_self
    obtain ⟨d, hd, hi⟩ := List.mem_flatMap.mp hm
    exact List.mem_append_left _ (List.mem_flatMap.mpr ⟨d, hd, List.mem_map_of_mem hi⟩)

theorem mem_objections_of_compile (hg : p.Grammatical) (h : p.compile = .error error) :
    error ∈ p.objections := by
  rcases he : p.emit.on .start with ⟨error' | code, c⟩
  · rw [compile_of_error he] at h
    cases h
    exact (meets_objections hg).of_error he
  · rw [compile_of_emit he] at h
    cases h

end Program

/-! ## Texts -/

section

variable {source file : String} {error : Diagnostic}

/-- A text that can be scanned and still does not compile has a token that the diagnostic is about. -/
theorem isAmong_of_compileSource {ts : List Token} (ht : tokenize source file = .ok ts)
    (h : compileSource source file = .error error) : error.IsAmong ts := by
  obtain ⟨init, mark, hts, hproper⟩ := proper_of_tokenize ht
  have hcursor : Cursor.ofTokens ts file = ⟨[], init, ⟨"EOF", ⟨mark, mark⟩⟩⟩ := by
    rw [hts, Cursor.ofTokens_concat init rfl]
    rfl
  have hon : (Cursor.ofTokens ts file).On ts := by
    refine ⟨by rw [hcursor, hts]; rfl, fun t hm hk => ?_⟩
    exact (lexical_of_tokenize ht hm (by rw [hk]; exact Kind.noConfusion)).exists_castType hk
  have hc : (Cursor.ofTokens ts file).Proper := by
    rw [hcursor]
    exact hproper
  have hwithin := Cursor.within_program _ hon
  have hends := Cursor.ends_program _ hc
  unfold compileSource Program.ofSource at h
  rw [ht] at h
  unfold Reading.Within at hwithin
  change (Program.ofTokens ts file >>= Program.compile) = .error error at h
  unfold Program.ofTokens at h
  cases hr : (Cursor.ofTokens ts file).program with
  | failed error' c =>
    rw [hr] at h hwithin
    cases h
    exact hwithin
  | done p c hlt =>
    rw [hr] at h hwithin hends
    exact hwithin.2 error (Program.mem_objections_of_compile hends.2.2 h)

/-- Problems of a compiler that builds wrong trees or wrong code, and of no text. -/
def Problem.isInternal : Problem → Bool
  | .invalidCast _ => true
  | .unknownOperation _ => true
  | .targetAsValue _ => true
  | .jumpBeforeFirstLine _ _ => true
  | _ => false

theorem Problem.isInternal_of_isOfToken {problem : Problem} (h : problem.isOfToken = true) :
    problem.isInternal = false := by
  cases problem <;> simp_all [isOfToken, isInternal]

/-- The diagnostic of a text that does not compile has the name of its file. Its offset is one at which a
character starts, or the end. There stands a character with which no token starts, and this is what it tells
of, or one of the tokens, the end being one of them; if it names a variable, then the token is this
variable. So the offset is on a line of the text, and the report shows this line. The diagnostic is never about a
problem that no text has. -/
theorem compileSource_error_points (hsize : Text.byteSize source.toList < UInt32.size)
    (h : compileSource source file = .error error) :
    error.position.file = file ∧
    (∃ before after, source.toList = before ++ after ∧
      Text.byteSize before = error.position.offset.toNat ∧
      ((∃ c rest, after = c :: rest ∧ Lexeme.next? after = none ∧
          error.problem = .unrecognisedToken c.toString) ∨
        ∃ ts t, tokenize source file = .ok ts ∧ t ∈ ts ∧ error.IsAbout t ∧ t.Heads after)) ∧
    (∃ place, Text.lineAt? source error.position.offset.toNat = some place ∧
      place.Locates source error.position.offset.toNat ∧
      ∀ shown, error.Shows shown source place) ∧
    error.problem.isInternal = false := by
  -- all but the report follows from where the diagnostic is placed and what it is about
  suffices hplace : ∃ before after, source.toList = before ++ after ∧
      error.position = .ofByte file (Text.byteSize before) ∧
      ((∃ c rest, after = c :: rest ∧ Lexeme.next? after = none ∧
          error.problem = .unrecognisedToken c.toString) ∨
        ∃ ts t, tokenize source file = .ok ts ∧ t ∈ ts ∧ error.IsAbout t ∧ t.Heads after) by
    obtain ⟨before, after, hsplit, hpos, hfound⟩ := hplace
    have hbytes : Text.byteSize source.toList = Text.byteSize before + Text.byteSize after := by
      rw [hsplit, Text.byteSize_append]
    have hoffset : error.position.offset.toNat = Text.byteSize before := by
      rw [hpos, Position.toNat_ofByte (by omega)]
    refine ⟨by rw [hpos]; rfl, ⟨before, after, hsplit, hoffset.symm, hfound⟩,
      error.exists_shows (by omega), ?_⟩
    rcases hfound with ⟨c, rest, -, -, hproblem⟩ | ⟨ts, t, -, -, habout, -⟩
    · rw [hproblem]
      rfl
    · exact Problem.isInternal_of_isOfToken habout.isOfToken
  cases ht : tokenize source file with
  | error error' =>
    obtain ⟨before, c, after, hsplit, hnone, rfl⟩ := obstacle_of_tokenize ht
    rw [compileSource, Program.ofSource, ht] at h
    cases h
    exact ⟨before, c :: after, hsplit, rfl, .inl ⟨c, after, rfl, hnone, rfl⟩⟩
  | ok ts =>
    obtain ⟨t, hm, habout⟩ := isAmong_of_compileSource ht h
    obtain ⟨before, after, hsplit, hstart, hheads⟩ := standsIn_of_tokenize ht hm
    exact ⟨before, after, hsplit, habout.position.trans hstart, .inr ⟨ts, t, rfl, hm, habout, hheads⟩⟩

end

/-- The variable `y` is not declared. Its line is indented and ends with a blank, and before it is a comment with a
character of two bytes. -/
def stray : String :=
  "x: int;\n\x7b\n\t/* à */ x = y; \n\x7d"

/-- The diagnostic is placed at the variable, and the report shows its line. -/
theorem stray_points :
    let error : Diagnostic := ⟨.unknownVariable "y", ⟨24, "stray.ou"⟩⟩
    Text.byteSize stray.toList < UInt32.size ∧ compileSource stray "stray.ou" = .error error ∧
    (∃ before after, stray.toList = before ++ after ∧ Text.byteSize before = 24 ∧
      ∃ ts t, tokenize stray "stray.ou" = .ok ts ∧ t ∈ ts ∧ error.IsAbout t ∧
        t.value = "y" ∧ t.Heads after) ∧
    (∃ place, Text.lineAt? stray 24 = some place ∧ place.Locates stray 24 ∧
      ∀ shown, error.Shows shown stray place) ∧
    "3 | /* à */ x = y;\n".toList ∈ Text.lines (error.report "stray.ou" stray).toList := by
  intro error
  have hsize : Text.byteSize stray.toList < UInt32.size := by decide +kernel
  have herror : compileSource stray "stray.ou" = .error error := by decide +kernel
  obtain ⟨-, ⟨before, after, hsplit, hbytes, hfound⟩, hplace, -⟩ :=
    compileSource_error_points hsize herror
  rcases hfound with ⟨c, rest, -, -, hproblem⟩ | ⟨ts, t, ht, hm, habout, hheads⟩
  · cases hproblem
  · exact ⟨hsize, herror, ⟨before, after, hsplit, hbytes, ts, t, ht, hm, habout,
      (habout.named rfl).2, hheads⟩, hplace, by decide +kernel⟩

end Cpl
