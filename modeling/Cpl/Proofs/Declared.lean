import Cpl.Proofs.Growth
import Cpl.Proofs.Meaning
import Cpl.Proofs.Names

/-!
# Declared names

The declarations of a program leave the declared names with their types in the symbols, and nothing
else (`Program.get?_of_declareAll`). Code for the body is emitted only if all its names are found there
or among the temporaries that have been added since (`Statement.known` and the lemmas before it). A name
that is not declared is rejected, then, unless it is the name of such a temporary
(`Program.usesDeclared_iff`, with an example).
-/

namespace Cpl

open Emit

/-! ## Declarations -/

section

variable {c c' : Compilation} {value : Unit}

theorem Symbols.get?_withDeclared (s : Symbols) (name : String) (type : NumType) (x : String) :
    (s.withDeclared name type).get? x =
      if name = x then some ⟨name, type, false⟩ else s.get? x := by
  simp only [withDeclared, get?, List.find?_cons]
  split <;> simp_all

/-- The symbol of a declared name. -/
def declaredSymbol (declared : List (String × NumType)) (name : String) : Option Symbol :=
  (declared.lookup name).map fun type => ⟨name, type, false⟩

theorem declaredSymbol_cons (first : String) (type : NumType) (rest : List (String × NumType))
    (name : String) :
    declaredSymbol ((first, type) :: rest) name =
      if first = name then some ⟨name, type, false⟩ else declaredSymbol rest name := by
  rw [declaredSymbol, List.lookup_cons]
  by_cases h : first = name
  · simp [h]
  · have h' : (name == first) = false := beq_eq_false_iff_ne.mpr (Ne.symm h)
    simp [h, h', declaredSymbol]

theorem declaredSymbol_append (declared declared' : List (String × NumType)) (name : String) :
    declaredSymbol (declared ++ declared') name =
      (declaredSymbol declared name).or (declaredSymbol declared' name) := by
  rw [declaredSymbol, List.lookup_append, Option.map_or]
  rfl

/-- What was there before is kept, and the names are added with their type. -/
theorem get?_of_declareNames {type : NumType} {idents : List Ident}
    (h : (declareNames type idents).Gives c value c') (name : String) :
    c'.symbols.get? name = (c.symbols.get? name).or
      (declaredSymbol (idents.map fun ident => (ident.name, type)) name) := by
  induction idents generalizing c with
  | nil =>
    obtain ⟨-, rfl⟩ := gives_pure.mp h
    rw [List.map_nil, declaredSymbol, List.lookup_nil, Option.map_none, Option.or_none]
  | cons first rest ih =>
    obtain ⟨_, c₁, hd, hr⟩ := gives_bind.mp h
    obtain ⟨hn, rfl⟩ := gives_declare.mp hd
    rw [ih hr, List.map_cons, declaredSymbol_cons, Symbols.get?_withDeclared]
    by_cases he : first.name = name
    · subst he
      rw [if_pos rfl, if_pos rfl, Symbols.get?_eq_none.mpr hn]
      rfl
    · rw [if_neg he, if_neg he]

theorem get?_of_declareAll {declarations : List Declaration}
    (h : (declareAll declarations).Gives c value c') (name : String) :
    c'.symbols.get? name = (c.symbols.get? name).or (declaredSymbol
      (declarations.flatMap fun d => d.names.map fun ident => (ident.name, d.type)) name) := by
  induction declarations generalizing c with
  | nil =>
    obtain ⟨-, rfl⟩ := gives_pure.mp h
    rw [List.flatMap_nil, declaredSymbol, List.lookup_nil, Option.map_none, Option.or_none]
  | cons first rest ih =>
    obtain ⟨_, c₁, hf, hr⟩ := gives_bind.mp h
    rw [ih hr, get?_of_declareNames hf, List.flatMap_cons, declaredSymbol_append, Option.or_assoc]

end

namespace Program

variable {p : Program} {c : Compilation} {value : Unit} {name : String}

/-- After the declarations the symbols are the declared ones. -/
theorem get?_of_declareAll (h : (declareAll p.declarations).Gives .start value c) (name : String) :
    c.symbols.get? name = declaredSymbol p.declared name := by
  rw [Cpl.get?_of_declareAll h]
  rfl

/-- The types are those that the meaning of the program goes by. -/
theorem type?_of_declareAll (h : (declareAll p.declarations).Gives .start value c) (name : String) :
    c.symbols.type? name = p.scope name := by
  rw [Symbols.type?, get?_of_declareAll h, declaredSymbol, Option.map_map]
  exact Option.map_id_apply

/-- The declarations have the name. -/
def Declares (p : Program) (name : String) : Prop :=
  name ∈ p.declared.map Prod.fst

instance (p : Program) (name : String) : Decidable (p.Declares name) :=
  inferInstanceAs (Decidable (name ∈ p.declared.map Prod.fst))

theorem isSome_scope : (p.scope name).isSome ↔ p.Declares name := by
  rw [scope, List.lookup_isSome_iff, Declares, List.mem_map]
  simp only [beq_iff_eq, eq_comm (a := name)]

/-- All the names in the body are declared. -/
def UsesDeclared (p : Program) : Prop :=
  ∀ name ∈ p.body.names, p.Declares name

instance (p : Program) : Decidable p.UsesDeclared :=
  inferInstanceAs (Decidable (∀ name ∈ p.body.names, p.Declares name))

end Program

/-! ## Names in the body -/

/-- All the names are in the symbols. -/
def Symbols.Knows (s : Symbols) (names : List String) : Prop :=
  ∀ name ∈ names, (s.get? name).isSome

namespace Symbols.Knows

variable {s s' : Symbols} {names names' : List String}

theorem grows (h : s.Knows names) (hg : s.Grows s') : s'.Knows names := by
  intro name hname
  obtain ⟨symbol, hs⟩ := Option.isSome_iff_exists.mp (h name hname)
  exact Option.isSome_of_eq_some (hg.get? hs)

theorem append (h : s.Knows names) (h' : s.Knows names') : s.Knows (names ++ names') :=
  List.forall_mem_append.mpr ⟨h, h'⟩

theorem singleton {name : String} {symbol : Symbol} (h : s.get? name = some symbol) :
    s.Knows [name] :=
  List.forall_mem_singleton.mpr (Option.isSome_of_eq_some h)

end Symbols.Knows

mutual

/-- Each name was found when the factor was emitted, and symbols are not taken away. -/
theorem Expression.known : ∀ (e : Expression) {c c' : Compilation} {result : Emitted},
    e.emit.Gives c result c' → c'.symbols.Knows e.names
  | .term term, _, _, _, hg => term.known (Expression.gives_term.mp hg)
  | .chain left operator right, _, _, _, hg => by
    obtain ⟨r, c₁, l, c₂, joined, hr, hl, hj, rfl⟩ := Expression.gives_chain.mp hg
    have gl := (left.extends_emit.of_gives hl).symbols
    have gj := ((extends_arithmetic ..).of_gives hj).symbols
    exact ((left.known hl).grows gj).append ((right.known hr).grows (gl.trans gj))

theorem Term.known : ∀ (t : Term) {c c' : Compilation} {result : Emitted},
    t.emit.Gives c result c' → c'.symbols.Knows t.names
  | .factor factor, _, _, _, hg => factor.known (Term.gives_factor.mp hg)
  | .chain left operator right, _, _, _, hg => by
    obtain ⟨r, c₁, l, c₂, joined, hr, hl, hj, rfl⟩ := Term.gives_chain.mp hg
    have gl := (left.extends_emit.of_gives hl).symbols
    have gj := ((extends_arithmetic ..).of_gives hj).symbols
    exact ((left.known hl).grows gj).append ((right.known hr).grows (gl.trans gj))

theorem Factor.known : ∀ (f : Factor) {c c' : Compilation} {result : Emitted},
    f.emit.Gives c result c' → c'.symbols.Knows f.names
  | .name ident, _, _, _, hg => by
    obtain ⟨symbol, hs, rfl, -⟩ := Factor.gives_name.mp hg
    exact .singleton hs
  | .literal l, _, _, _, _ => List.forall_mem_nil _
  | .parens inner span, _, _, _, hg => inner.known (Factor.gives_parens.mp hg)
  | .cast type inner span, _, _, _, hg => by
    obtain ⟨e, c₁, last, he, hl, -⟩ := Factor.gives_cast.mp hg
    exact (inner.known he).grows ((extends_castTo ..).of_gives hl).symbols

end

mutual

theorem Condition.known : ∀ (b : Condition) {c c' : Compilation} {result : Emitted},
    b.emit.Gives c result c' → c'.symbols.Knows b.names
  | .clause clause, _, _, _, hg => clause.known (Condition.gives_clause.mp hg)
  | .or left right, _, _, _, hg => by
    obtain ⟨r, c₁, l, c₂, hr, hl, rfl, -⟩ := Condition.gives_or.mp hg
    have gl := (left.extends_emit.of_gives hl).symbols
    have gt := c₂.symbols.grows_temporary .int
    exact ((left.known hl).grows gt).append ((right.known hr).grows (gl.trans gt))

theorem Clause.known : ∀ (b : Clause) {c c' : Compilation} {result : Emitted},
    b.emit.Gives c result c' → c'.symbols.Knows b.names
  | .test test, _, _, _, hg => test.known (Clause.gives_test.mp hg)
  | .and left right, _, _, _, hg => by
    obtain ⟨r, c₁, l, c₂, hr, hl, rfl, -⟩ := Clause.gives_and.mp hg
    have gl := (left.extends_emit.of_gives hl).symbols
    have gt := c₂.symbols.grows_temporary .int
    exact ((left.known hl).grows gt).append ((right.known hr).grows (gl.trans gt))

theorem Test.known : ∀ (b : Test) {c c' : Compilation} {result : Emitted},
    b.emit.Gives c result c' → c'.symbols.Knows b.names
  | .compare left operator right, _, _, _, hg => by
    obtain ⟨l, c₁, r, c₂, joined, hl, hr, hj, -⟩ := Test.gives_compare.mp hg
    have gr := (right.extends_emit.of_gives hr).symbols
    have gj := ((extends_comparison ..).of_gives hj).symbols
    exact ((left.known hl).grows (gr.trans gj)).append ((right.known hr).grows gj)
  | .not inner span, _, _, _, hg => by
    obtain ⟨b, c₁, hb, rfl, -⟩ := Test.gives_not.mp hg
    exact (inner.known hb).grows (c₁.symbols.grows_temporary .int)

end

mutual

/-- So were the targets of assignments and inputs. -/
theorem Statement.known : ∀ (statement : Statement) {c c' : Compilation}
    {code : List Instruction}, statement.emit.Gives c code c' → c'.symbols.Knows statement.names
  | .assign target value span, _, _, _, hg => by
    obtain ⟨v, c₁, rest, hv, hr, -⟩ := Statement.gives_assign.mp hg
    have g := ((extends_assignment ..).of_gives hr).symbols
    obtain ⟨symbol, own, wide, hs, -⟩ := gives_assignment.mp hr
    exact (Symbols.Knows.singleton (g.get? hs)).append ((value.known hv).grows g)
  | .input target span, _, _, _, hg => by
    obtain ⟨symbol, hs, rfl, -⟩ := Statement.gives_input.mp hg
    exact .singleton hs
  | .output value span, _, _, _, hg => by
    obtain ⟨v, c₁, rest, hv, hr, -⟩ := Statement.gives_output.mp hg
    exact (value.known hv).grows ((extends_printing ..).of_gives hr).symbols
  | .ifThen condition body span, _, _, _, hg => by
    obtain ⟨b, c₁, t, hb, ht, -⟩ := Statement.gives_ifThen.mp hg
    have gt := (body.extends_emit.of_gives ht).symbols
    exact ((condition.known hb).grows gt).append (body.known ht)
  | .ifElse condition body other span, _, _, _, hg => by
    obtain ⟨b, c₁, t, c₂, e, hb, ht, he, -⟩ := Statement.gives_ifElse.mp hg
    have gt := (body.extends_emit.of_gives ht).symbols
    have ge := (other.extends_emit.of_gives he).symbols
    have hthen := ((condition.known hb).grows gt).append (body.known ht)
    exact (hthen.grows ge).append (other.known he)
  | .loop condition body span, _, _, _, hg => by
    obtain ⟨t, c₁, b, ht, hb, -⟩ := Statement.gives_loop.mp hg
    have g := (condition.extends_emit.of_gives hb).symbols
    exact (condition.known hb).append ((body.known ht).grows g)
  | .switch selector cases ⟨body, bodySpan⟩ span, _, _, _, hg => by
    obtain ⟨v, c₁, arms, c₂, d, hv, ha, hd, -⟩ := Statement.gives_switch.mp hg
    have ga := ((extends_emitCases cases _).of_gives ha).symbols
    have gd := ((Block.extends_emit _).of_gives hd).symbols
    have harms := ((selector.known hv).grows ga).append (known_cases cases ha)
    rw [Statement.names, Block.names]
    exact (harms.grows gd).append (known_statements body (Block.gives_iff.mp hd))
  | .leave span, _, _, _, _ => List.forall_mem_nil _
  | .block ⟨body, bodySpan⟩, _, _, _, hg => by
    rw [Statement.names, Block.names]
    exact known_statements body (Block.gives_iff.mp (Statement.gives_block.mp hg))

theorem known_statements : ∀ (body : List Statement) {c c' : Compilation}
    {code : List Instruction}, (emitStatements body).Gives c code c' →
      c'.symbols.Knows (statementsNames body)
  | [], _, _, _, _ => List.forall_mem_nil _
  | first :: rest, _, _, _, hg => by
    obtain ⟨f, c₁, r, hf, hr, -⟩ := gives_statements_cons.mp hg
    have g := ((extends_emitStatements rest).of_gives hr).symbols
    exact ((first.known hf).grows g).append (known_statements rest hr)

theorem known_cases : ∀ (cases : List Case) {selector : Operand} {c c' : Compilation}
    {code : List Instruction}, (emitCases selector cases).Gives c code c' →
      c'.symbols.Knows (casesNames cases)
  | [], _, _, _, _, _ => List.forall_mem_nil _
  | ⟨label, ⟨body, bodySpan⟩, span⟩ :: rest, _, _, _, _, hg => by
    obtain ⟨b, c₁, test, c₂, more, hb, ht, hm, -⟩ := gives_cases_cons.mp hg
    have gt := ((extends_caseTest ..).of_gives ht).symbols
    have gm := ((extends_emitCases rest _).of_gives hm).symbols
    have hbody := known_statements body (Block.gives_iff.mp hb)
    rw [casesNames_cons]
    exact (hbody.grows (gt.trans gm)).append (known_cases rest hm)

end

/-! ## Programs -/

/-- The name is that of a temporary. -/
def Symbols.hasTemporary (s : Symbols) (name : String) : Bool :=
  (s.get? name).any Symbol.isTemporary

namespace Program

/-- The symbols when all code has been emitted, or when this has failed. -/
def finalSymbols (p : Program) : Symbols :=
  (p.emit.on .start).2.symbols

variable {p : Program} {code : List Instruction} {c : Compilation} {name : String}

/-- A name that was found although it is not declared has been added since, as a temporary. -/
theorem hasTemporary_of_not_declares (h : p.emit.Gives .start code c) (hn : name ∈ p.body.names)
    (hd : ¬ p.Declares name) : (∃ n, name = temporaryName n) ∧ c.symbols.hasTemporary name := by
  obtain ⟨c₁, body, hdecl, hb, -, -⟩ := gives_emit.mp h
  rw [Block.names_eq] at hn
  obtain ⟨symbol, hs⟩ := Option.isSome_iff_exists.mp
    (known_statements _ (Block.gives_iff.mp hb) name hn)
  -- `c₁` has the declared names only
  have hnew : c₁.symbols.get? name = none := by
    rw [get?_of_declareAll hdecl, declaredSymbol, Option.map_eq_none_iff]
    rwa [← isSome_scope, Option.not_isSome_iff_eq_none] at hd
  obtain ⟨ht, hname⟩ := (p.body.extends_emit.of_gives hb).symbols.isTemporary hnew hs
  exact ⟨hname, by rw [Symbols.hasTemporary, hs]; exact ht⟩

/-- A declared name stays what it is, since no temporary takes its name. -/
theorem not_hasTemporary_of_declares (h : p.emit.Gives .start code c) (hd : p.Declares name) :
    ¬ c.symbols.hasTemporary name := by
  obtain ⟨c₁, body, hdecl, hb, -, -⟩ := gives_emit.mp h
  obtain ⟨type, ht⟩ := Option.isSome_iff_exists.mp (isSome_scope.mpr hd)
  have hs : c₁.symbols.get? name = some ⟨name, type, false⟩ := by
    rw [get?_of_declareAll hdecl, declaredSymbol]
    exact congrArg (Option.map _) ht
  rw [Symbols.hasTemporary, (p.body.extends_emit.of_gives hb).symbols.get? hs]
  exact Bool.false_ne_true

/-- Names in the body are looked up among all symbols, so the names of temporaries pass as well. In a
program that compiles, the names that are not declared are just those of temporaries, and all names are
declared exactly if those of the form `t0`, `t1` and so on are. -/
theorem usesDeclared_iff {q : Listing} (hq : p.compile = .ok q) :
    (∀ name ∈ p.body.names, ¬ p.Declares name ↔ p.finalSymbols.hasTemporary name) ∧
    (p.UsesDeclared ↔
      ∀ n, temporaryName n ∈ p.body.names → p.Declares (temporaryName n)) := by
  obtain ⟨code, c, h, -, -⟩ := compile_eq_ok.mp hq
  have hfinal : p.finalSymbols = c.symbols := by rw [finalSymbols, h.on_eq]
  rw [hfinal]
  refine ⟨fun name hn => ⟨fun hd => (hasTemporary_of_not_declares h hn hd).2, fun ht hd => ?_⟩,
    fun hp n hn => hp _ hn, fun hp name hn => ?_⟩
  · exact not_hasTemporary_of_declares h hd ht
  · by_contra hd
    obtain ⟨⟨n, rfl⟩, -⟩ := hasTemporary_of_not_declares h hn hd
    exact hd (hp n hn)

/-- The program `x: float; { x = 1 + 2; output(t0); }`. -/
def leaky : Program :=
  let span : Span := ⟨⟨0, "leaky.ou"⟩, ⟨0, "leaky.ou"⟩⟩
  let one : Expression := .term (.factor (.literal ⟨"1"⟩))
  { declarations := [⟨[⟨"x", span⟩], .float, span⟩]
    body := ⟨[.assign ⟨"x", span⟩ (.chain one ⟨"+", span.start⟩ (.factor (.literal ⟨"2"⟩))) span,
      .output (.term (.factor (.name ⟨"t0", span⟩))) span], span⟩ }

/-- The sum is in the temporary `t0`, and the output takes its value from there. -/
theorem leaky_compiles : leaky.compile = .ok ⟨[
      .quad (.arith .add .int) [.name "t0", .literal ⟨"1"⟩, .literal ⟨"2"⟩],
      .quad (.convert .float) [.name "t1", .name "t0"],
      .quad (.assign .float) [.name "x", .name "t1"],
      .quad (.convert .float) [.name "t2", .name "t0"],
      .quad (.print .float) [.name "t2"], .halt], []⟩ ∧
    "t0" ∈ leaky.body.names ∧ ¬ leaky.Declares "t0" ∧ ¬ leaky.UsesDeclared := by
  refine ⟨rfl, by decide, by decide, by decide⟩

theorem leaky_hasTemporary : ∃ q, leaky.compile = .ok q ∧
    (¬ leaky.Declares "t0" ↔ leaky.finalSymbols.hasTemporary "t0") ∧
    leaky.finalSymbols.hasTemporary "t0" ∧
    (leaky.UsesDeclared ↔
      ∀ n, temporaryName n ∈ leaky.body.names → leaky.Declares (temporaryName n)) := by
  obtain ⟨q, hq⟩ : ∃ q, leaky.compile = .ok q := ⟨_, rfl⟩
  obtain ⟨hname, hall⟩ := usesDeclared_iff hq
  have ht := hname "t0" (by decide)
  exact ⟨q, hq, ht, ht.mp (by decide), hall⟩

end Program

end Cpl
