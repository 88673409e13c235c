import Cpl.Proofs.Simulation.Expression

/-!
# Running the code of statements

The machine, running the code of a statement, does what the statement does. Its world `μ` agrees with the
world `w` of the statement (`Agrees`): declared names, input and output are the same, while the machine
also has temporaries. Main statements:

* `Runs.arrives`: if a statement runs to its end, the machine comes to the line where that end leads,
  in a world that agrees; by induction on the run.
* `Statement.exists_runs`: if the machine, started at the code of a statement, comes to a halt, then the
  statement runs to an end; by induction on the statement, and in a loop on the number of steps.

Between the tests of a switch the selector must stay where it is: code does not change a temporary that
was there before it (`Spares`).
-/

namespace Cpl

open Emit Machine Arithmetic

variable {A : Arithmetic} {Γ : Scope} {code : List Instruction} {exit n next : Nat}

/-! ## Worlds that agree -/

/-- The worlds agree on the declared names, and have the same input and output. -/
structure Agrees (Γ : Scope) (w μ : World A) : Prop where
  store : SameOn Γ w.store μ.store
  input : μ.input = w.input
  output : μ.output = w.output

namespace Agrees

variable {w μ μ' : World A}

theorem keeps {s : Symbols} (h : Agrees Γ w μ) (hk : Keeps s μ μ') (hc : s.Covers Γ) :
    Agrees Γ w μ' :=
  ⟨⟨fun hn => ((hk.sameOn hc).cell hn).trans (h.store.cell hn)⟩, hk.input.trans h.input,
    hk.output.trans h.output⟩

theorem set (h : Agrees Γ w μ) (slot : String) (type : NumType) (v : A.Val type) :
    Agrees Γ (w.set slot type v) (μ.set slot type v) := by
  refine ⟨⟨fun {name _} hn => ?_⟩, h.input, h.output⟩
  by_cases hs : name = slot
  · subst hs
    rw [World.set_store_self, World.set_store_self]
  · rw [World.set_store_of_ne _ _ _ _ hs, World.set_store_of_ne _ _ _ _ hs]
    exact h.store.cell hn

theorem print (h : Agrees Γ w μ) (v : A.Value) : Agrees Γ (w.print v) (μ.print v) := by
  refine ⟨h.store, h.input, ?_⟩
  rw [World.print, World.print, h.output]

theorem withInput (h : Agrees Γ w μ) (input : List A.Item) :
    Agrees Γ { w with input } { μ with input } :=
  ⟨h.store, rfl, h.output⟩

end Agrees

/-- Names of the symbols that are not declared, which are temporaries, keep their contents. -/
structure Spares (Γ : Scope) (s : Symbols) (μ μ' : World A) : Prop where
  store {name : String} : s.get? name ≠ none → Γ name = none → μ'.store name = μ.store name

namespace Spares

variable {s s' : Symbols} {μ μ' μ'' : World A}

theorem refl (Γ : Scope) (s : Symbols) (μ : World A) : Spares Γ s μ μ := ⟨fun _ _ => rfl⟩

theorem trans (h : Spares Γ s μ μ') (hg : s.Grows s') (h' : Spares Γ s' μ' μ'') :
    Spares Γ s μ μ'' := by
  refine ⟨fun hs hn => ?_⟩
  rw [h'.store (hg.get?_ne_none hs) hn, h.store hs hn]

theorem of_keeps (h : Keeps s μ μ') : Spares Γ s μ μ' := ⟨fun hs _ => h.store hs⟩

theorem set (μ : World A) {slot : String} {type : NumType} (hs : Γ slot = some type)
    (v : A.Val type) : Spares Γ s μ (μ.set slot type v) := by
  refine ⟨fun {name} _ hn => μ.set_store_of_ne slot type v ?_⟩
  rintro rfl
  rw [hs] at hn
  cases hn

end Spares

/-! ## Assignments, inputs and outputs -/

/-- Running from line `n` comes to line `next` in a world that agrees with the result, or gets stuck if
there is no result. The temporaries among the symbols are not changed. -/
def Executes (Γ : Scope) (code : List Instruction) (n : Nat) (μ : World A) (next : Nat) (s : Symbols) :
    Option (World A) → Prop :=
  Yields code n μ fun w' m μ' => m = next ∧ Agrees Γ w' μ' ∧ Spares Γ s μ μ'

section

variable {c c' : Compilation} {w μ : World A} {span : Span}

/-- The code of an expression, and the conversion of its value to a type that takes it. -/
theorem yields_widened {value : Expression} {c₁ : Compilation} {v wide : Emitted}
    {type own : NumType} (hv : value.emit.Gives c v c₁) (ho : c₁.symbols.typeOf v.value = .ok own)
    (ht : ¬ (type = .int ∧ own = .float)) (hw : (Emit.widenTo type own v.value).Gives c₁ wide c')
    (hc : c.symbols.Covers Γ) (hn : Γ.Has value.names) (ha : Agrees Γ w μ)
    (hp : Placed code exit n (v.code ++ wide.code)) :
    Yields code n μ (fun x m μ' => m = n + (v.code ++ wide.code).length ∧ Keeps c.symbols μ μ' ∧
        A.value μ'.store type wide.value = some x)
      ((value.eval Γ w.store).bind (Arithmetic.widenTo type)) := by
  obtain ⟨hpv, hpw⟩ := placed_append.mp hp
  rw [← value.eval_congr ha.store]
  refine Yields.bind (value.computes μ hv hc hn hpv) ?_
  rintro x _ μ₁ ⟨rfl, k₁, h₁⟩
  have hown : own = x.1 := Except.ok.inj (ho.symm.trans h₁.typeOf)
  obtain ⟨y, hy⟩ := exists_widenTo (hown ▸ ht)
  obtain ⟨μ₂, hr, k₂, h₂⟩ := reaches_widenTo hw hown h₁ hy hpw
  rw [hy, List.length_append, ← Nat.add_assoc]
  exact .value hr ⟨rfl, k₁.trans (value.extends_emit.of_gives hv).symbols k₂, h₂.value⟩

/-- An assignment: the value is computed, widened and stored. -/
theorem executes_assign {target : Ident} {value : Expression}
    (hs : Stands code exit n next (Statement.assign target value span).emit c c')
    (hc : c.symbols.Covers Γ) (hn : Γ.Has (Statement.assign target value span).names)
    (ha : Agrees Γ w μ) :
    Executes Γ code n μ next c.symbols ((Statement.assign target value span).effect? Γ w) := by
  obtain ⟨part, hg, hp, rfl⟩ := hs
  obtain ⟨v, c₁, rest, hv, hr, rfl⟩ := Statement.gives_assign.mp hg
  obtain ⟨symbol, own, wide, hsym, ho, ht, hw, rfl⟩ := gives_assignment.mp hr
  rw [Statement.names] at hn
  obtain ⟨type, htype⟩ := Option.isSome_iff_exists.mp (hn target.name List.mem_cons_self)
  have hcv := hc.grows (value.extends_emit.of_gives hv).symbols
  obtain rfl : symbol.type = type :=
    Option.some.inj ((Symbols.type?_of_get? hsym).symm.trans (hcv.type? htype))
  rw [← List.append_assoc, placed_append] at hp
  have he : (Statement.assign target value span).effect? Γ w =
      ((value.eval Γ w.store).bind (Arithmetic.widenTo symbol.type)).bind fun x =>
        some (w.set target.name symbol.type x) := by
    simp [Statement.effect?, htype, Option.bind_assoc]
  rw [he]
  refine Yields.bind (yields_widened hv ho ht hw hc
    (fun name h => hn name (List.mem_cons_of_mem _ h)) ha hp.1) ?_
  rintro x _ μ₁ ⟨rfl, k, hx⟩
  have hstep : step code ⟨n + (v.code ++ wide.code).length, μ₁⟩ =
      some ⟨n + (v.code ++ wide.code).length + 1, μ₁.set target.name symbol.type x⟩ :=
    step_on hp.2.1 (by simp [Opcode.exec, hx])
  refine .value (.single hstep) ⟨?_, ?_, ?_⟩
  · simp only [List.length_append, List.length_singleton]
    omega
  · exact (ha.keeps k hc).set target.name symbol.type x
  · exact (Spares.of_keeps k).trans (.refl _) (.set μ₁ htype x)

/-- Reading without input gets stuck. -/
theorem executes_input {target : Ident}
    (hs : Stands code exit n next (Statement.input target span).emit c c')
    (hc : c.symbols.Covers Γ) (hn : Γ.Has (Statement.input target span).names)
    (ha : Agrees Γ w μ) :
    Executes Γ code n μ next c.symbols ((Statement.input target span).effect? Γ w) := by
  obtain ⟨part, hg, hp, rfl⟩ := hs
  obtain ⟨symbol, hsym, -, rfl⟩ := Statement.gives_input.mp hg
  rw [Statement.names] at hn
  obtain ⟨type, htype⟩ := Option.isSome_iff_exists.mp (hn target.name List.mem_cons_self)
  obtain rfl : symbol.type = type :=
    Option.some.inj ((Symbols.type?_of_get? hsym).symm.trans (hc.type? htype))
  cases hi : w.input with
  | nil =>
    have he : (Statement.input target span).effect? Γ w = none := by
      simp [Statement.effect?, htype, hi]
    rw [he]
    exact Yields.stuck (.refl _ _) (stuck_of_exec hp.1 (by simp [Opcode.exec, ha.input, hi]))
  | cons item rest =>
    have he : (Statement.input target span).effect? Γ w =
        some ({ w with input := rest }.set target.name symbol.type (A.read symbol.type item)) := by
      simp [Statement.effect?, htype, hi]
    have hstep : step code ⟨n, μ⟩ = some ⟨n + 1,
        { μ with input := rest }.set target.name symbol.type (A.read symbol.type item)⟩ :=
      step_on hp.1 (by simp [Opcode.exec, ha.input, hi])
    rw [he]
    refine Yields.value (.single hstep) ⟨rfl, (ha.withInput rest).set _ _ _, ?_⟩
    exact ⟨fun hs' hn' => (Spares.set { μ with input := rest } htype _).store hs' hn'⟩

/-- An output: the value is computed, widened and printed. -/
theorem executes_output {value : Expression}
    (hs : Stands code exit n next (Statement.output value span).emit c c')
    (hc : c.symbols.Covers Γ) (hn : Γ.Has (Statement.output value span).names)
    (ha : Agrees Γ w μ) :
    Executes Γ code n μ next c.symbols ((Statement.output value span).effect? Γ w) := by
  obtain ⟨part, hg, hp, rfl⟩ := hs
  obtain ⟨v, c₁, rest, hv, hr, rfl⟩ := Statement.gives_output.mp hg
  obtain ⟨own, wide, ho, hw, rfl⟩ := gives_printing.mp hr
  rw [Statement.names] at hn
  rw [← List.append_assoc, placed_append] at hp
  have he : (Statement.output value span).effect? Γ w =
      ((value.eval Γ w.store).bind (Arithmetic.widenTo .float)).bind fun x =>
        some (w.print ⟨.float, x⟩) := by
    simp [Statement.effect?, Option.bind_assoc]
  rw [he]
  refine Yields.bind (yields_widened hv ho (by simp) hw hc hn ha hp.1) ?_
  rintro x _ μ₁ ⟨rfl, k, hx⟩
  have hstep : step code ⟨n + (v.code ++ wide.code).length, μ₁⟩ =
      some ⟨n + (v.code ++ wide.code).length + 1, μ₁.print ⟨.float, x⟩⟩ :=
    step_on hp.2.1 (by simp [Opcode.exec, hx])
  refine .value (.single hstep) ⟨?_, (ha.keeps k hc).print _, ?_⟩
  · simp only [List.length_append, List.length_singleton]
    omega
  · exact ⟨fun hs' hn' => (Spares.of_keeps k).store hs' hn'⟩

/-! ## Branches -/

/-- Running from line `n` goes on at one line or the other, as the result says, or gets stuck if there
is no result. The names of `s` are not changed. -/
def Branches (code : List Instruction) (n : Nat) (μ : World A) (yes no : Nat) (s : Symbols) :
    Option Bool → Prop :=
  Yields code n μ fun b m μ' => m = (if b then yes else no) ∧ Keeps s μ μ'

/-- The test of a condition and the conditional jump after it. -/
theorem Condition.branches {condition : Condition} {b : Emitted} {yes no : Nat}
    (hb : condition.emit.Gives c b c') (hg : Guarded code exit n yes no b)
    (hc : c.symbols.Covers Γ) (hn : Γ.Has condition.names) (ha : Agrees Γ w μ) :
    Branches code n μ yes no c.symbols (condition.eval Γ w.store) := by
  have h := condition.computes μ hb hc hn hg.placed
  rw [condition.eval_congr ha.store] at h
  obtain ⟨target, hf, hl⟩ := hg.jump
  cases he : condition.eval Γ w.store with
  | none =>
    rw [he] at h
    cases h with
    | stuck hr hs => exact Yields.stuck hr hs
  | some v =>
    rw [he] at h
    obtain ⟨_, μ', hr, rfl, hk, hv⟩ := h.reaches
    have hj := step_jumpIfZero hf hl hv.value
    rw [← hg.yes_eq] at hj
    exact Yields.value (hr.trans (.single hj)) ⟨rfl, hk⟩

/-! ## Selectors -/

/-- The operand holds the selector: it is the variable, or a temporary or literal with the value. -/
def Selector.HeldBy (Γ : Scope) (s : Symbols) (μ : World A) (operand : Operand) :
    Selector A → Prop
  | .named name => operand = .name name ∧ (Γ name).isSome
  | .value v => Holds s μ operand v ∧ ∀ name, operand = .name name → Γ name = none

namespace Selector.HeldBy

variable {s : Symbols} {operand : Operand} {selector : Selector A}

theorem read (h : selector.HeldBy Γ s μ operand) (hc : s.Covers Γ) (ha : Agrees Γ w μ) :
    ∃ v, selector.read Γ w.store = some v ∧ Holds s μ operand v := by
  cases selector with
  | named name =>
    obtain ⟨rfl, hd⟩ := h
    obtain ⟨type, ht⟩ := Option.isSome_iff_exists.mp hd
    refine ⟨⟨type, A.load type (w.store name)⟩, ?_, ?_⟩
    · rw [Selector.read, Arithmetic.lookup?, ht, Option.map_some]
    · refine ⟨Symbols.typeOf_name.mpr (hc.type? ht), ?_⟩
      rw [Arithmetic.value, ha.store.cell ht]
  | value v => exact ⟨v, rfl, h.1⟩

/-- Code that spares the temporaries leaves the selector where it is. -/
theorem spares {s' : Symbols} {μ' : World A} (h : selector.HeldBy Γ s μ operand)
    (hg : s.Grows s') (hs : Spares Γ s μ μ') : selector.HeldBy Γ s' μ' operand := by
  cases selector with
  | named name => exact h
  | value v =>
    obtain ⟨hv, hu⟩ := h
    refine ⟨⟨hg.typeOf hv.typeOf, ?_⟩, hu⟩
    cases operand with
    | name slot =>
      have hr := Symbols.get?_ne_none_of_type? (Symbols.typeOf_name.mp hv.typeOf)
      rw [← hv.value, Arithmetic.value, Arithmetic.value, hs.store hr (hu slot rfl)]
    | literal l => exact hv.value
    | jump target => exact hv.value

end Selector.HeldBy

/-- The code of a selector brings it into its operand. -/
theorem Expression.yields_selector {e : Expression} {v : Emitted} (hv : e.emit.Gives c v c')
    (hp : Placed code exit n v.code) (hc : c.symbols.Covers Γ) (hn : Γ.Has e.names)
    (ha : Agrees Γ w μ) :
    Yields code n μ (fun selector m μ' => m = n + v.code.length ∧ Keeps c.symbols μ μ' ∧
      selector.HeldBy Γ c'.symbols μ' v.value) (Selector.of? Γ w.store e) := by
  unfold Selector.of?
  split <;> rename_i hb
  · obtain rfl := e.value_of_bareName? hb hv hc
    exact .value (.refl _ _) ⟨rfl, .refl _ _, rfl, hn _ (e.mem_names_of_bareName? hb)⟩
  · rw [← e.eval_congr ha.store, Option.map_eq_bind]
    refine Yields.bind (e.computes μ hv hc hn hp) ?_
    rintro x _ μ' ⟨rfl, hk, hx⟩
    exact .value (.refl _ _) ⟨rfl, hk, hx, fun name => e.value_undeclared hb hv hc⟩

/-- The test of a case. Its slot is one that `c` does not have. -/
theorem Selector.branches {selector : Selector A} {operand : Operand} {label : Literal}
    {position : Position} {c₁ : Compilation} {pair : Pair} {yes no : Nat}
    (hh : selector.HeldBy Γ c.symbols μ operand) (hc : c.symbols.Covers Γ)
    (hgr : c.symbols.Grows c₁.symbols)
    (hw : (widenPair operand (.literal label) position).Gives c₁ pair c')
    (hg : Guarded code exit n yes no
      ⟨pair.code ++ [.quad (.compare .equal pair.type) [.name c.symbols.fresh, pair.left, pair.right]],
        .name c.symbols.fresh⟩)
    (ha : Agrees Γ w μ) :
    Branches code n μ yes no c.symbols (selector.test Γ w.store label) := by
  obtain ⟨v, hr, hv⟩ := hh.read hc ha
  obtain ⟨hpw, hpt⟩ := placed_append.mp hg.placed
  have hl : Holds c₁.symbols μ (.literal label) (A.number label) := by
    rw [A.number_eq]
    exact ⟨rfl, rfl⟩
  obtain ⟨μ₁, x, y, h₁, k₁, htype, hx, hy, vx, vy⟩ :=
    reaches_widenPair hw (hv.keeps hgr (.refl _ _)) hl hpw
  have ht : selector.test Γ w.store label = some (A.holds .equal pair.type x y) := by
    rw [Selector.test, hr]
    exact related_eq "==" htype hx hy
  have hset := step_compare hpt.1 vx.value vy.value
  have hd (b : Bool) : A.value (μ₁.set c.symbols.fresh .int (A.truth b)).store .int
      (.name c.symbols.fresh) = some (A.truth b) := by
    simp [Arithmetic.value]
  obtain ⟨target, hf, hl⟩ := hg.jump
  have hj := step_jumpIfZero hf hl (hd (A.holds .equal pair.type x y))
  rw [← hg.yes_eq, List.length_append, List.length_singleton, ← Nat.add_assoc] at hj
  rw [ht]
  refine Yields.value (h₁.trans (.head hset (.single hj))) ⟨rfl, ?_⟩
  exact ((Keeps.refl _ μ).trans hgr k₁).trans (.refl _) (.set μ₁ c.symbols.get?_fresh _ _)

end

/-! ## Running to an end -/

/-- The line to which an ending leads. -/
def Ending.line (next exit : Nat) : Ending → Nat
  | .next => next
  | .leave => exit

theorem Ending.line_self (ending : Ending) (next : Nat) : ending.line next next = next := by
  cases ending <;> rfl

/-- The names that occur in what is still to be run. -/
def Phrase.names : Phrase A → List String
  | .statement body => body.names
  | .sequence body => statementsNames body
  | .arms _ cases default => casesNames cases ++ statementsNames default.body

/-- The code of the phrase stands from line `n` to just before the line `next`. For the arms of a switch
the selector must be where the tests look for it. -/
def Phrase.Stands (Γ : Scope) (code : List Instruction) (exit n next : Nat) (c c' : Compilation)
    (μ : World A) : Phrase A → Prop
  | .statement body => Machine.Stands code exit n next body.emit c c'
  | .sequence body => Machine.Stands code exit n next (emitStatements body) c c'
  | .arms selector cases default => ∃ operand m c₁, selector.HeldBy Γ c.symbols μ operand ∧
      Machine.Stands code exit n m (emitCases operand cases) c c₁ ∧
      Machine.Stands code exit m next (emitStatements default.body) c₁ c'

theorem Machine.Stands.grows {emission : Emit (List Instruction)} {c c' : Compilation}
    (h : Stands code exit n next emission c c') (he : emission.Extends) :
    c.symbols.Grows c'.symbols := by
  obtain ⟨part, hg, -⟩ := h
  exact (he.of_gives hg).symbols

/-- A case is tested first; then come its body, if the test says so, and the arms after it. -/
theorem Phrase.Stands.arms_cons {selector : Selector A} {first : Case} {rest : List Case}
    {default : Block} {c c' : Compilation} {w μ : World A}
    (hs : (Phrase.arms selector (first :: rest) default).Stands Γ code exit n next c c' μ)
    (hc : c.symbols.Covers Γ) (ha : Agrees Γ w μ) :
    ∃ yes no c₁ c₂, Branches code n μ yes no c.symbols (selector.test Γ w.store first.label) ∧
      Machine.Stands code exit yes no (emitStatements first.body.body) (c.withTemporary .int) c₁ ∧
      c.symbols.Grows c₂.symbols ∧
      ∀ {μ'}, Spares Γ c.symbols μ μ' →
        (Phrase.arms selector rest default).Stands Γ code exit no next c₂ c' μ' := by
  obtain ⟨operand, m, d, hh, hcs, hd⟩ := hs
  obtain ⟨yes, no, c₁, pair, c₂, hb, hw, hg, hrest⟩ := hcs.consCase
  have g₁ := (c.symbols.grows_temporary .int).trans (hb.grows (extends_emitStatements _))
  have g₂ := g₁.trans ((extends_widenPair ..).of_gives hw).symbols
  exact ⟨yes, no, c₁, c₂, Selector.branches hh hc g₁ hw hg ha, hb, g₂, fun hsp =>
    ⟨operand, m, d, hh.spares g₂ hsp, hrest, hd⟩⟩

/-- Running from line `n` comes to the given line in a world that agrees with `w`, and the temporaries
among the symbols are not changed. -/
def Arrives (Γ : Scope) (s : Symbols) (code : List Instruction) (n : Nat) (μ : World A) (line : Nat)
    (w : World A) : Prop :=
  ∃ μ', Reaches code ⟨n, μ⟩ ⟨line, μ'⟩ ∧ Agrees Γ w μ' ∧ Spares Γ s μ μ'

section

variable {s s' : Symbols} {μ w w' : World A} {m line : Nat}

theorem Executes.arrives (h : Executes Γ code n μ next s (some w)) :
    Arrives Γ s code n μ next w := by
  obtain ⟨_, μ', hr, rfl, ha, hs⟩ := h.reaches
  exact ⟨μ', hr, ha, hs⟩

theorem Branches.arrives {yes no : Nat} {b : Bool} (h : Branches code n μ yes no s (some b))
    (hc : s.Covers Γ) (ha : Agrees Γ w μ) : Arrives Γ s code n μ (if b then yes else no) w := by
  obtain ⟨_, μ', hr, rfl, hk⟩ := h.reaches
  exact ⟨μ', hr, ha.keeps hk hc, .of_keeps hk⟩

/-- On from where the first run has arrived. -/
theorem Arrives.trans (h : Arrives Γ s code n μ m w) (hg : s.Grows s')
    (k : ∀ {μ'}, Agrees Γ w μ' → Spares Γ s μ μ' → Arrives Γ s' code m μ' line w') :
    Arrives Γ s code n μ line w' := by
  obtain ⟨μ', hr, ha, hs⟩ := h
  obtain ⟨μ'', hr', ha', hs'⟩ := k ha hs
  exact ⟨μ'', hr.trans hr', ha', hs.trans hg hs'⟩

theorem Arrives.mono (h : Arrives Γ s' code n μ line w) (hg : s.Grows s') :
    Arrives Γ s code n μ line w := by
  obtain ⟨μ', hr, ha, hs⟩ := h
  exact ⟨μ', hr, ha, (Spares.refl Γ s μ).trans hg hs⟩

/-- A jump after the code moves its end, but not the line to which breaks lead. -/
theorem Arrives.goes {ending : Ending} (h : Arrives Γ s code n μ (ending.line m exit) w)
    (hg : Goes code m line) : Arrives Γ s code n μ (ending.line line exit) w := by
  cases ending with
  | leave => exact h
  | next =>
    obtain ⟨μ', hr, ha, hs⟩ := h
    exact ⟨μ', hr.trans (.single (hg.step_eq μ')), ha, hs⟩

end

/-- If the phrase runs to an end, the machine comes to the line to which the end leads. -/
theorem Runs.arrives {phrase : Phrase A} {w w' : World A} {ending : Ending}
    (h : Runs Γ phrase w ending w') {exit n next : Nat} {c c' : Compilation} {μ : World A}
    (hs : phrase.Stands Γ code exit n next c c' μ) (hc : c.symbols.Covers Γ)
    (hn : Γ.Has phrase.names) (ha : Agrees Γ w μ) :
    Arrives Γ c.symbols code n μ (ending.line next exit) w' := by
  induction h generalizing exit n next c c' μ with
  | @act statement w w' he =>
    cases statement with
    | assign target value span =>
      have h := executes_assign hs hc hn ha
      rw [he] at h
      exact h.arrives
    | input target span =>
      have h := executes_input hs hc hn ha
      rw [he] at h
      exact h.arrives
    | output value span =>
      have h := executes_output hs hc hn ha
      rw [he] at h
      exact h.arrives
    | _ => cases he
  | ifThenTrue he hr ih =>
    obtain ⟨b, c₁, m, hb, hg, hbody⟩ := Stands.ifThen hs
    rw [Phrase.names, Statement.names, Scope.has_append] at hn
    have g := ((Condition.extends_emit _).of_gives hb).symbols
    have h := Condition.branches hb hg hc hn.1 ha
    rw [he] at h
    exact (h.arrives hc ha).trans g fun ha' _ => ih hbody (hc.grows g) hn.2 ha'
  | ifThenFalse he =>
    obtain ⟨b, c₁, m, hb, hg, -⟩ := Stands.ifThen hs
    rw [Phrase.names, Statement.names, Scope.has_append] at hn
    have h := Condition.branches hb hg hc hn.1 ha
    rw [he] at h
    exact h.arrives hc ha
  | ifElseTrue he hr ih =>
    obtain ⟨b, c₁, m, l, k, c₂, hb, hg, hbody, hgo, -⟩ := Stands.ifElse hs
    rw [Phrase.names, Statement.names, Scope.has_append, Scope.has_append] at hn
    have g := ((Condition.extends_emit _).of_gives hb).symbols
    have h := Condition.branches hb hg hc hn.1.1 ha
    rw [he] at h
    refine (h.arrives hc ha).trans g fun ha' _ => ?_
    exact (ih hbody (hc.grows g) hn.1.2 ha').goes hgo
  | ifElseFalse he hr ih =>
    obtain ⟨b, c₁, m, l, k, c₂, hb, hg, hbody, -, hother⟩ := Stands.ifElse hs
    rw [Phrase.names, Statement.names, Scope.has_append, Scope.has_append] at hn
    have g := ((Condition.extends_emit _).of_gives hb).symbols.trans
      (hbody.grows (Statement.extends_emit _))
    have h := Condition.branches hb hg hc hn.1.1 ha
    rw [he] at h
    exact (h.arrives hc ha).trans g fun ha' _ => ih hother (hc.grows g) hn.2 ha'
  | loopFalse he =>
    obtain ⟨b, c₁, m, k, hb, hg, hbody, -⟩ := Stands.loop hs
    rw [Phrase.names, Statement.names, Scope.has_append] at hn
    have g := hbody.grows (Statement.extends_emit _)
    have h := Condition.branches hb hg (hc.grows g) hn.1 ha
    rw [he] at h
    exact (h.arrives (hc.grows g) ha).mono g
  | loopLeave he hr ih =>
    obtain ⟨b, c₁, m, k, hb, hg, hbody, -⟩ := Stands.loop hs
    rw [Phrase.names, Statement.names, Scope.has_append] at hn
    have g := hbody.grows (Statement.extends_emit _)
    have h := Condition.branches hb hg (hc.grows g) hn.1 ha
    rw [he] at h
    exact ((h.arrives (hc.grows g) ha).mono g).trans (.refl _) fun ha' _ => ih hbody hc hn.2 ha'
  | loopAgain he hr hr' ih ih' =>
    -- the body, the jump back, and the same loop once more
    obtain ⟨b, c₁, m, k, hb, hg, hbody, hgo⟩ := Stands.loop hs
    have hn' := hn
    rw [Phrase.names, Statement.names, Scope.has_append] at hn'
    have g := hbody.grows (Statement.extends_emit _)
    have h := Condition.branches hb hg (hc.grows g) hn'.1 ha
    rw [he] at h
    refine ((h.arrives (hc.grows g) ha).mono g).trans (.refl _) fun ha' _ => ?_
    exact ((ih hbody hc hn'.2 ha').goes hgo).trans (.refl _) fun ha'' _ => ih' hs hc hn ha''
  | switch he hr ih =>
    obtain ⟨v, c₁, m, c₂, hv, hp, hcs, hd⟩ := Stands.switch hs
    rw [Phrase.names, Statement.names, Scope.has_append, Scope.has_append, Block.names_eq] at hn
    have g := ((Expression.extends_emit _).of_gives hv).symbols
    have h := Expression.yields_selector hv hp hc hn.1.1 ha
    rw [he] at h
    obtain ⟨_, μ₁, hr₁, rfl, hk, hh⟩ := h.reaches
    -- next statement and exit of the arms are the same line, so their ending does not matter
    have hend := ih ⟨_, m, c₂, hh, hcs, hd⟩ (hc.grows g)
      (Scope.has_append.mpr ⟨hn.1.2, hn.2⟩) (ha.keeps hk hc)
    rw [Ending.line_self] at hend
    obtain ⟨μ₂, hr₂, ha₂, hs₂⟩ := hend
    exact ⟨μ₂, hr₁.trans hr₂, ha₂, (Spares.of_keeps hk).trans g hs₂⟩
  | leave =>
    exact ⟨μ, .single ((Stands.leave hs).step_eq μ), ha, .refl _ _ _⟩
  | block hr ih =>
    rw [Phrase.names, Statement.names, Block.names_eq] at hn
    exact ih (Stands.block hs) hc hn ha
  | nil =>
    obtain rfl := Stands.nil hs
    exact ⟨μ, .refl _ _, ha, .refl _ _ _⟩
  | cons hr hr' ih ih' =>
    obtain ⟨m, c₁, hf, hrest⟩ := Stands.cons hs
    rw [Phrase.names, statementsNames, Scope.has_append] at hn
    have g := hf.grows (Statement.extends_emit _)
    exact (ih hf hc hn.1 ha).trans g fun ha' _ => ih' hrest (hc.grows g) hn.2 ha'
  | consLeave hr ih =>
    obtain ⟨m, c₁, hf, -⟩ := Stands.cons hs
    rw [Phrase.names, statementsNames, Scope.has_append] at hn
    -- The first statement has another end, but both are left to the same line.
    have h := ih hf hc hn.1 ha
    exact h
  | default hr ih =>
    obtain ⟨operand, m, c₁, -, hcs, hd⟩ := hs
    obtain ⟨rfl, rfl⟩ := hcs.noCases
    rw [Phrase.names, Scope.has_append] at hn
    exact ih hd hc hn.2 ha
  | caseFalse he hr ih =>
    obtain ⟨yes, no, c₁, c₂, h, hb, g, hrest⟩ := Phrase.Stands.arms_cons hs hc ha
    rw [Phrase.names, casesNames_cons, List.append_assoc, Scope.has_append] at hn
    rw [he] at h
    exact (h.arrives hc ha).trans g fun ha' hsp => ih (hrest hsp) (hc.grows g) hn.2 ha'
  | caseTrue he hr hr' ih ih' =>
    obtain ⟨yes, no, c₁, c₂, h, hb, g, hrest⟩ := Phrase.Stands.arms_cons hs hc ha
    rw [Phrase.names, casesNames_cons, List.append_assoc, Scope.has_append] at hn
    rw [he] at h
    -- the body is emitted with the slot of the test already taken
    have g₀ := c.symbols.grows_temporary .int
    have hbody := (h.arrives hc ha).trans g₀ fun ha' _ => ih hb (hc.grows g₀) hn.1 ha'
    exact hbody.trans g fun ha' hsp => ih' (hrest hsp) (hc.grows g) hn.2 ha'
  | caseLeave he hr ih =>
    obtain ⟨yes, no, c₁, c₂, h, hb, g, -⟩ := Phrase.Stands.arms_cons hs hc ha
    rw [Phrase.names, casesNames_cons, List.append_assoc, Scope.has_append] at hn
    rw [he] at h
    have g₀ := c.symbols.grows_temporary .int
    exact (h.arrives hc ha).trans g₀ fun ha' _ => ih hb (hc.grows g₀) hn.1 ha'

/-! ## Runs from a halt -/

/-- A loop that the machine leaves runs to its end, if its body does whenever the machine gets out of
it. Every round takes steps off the run to the halt. -/
theorem exists_runs_loop {condition : Condition} {body : Statement} {span : Span}
    {c c' : Compilation} (hs : Stands code exit n next (Statement.loop condition body span).emit c c')
    (hc : c.symbols.Covers Γ) (hn : Γ.Has (Statement.loop condition body span).names)
    (hbody : ∀ {m l k : Nat} {c₁ : Compilation} {w μ : World A},
      Stands code next m l body.emit c c₁ → Agrees Γ w μ → HaltsIn code ⟨m, μ⟩ k →
      ∃ ending w', Runs Γ (.statement body) w ending w')
    {k : Nat} {w μ : World A} (ha : Agrees Γ w μ) (hk : HaltsIn code ⟨n, μ⟩ k) :
    ∃ w', Runs Γ (.statement (.loop condition body span)) w .next w' := by
  obtain ⟨b, c₁, m, l, hb, hg, hst, hgo⟩ := hs.loop
  rw [Statement.names, Scope.has_append] at hn
  have hc₁ := hc.grows (hst.grows body.extends_emit)
  induction k using Nat.strongRecOn generalizing w μ with
  | _ k ih =>
    obtain ⟨v, _, μ₁, he, ⟨rfl, hk₁⟩, k₁, hle₁, h₁⟩ :=
      (Condition.branches hb hg hc₁ hn.1 ha).of_haltsIn hk
    cases v with
    | false => exact ⟨w, .loopFalse he⟩
    | true =>
      have ha₁ := ha.keeps hk₁ hc₁
      obtain ⟨ending, w₁, hr⟩ := hbody hst ha₁ h₁
      cases ending with
      | leave => exact ⟨w₁, .loopLeave he hr⟩
      | next =>
        obtain ⟨μ₂, hr₂, ha₂, -⟩ := hr.arrives hst hc hn.2 ha₁
        obtain ⟨k₂, hle₂, h₂⟩ := h₁.of_reaches hr₂
        -- condition and body may take no steps, the jump back takes one
        obtain ⟨k₃, hlt₃, h₃⟩ := h₂.of_step (hgo.step_eq μ₂)
        obtain ⟨w', hr'⟩ := ih k₃ (by omega) ha₂ h₃
        exact ⟨w', .loopAgain he hr hr'⟩

mutual

/-- If the machine comes to a halt from the code of a statement, the statement runs to an end. -/
theorem Statement.exists_runs : ∀ (statement : Statement) {exit n next k : Nat}
    {c c' : Compilation} {w μ : World A}, Stands code exit n next statement.emit c c' →
    c.symbols.Covers Γ → Γ.Has statement.names → Agrees Γ w μ → HaltsIn code ⟨n, μ⟩ k →
    ∃ ending w', Runs Γ (.statement statement) w ending w'
  | .assign target value span, _, _, _, _, _, _, _, _, hs, hc, hn, ha, hk => by
    obtain ⟨w', _, _, he, -⟩ := (executes_assign hs hc hn ha).of_haltsIn hk
    exact ⟨.next, w', .act he⟩
  | .input target span, _, _, _, _, _, _, _, _, hs, hc, hn, ha, hk => by
    obtain ⟨w', _, _, he, -⟩ := (executes_input hs hc hn ha).of_haltsIn hk
    exact ⟨.next, w', .act he⟩
  | .output value span, _, _, _, _, _, _, _, _, hs, hc, hn, ha, hk => by
    obtain ⟨w', _, _, he, -⟩ := (executes_output hs hc hn ha).of_haltsIn hk
    exact ⟨.next, w', .act he⟩
  | .ifThen condition body span, _, _, _, _, _, _, w, _, hs, hc, hn, ha, hk => by
    obtain ⟨b, c₁, m, hb, hg, hst⟩ := hs.ifThen
    rw [Statement.names, Scope.has_append] at hn
    obtain ⟨v, _, μ₁, he, ⟨rfl, hk₁⟩, k₁, -, h₁⟩ :=
      (Condition.branches hb hg hc hn.1 ha).of_haltsIn hk
    have hc₁ := hc.grows (condition.extends_emit.of_gives hb).symbols
    cases v with
    | false => exact ⟨.next, w, .ifThenFalse he⟩
    | true =>
      obtain ⟨ending, w', hr⟩ := body.exists_runs hst hc₁ hn.2 (ha.keeps hk₁ hc) h₁
      exact ⟨ending, w', .ifThenTrue he hr⟩
  | .ifElse condition body other span, _, _, _, _, _, _, w, _, hs, hc, hn, ha, hk => by
    obtain ⟨b, c₁, m, l, k, c₂, hb, hg, hst, -, hot⟩ := hs.ifElse
    rw [Statement.names, Scope.has_append, Scope.has_append] at hn
    obtain ⟨v, _, μ₁, he, ⟨rfl, hk₁⟩, k₁, -, h₁⟩ :=
      (Condition.branches hb hg hc hn.1.1 ha).of_haltsIn hk
    have hc₁ := hc.grows (condition.extends_emit.of_gives hb).symbols
    have hc₂ := hc₁.grows (hst.grows body.extends_emit)
    cases v with
    | false =>
      obtain ⟨ending, w', hr⟩ := other.exists_runs hot hc₂ hn.2 (ha.keeps hk₁ hc) h₁
      exact ⟨ending, w', .ifElseFalse he hr⟩
    | true =>
      obtain ⟨ending, w', hr⟩ := body.exists_runs hst hc₁ hn.1.2 (ha.keeps hk₁ hc) h₁
      exact ⟨ending, w', .ifElseTrue he hr⟩
  | .loop condition body span, _, _, _, _, _, _, _, _, hs, hc, hn, ha, hk => by
    have hn' := hn
    rw [Statement.names, Scope.has_append] at hn'
    obtain ⟨w', hr⟩ := exists_runs_loop hs hc hn
      (fun hst ha' hk' => body.exists_runs hst hc hn'.2 ha' hk') ha hk
    exact ⟨.next, w', hr⟩
  | .switch selector cases ⟨body, bodySpan⟩ span, _, _, _, _, _, _, _, _, hs, hc, hn, ha, hk => by
    obtain ⟨v, c₁, m, c₂, hv, hp, hcs, hd⟩ := hs.switch
    rw [Statement.names, Scope.has_append, Scope.has_append, Block.names_eq] at hn
    obtain ⟨sel, _, μ₁, he, ⟨rfl, hk₁, hh⟩, k₁, -, h₁⟩ :=
      (selector.yields_selector hv hp hc hn.1.1 ha).of_haltsIn hk
    have hc₁ := hc.grows (selector.extends_emit.of_gives hv).symbols
    obtain ⟨ending, w', hr⟩ := exists_runs_arms cases
      (fun hst hc' ha' hk' => exists_runs_sequence body hst hc' hn.2 ha' hk')
      ⟨_, m, c₂, hh, hcs, hd⟩ hc₁ hn.1.2 (ha.keeps hk₁ hc) h₁
    exact ⟨.next, w', .switch he hr⟩
  | .leave span, _, _, _, _, _, _, w, _, _, _, _, _, _ => ⟨.leave, w, .leave⟩
  | .block ⟨body, bodySpan⟩, _, _, _, _, _, _, _, _, hs, hc, hn, ha, hk => by
    rw [Statement.names, Block.names_eq] at hn
    obtain ⟨ending, w', hr⟩ := exists_runs_sequence body hs.block hc hn ha hk
    exact ⟨ending, w', .block hr⟩

@[inherit_doc Statement.exists_runs]
theorem exists_runs_sequence : ∀ (body : List Statement) {exit n next k : Nat}
    {c c' : Compilation} {w μ : World A}, Stands code exit n next (emitStatements body) c c' →
    c.symbols.Covers Γ → Γ.Has (statementsNames body) → Agrees Γ w μ → HaltsIn code ⟨n, μ⟩ k →
    ∃ ending w', Runs Γ (.sequence body) w ending w'
  | [], _, _, _, _, _, _, w, _, _, _, _, _, _ => ⟨.next, w, .nil⟩
  | first :: rest, _, _, _, _, _, _, _, _, hs, hc, hn, ha, hk => by
    obtain ⟨m, c₁, hf, hrest⟩ := hs.cons
    rw [statementsNames, Scope.has_append] at hn
    obtain ⟨ending, w₁, hr⟩ := first.exists_runs hf hc hn.1 ha hk
    cases ending with
    | leave => exact ⟨.leave, w₁, .consLeave hr⟩
    | next =>
      obtain ⟨μ₁, hr₁, ha₁, -⟩ := hr.arrives hf hc hn.1 ha
      obtain ⟨k₁, -, h₁⟩ := hk.of_reaches hr₁
      have hc₁ := hc.grows (hf.grows first.extends_emit)
      obtain ⟨ending, w', hr'⟩ := exists_runs_sequence rest hrest hc₁ hn.2 ha₁ h₁
      exact ⟨ending, w', .cons hr hr'⟩

@[inherit_doc Statement.exists_runs]
theorem exists_runs_arms {default : Block} {exit next : Nat} {c' : Compilation}
    {selector : Selector A} : ∀ (cases : List Case)
    (_ : ∀ {m k : Nat} {c : Compilation} {w μ : World A},
      Stands code exit m next (emitStatements default.body) c c' → c.symbols.Covers Γ →
      Agrees Γ w μ → HaltsIn code ⟨m, μ⟩ k → ∃ ending w', Runs Γ (.sequence default.body) w ending w')
    {n k : Nat} {c : Compilation} {w μ : World A},
    (Phrase.arms selector cases default).Stands Γ code exit n next c c' μ →
    c.symbols.Covers Γ → Γ.Has (casesNames cases) → Agrees Γ w μ → HaltsIn code ⟨n, μ⟩ k →
    ∃ ending w', Runs Γ (.arms selector cases default) w ending w'
  | [], hd, _, _, _, _, _, hs, hc, _, ha, hk => by
    obtain ⟨operand, m, c₁, -, hcs, hdef⟩ := hs
    obtain ⟨rfl, rfl⟩ := hcs.noCases
    obtain ⟨ending, w', hr⟩ := hd hdef hc ha hk
    exact ⟨ending, w', .default hr⟩
  | ⟨label, ⟨body, bodySpan⟩, span⟩ :: rest, hd, _, _, c, _, _, hs, hc, hn, ha, hk => by
    obtain ⟨yes, no, c₁, c₂, hbr, hst, g, hrest⟩ := Phrase.Stands.arms_cons hs hc ha
    rw [casesNames_cons, Scope.has_append] at hn
    obtain ⟨v, _, μ₁, he, ⟨rfl, hk₁⟩, k₁, -, h₁⟩ := hbr.of_haltsIn hk
    have ha₁ := ha.keeps hk₁ hc
    have g₀ := c.symbols.grows_temporary .int
    cases v with
    | false =>
      obtain ⟨ending, w', hr⟩ := exists_runs_arms rest hd (hrest (.of_keeps hk₁)) (hc.grows g)
        hn.2 ha₁ h₁
      exact ⟨ending, w', .caseFalse he hr⟩
    | true =>
      obtain ⟨ending, w₁, hr⟩ := exists_runs_sequence body hst (hc.grows g₀) hn.1 ha₁ h₁
      cases ending with
      | leave => exact ⟨.leave, w₁, .caseLeave he hr⟩
      | next =>
        obtain ⟨μ₂, hr₂, ha₂, hs₂⟩ := hr.arrives hst (hc.grows g₀) hn.1 ha₁
        obtain ⟨k₂, -, h₂⟩ := h₁.of_reaches hr₂
        obtain ⟨ending, w', hr'⟩ := exists_runs_arms rest hd
          (hrest ((Spares.of_keeps hk₁).trans g₀ hs₂)) (hc.grows g) hn.2 ha₂ h₂
        exact ⟨ending, w', .caseTrue he hr hr'⟩

end

end Cpl
