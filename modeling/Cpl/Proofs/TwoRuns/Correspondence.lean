import Cpl.Proofs.Acceptance
import Cpl.Proofs.TwoRuns.Rename

/-!
# Two compilations in step

Emitting code for a tree and for the same tree under other names, with two tables of symbols that
correspond. A `Correspondence` says which names of the first table are in use and how the tables are to be
related so that a name in use has the same type on both sides, also after a temporary has been taken on
either side. From this alone, by induction on the tree, the two compilations do the same up to names: both
fail, for the same reason at the same place, or both succeed, with code that is the same up to names.

* `Moment`: the two compilations at one time and how names are translated; `Correspondence.Leads`: a later
  time, at which the names in use are still translated as before;
* `Correspondence.Twins`: two steps that keep the compilations in step, with one rule for each way to build a
  step. `Statement.twins` and the lemmas before it state it for emission;
* `Program.compile_twins`: the same for whole programs, once their declarations have been made.
-/

namespace Cpl

open Emit

/-- Two compilations at one time, and the names of the second that stand for those of the first. -/
structure Moment where
  map : String → String
  left : Compilation
  right : Compilation

/-- A way to keep the symbols of two compilations related, where the second compiles the tree of the first
with its names changed by `r`; `source` holds of the names in that tree. -/
structure Correspondence (r : String → String) (source : String → Prop) where
  /-- The names of the first table that code may refer to. -/
  InUse : Symbols → String → Prop
  /-- The tables are related, if the names in use are translated by the map. -/
  Holds : (String → String) → Symbols → Symbols → Prop
  /-- A name of the tree is unknown on both sides, or in use and translated as in the tree. -/
  lookup {f : String → String} {s s' : Symbols} {name : String} : Holds f s s' → source name →
    s.get? name = none ∧ s'.get? (r name) = none ∨ InUse s name ∧ f name = r name
  /-- A name in use is known on both sides, with the same type. -/
  type? {f : String → String} {s s' : Symbols} {name : String} : Holds f s s' → InUse s name →
    ∃ type, s.type? name = some type ∧ s'.type? (f name) = some type
  inUse_temporary {s : Symbols} {name : String} (type : NumType) : InUse s name →
    InUse (s.temporary type).2 name
  inUse_fresh (s : Symbols) (type : NumType) : InUse (s.temporary type).2 s.fresh
  /-- After a temporary has been taken on both sides, one stands for the other. -/
  temporary {f : String → String} {s s' : Symbols} (type : NumType) : Holds f s s' →
    ∃ g, Holds g (s.temporary type).2 (s'.temporary type).2 ∧ g s.fresh = s'.fresh ∧
      ∀ name, InUse s name → g name = f name

namespace Correspondence

variable {α α' β β' : Type} {r : String → String} {source : String → Prop}
  (K : Correspondence r source) {w w' w'' : Moment}

/-- The compilations are in step: their symbols are related and they have made the same warnings. -/
structure InStep (w : Moment) : Prop where
  symbols : K.Holds w.map w.left.symbols w.right.symbols
  warnings : w.right.warnings = w.left.warnings

/-- From one time to a later one: what is in use stays in use and is translated as before. -/
def Leads (w w' : Moment) : Prop :=
  ∀ name, K.InUse w.left.symbols name → K.InUse w'.left.symbols name ∧ w'.map name = w.map name

theorem Leads.refl (w : Moment) : K.Leads w w :=
  fun _ h => ⟨h, rfl⟩

variable {K} in
theorem Leads.trans (h : K.Leads w w') (h' : K.Leads w' w'') : K.Leads w w'' := by
  intro name hn
  obtain ⟨hn', hm⟩ := h name hn
  obtain ⟨hn'', hm'⟩ := h' name hn'
  exact ⟨hn'', hm'.trans hm⟩

/-! ## Values -/

/-- The map translates the names in use as they are at that time. -/
def Fixes (w : Moment) (g : String → String) : Prop :=
  ∀ name, K.InUse w.left.symbols name → g name = w.map name

theorem Fixes.map (w : Moment) : K.Fixes w w.map :=
  fun _ _ => rfl

variable {K} in
theorem Leads.fixes (h : K.Leads w w') {g : String → String} (hg : K.Fixes w' g) : K.Fixes w g := by
  intro name hn
  obtain ⟨hn', hm⟩ := h name hn
  rw [hg name hn', hm]

/-- Operands that have a value, the same up to names. -/
inductive Same (w : Moment) : Operand → Operand → Prop
  | literal (value : Literal) : Same w (.literal value) (.literal value)
  | name {slot : String} : K.InUse w.left.symbols slot → Same w (.name slot) (.name (w.map slot))

/-- Code that is the same up to names, all of them in use. Stated for every map that translates these as it
is done now, and so at every later time. -/
def SameCode (w : Moment) (code code' : List Instruction) : Prop :=
  ∀ g, K.Fixes w g → code' = code.map (Instruction.rename g)

structure SameEmitted (w : Moment) (e e' : Emitted) : Prop where
  code : K.SameCode w e.code e'.code
  value : K.Same w e.value e'.value

structure SamePair (w : Moment) (pair pair' : Pair) : Prop where
  code : K.SameCode w pair.code pair'.code
  left : K.Same w pair.left pair'.left
  right : K.Same w pair.right pair'.right
  type : pair'.type = pair.type

section

variable {K} {o o' : Operand} {code code' rest rest' : List Instruction}

theorem Same.rename (h : K.Same w o o') {g : String → String} (hg : K.Fixes w g) :
    o' = o.rename g := by
  cases h with
  | literal value => rfl
  | name hn => exact congrArg Operand.name (hg _ hn).symm

theorem Same.later (h : K.Same w o o') (hl : K.Leads w w') : K.Same w' o o' := by
  cases h with
  | literal value => exact .literal value
  | name hn =>
    obtain ⟨hn', hm⟩ := hl _ hn
    rw [← hm]
    exact .name hn'

theorem SameCode.later (h : K.SameCode w code code') (hl : K.Leads w w') :
    K.SameCode w' code code' :=
  fun g hg => h g (hl.fixes hg)

theorem SameCode.append (h : K.SameCode w code code') (h' : K.SameCode w rest rest') :
    K.SameCode w (code ++ rest) (code' ++ rest') := by
  intro g hg
  rw [h g hg, h' g hg, List.map_append]

theorem SameCode.length (h : K.SameCode w code code') : code'.length = code.length := by
  rw [h w.map (Fixes.map K w), List.length_map]

theorem SameCode.closeBreaks (h : K.SameCode w code code') :
    K.SameCode w (Instruction.closeBreaks code) (Instruction.closeBreaks code') := by
  intro g hg
  rw [h g hg, Instruction.closeBreaks_rename]

theorem SameEmitted.later {e e' : Emitted} (h : K.SameEmitted w e e') (hl : K.Leads w w') :
    K.SameEmitted w' e e' :=
  ⟨h.code.later hl, h.value.later hl⟩

end

theorem sameCode_nil (w : Moment) : K.SameCode w [] [] :=
  fun _ _ => rfl

/-! ## Steps -/

/-- On compilations in step, both steps succeed with values as `post` says and leave the compilations in
step, or both fail with the same diagnostic up to the names of the tree. -/
def Twins (w : Moment) (step : Emit α) (step' : Emit α') (post : Moment → α → α' → Prop) : Prop :=
  match step.on w.left, step'.on w.right with
  | (.ok value, c), (.ok value', c') =>
    ∃ f, K.InStep ⟨f, c, c'⟩ ∧ K.Leads w ⟨f, c, c'⟩ ∧ post ⟨f, c, c'⟩ value value'
  | (.error error, _), (.error error', _) => error' = error.rename r
  | _, _ => False

section

variable {K} {step : Emit α} {step' : Emit α'} {post : Moment → α → α' → Prop}

theorem twins_pure {value : α} {value' : α'} (hw : K.InStep w) (h : post w value value') :
    K.Twins w (pure value) (pure value') post :=
  ⟨w.map, hw, .refl K w, h⟩

theorem twins_throw {error error' : Diagnostic} (h : error' = error.rename r) :
    K.Twins w (throw error) (throw error') post := h

theorem twins_throw_bind {error error' : Diagnostic} {next : β → Emit α} {next' : β' → Emit α'}
    (h : error' = error.rename r) :
    K.Twins w (throw error >>= next) (throw error' >>= next') post := h

/-- The second steps are taken from wherever the first ones lead. -/
theorem Twins.bind {next : α → Emit β} {next' : α' → Emit β'} {post' : Moment → β → β' → Prop}
    (h : K.Twins w step step' post)
    (hnext : ∀ w' value value', K.InStep w' → K.Leads w w' → post w' value value' →
      K.Twins w' (next value) (next' value') post') :
    K.Twins w (step >>= next) (step' >>= next') post' := by
  unfold Twins at h ⊢
  rw [on_bind, on_bind]
  rcases hs : step.on w.left with ⟨error | value, c⟩ <;>
    rcases hs' : step'.on w.right with ⟨error' | value', c'⟩ <;>
      simp only [hs, hs'] at h ⊢
  · exact h
  · obtain ⟨f, hin, hleads, hpost⟩ := h
    have hsecond := hnext ⟨f, c, c'⟩ value value' hin hleads hpost
    unfold Twins at hsecond
    split at hsecond
    · rename_i h₁ h₂
      obtain ⟨g, hin', hleads', hpost'⟩ := hsecond
      simp only [h₁, h₂]
      exact ⟨g, hin', hleads.trans hleads', hpost'⟩
    · rename_i h₁ h₂
      simp only [h₁, h₂]
      exact hsecond
    · exact hsecond.elim

/-- A step that adds a symbol or a warning to neither side. -/
theorem twins_located {position : Position} {x : Except Problem α} {x' : Except Problem α'}
    (hw : K.InStep w)
    (h : (∃ value value', x = .ok value ∧ x' = .ok value' ∧ post w value value') ∨
      ∃ problem, x = .error problem ∧ x' = .error (problem.rename r)) :
    K.Twins w (located position x) (located position x') post := by
  rcases h with ⟨value, value', rfl, rfl, h⟩ | ⟨problem, rfl, rfl⟩
  · exact twins_pure hw h
  · exact twins_throw rfl

theorem twins_lookup {name : String} (hw : K.InStep w) (hs : source name) (position : Position) :
    K.Twins w (Emit.lookup name position) (Emit.lookup (r name) position)
      fun w' symbol symbol' => symbol'.type = symbol.type ∧
        K.Same w' (.name name) (.name (r name)) := by
  have hl : K.Twins w (located position (w.left.symbols.lookup name))
      (located position (w.right.symbols.lookup (r name)))
      fun w' symbol symbol' => symbol'.type = symbol.type ∧
        K.Same w' (.name name) (.name (r name)) := by
    refine twins_located hw ?_
    rcases K.lookup hw.symbols hs with ⟨hn, hn'⟩ | ⟨hu, hm⟩
    · refine .inr ⟨.unknownVariable name, ?_, ?_⟩
      · rw [Symbols.lookup, hn]
      · rw [Symbols.lookup, hn']
        rfl
    · obtain ⟨type, ht, ht'⟩ := K.type? hw.symbols hu
      rw [hm] at ht'
      obtain ⟨symbol, hg, rfl⟩ := Option.map_eq_some_iff.mp ht
      obtain ⟨symbol', hg', hst⟩ := Option.map_eq_some_iff.mp ht'
      refine .inl ⟨symbol, symbol', Symbols.lookup_eq_ok_iff.mpr hg,
        Symbols.lookup_eq_ok_iff.mpr hg', hst, ?_⟩
      rw [← hm]
      exact .name hu
  exact hl

theorem Same.typeOf {o o' : Operand} (h : K.Same w o o') (hw : K.InStep w) :
    ∃ type, w.left.symbols.typeOf o = .ok type ∧ w.right.symbols.typeOf o' = .ok type := by
  cases h with
  | literal value => exact ⟨value.type, rfl, rfl⟩
  | name hu =>
    obtain ⟨type, ht, ht'⟩ := K.type? hw.symbols hu
    exact ⟨type, Symbols.typeOf_name.mpr ht, Symbols.typeOf_name.mpr ht'⟩

theorem twins_typeOf {o o' : Operand} (hw : K.InStep w) (h : K.Same w o o') (position : Position) :
    K.Twins w (Emit.typeOf o position) (Emit.typeOf o' position) fun _ type type' =>
      type' = type := by
  obtain ⟨type, ht, ht'⟩ := h.typeOf hw
  have hl : K.Twins w (located position (w.left.symbols.typeOf o))
      (located position (w.right.symbols.typeOf o')) fun _ type type' => type' = type :=
    twins_located hw (.inl ⟨type, type, ht, ht', rfl⟩)
  exact hl

theorem twins_warn (hw : K.InStep w) (message : String) :
    K.Twins w (warn message) (warn message) fun _ _ _ => True := by
  refine ⟨w.map, ⟨hw.symbols, ?_⟩, fun _ h => ⟨h, rfl⟩, trivial⟩
  exact congrArg (· ++ [message]) hw.warnings

theorem twins_temporary (hw : K.InStep w) (type : NumType) :
    K.Twins w (Emit.temporary type) (Emit.temporary type) fun w' dest dest' =>
      K.Same w' (.name dest) (.name dest') := by
  obtain ⟨g, hg, hfresh, hold⟩ := K.temporary type hw.symbols
  have hu := K.inUse_fresh w.left.symbols type
  refine ⟨g, ⟨hg, hw.warnings⟩, fun name hn => ⟨K.inUse_temporary type hn, hold name hn⟩, ?_⟩
  show K.Same _ (.name w.left.symbols.fresh) (.name w.right.symbols.fresh)
  rw [← hfresh]
  exact .name hu

/-! ## Templates -/

variable {o o' left left' right right' : Operand} {dest dest' : String}

theorem Same.slot (h : K.Same w (.name dest) (.name dest')) {g : String → String}
    (hg : K.Fixes w g) : dest' = g dest :=
  Operand.name.inj (h.rename hg)

/-- One instruction that stores something made of a value. -/
theorem sameCode_store (opcode : Opcode) (hd : K.Same w (.name dest) (.name dest'))
    (h : K.Same w o o') :
    K.SameCode w [.quad opcode [.name dest, o]] [.quad opcode [.name dest', o']] := by
  intro g hg
  rw [hd.slot hg, h.rename hg]
  rfl

theorem sameCode_jump (target : Target) :
    K.SameCode w [.jump target] [.jump target] :=
  fun _ _ => rfl

theorem sameCode_jumpIfZero (target : Target) (h : K.Same w o o') :
    K.SameCode w [.jumpIfZero target o] [.jumpIfZero target o'] := by
  intro g hg
  rw [h.rename hg]
  rfl

theorem sameCode_logicalOr (hd : K.Same w (.name dest) (.name dest')) (hl : K.Same w left left')
    (hr : K.Same w right right') :
    K.SameCode w (Template.logicalOr dest left right) (Template.logicalOr dest' left' right') := by
  intro g hg
  rw [hd.slot hg, hl.rename hg, hr.rename hg]
  rfl

theorem sameCode_logicalAnd (hd : K.Same w (.name dest) (.name dest')) (hl : K.Same w left left')
    (hr : K.Same w right right') :
    K.SameCode w (Template.logicalAnd dest left right)
      (Template.logicalAnd dest' left' right') := by
  intro g hg
  rw [hd.slot hg, hl.rename hg, hr.rename hg]
  rfl

/-- An operation that the templates do not know is unknown under all names. -/
theorem twins_arithmeticTemplate (hw : K.InStep w) (position : Position) (symbol : String)
    (type : NumType) (hd : K.Same w (.name dest) (.name dest')) (hl : K.Same w left left')
    (hr : K.Same w right right') :
    K.Twins w (located position (Template.arithmetic symbol type dest left right))
      (located position (Template.arithmetic symbol type dest' left' right')) K.SameCode := by
  refine twins_located hw ?_
  unfold Template.arithmetic
  cases Arith.ofSymbol? symbol with
  | none => exact .inr ⟨_, rfl, rfl⟩
  | some operation =>
    refine .inl ⟨_, _, rfl, rfl, fun g hg => ?_⟩
    rw [hd.slot hg, hl.rename hg, hr.rename hg]
    rfl

theorem twins_relationalTemplate (hw : K.InStep w) (position : Position) (symbol : String)
    (type : NumType) (hd : K.Same w (.name dest) (.name dest')) (hl : K.Same w left left')
    (hr : K.Same w right right') :
    K.Twins w (located position (Template.relational symbol type dest left right))
      (located position (Template.relational symbol type dest' left' right')) K.SameCode := by
  refine twins_located hw ?_
  unfold Template.relational
  rcases Relation.ofSymbol? symbol with _ | relation
  · exact .inr ⟨_, rfl, rfl⟩
  · rcases relation with _ | _ <;>
    · refine .inl ⟨_, _, rfl, rfl, fun g hg => ?_⟩
      rw [hd.slot hg, hl.rename hg, hr.rename hg]
      rfl

/-! ## Operations -/

theorem twins_widenTo (hw : K.InStep w) (common own : NumType) (h : K.Same w o o') :
    K.Twins w (widenTo common own o) (widenTo common own o') K.SameEmitted := by
  unfold widenTo
  split
  · exact twins_pure hw ⟨sameCode_nil K w, h⟩
  · refine (twins_temporary hw .float).bind fun w₁ dest dest' hw₁ hl₁ hd => ?_
    exact twins_pure hw₁ ⟨sameCode_store _ hd (h.later hl₁), hd⟩

theorem twins_widenPair (hw : K.InStep w) (hl : K.Same w left left') (hr : K.Same w right right')
    (position : Position) :
    K.Twins w (widenPair left right position) (widenPair left' right' position) K.SamePair := by
  refine (twins_typeOf hw hl position).bind fun w₁ lt lt' hw₁ hl₁ hlt => ?_
  refine (twins_typeOf hw₁ (hr.later hl₁) position).bind fun w₂ rt rt' hw₂ hl₂ hrt => ?_
  subst lt' rt'
  refine (twins_widenTo hw₂ _ lt ((hl.later hl₁).later hl₂)).bind fun w₃ l l' hw₃ hl₃ hlv => ?_
  have hr₃ := ((hr.later hl₁).later hl₂).later hl₃
  refine (twins_widenTo hw₃ _ rt hr₃).bind fun w₄ r r' hw₄ hl₄ hrv => ?_
  have hlv := hlv.later hl₄
  exact twins_pure hw₄ ⟨hlv.code.append hrv.code, hlv.value, hrv.value, rfl⟩

theorem twins_arithmetic (hw : K.InStep w) (operator : Operator) (hl : K.Same w left left')
    (hr : K.Same w right right') :
    K.Twins w (arithmetic operator left right) (arithmetic operator left' right')
      K.SameEmitted := by
  refine (twins_widenPair hw hl hr _).bind fun w₁ pair pair' hw₁ hl₁ hp => ?_
  rw [hp.type]
  refine (twins_temporary hw₁ pair.type).bind fun w₂ dest dest' hw₂ hl₂ hd => ?_
  refine (twins_arithmeticTemplate hw₂ _ _ _ hd (hp.left.later hl₂) (hp.right.later hl₂)).bind
    fun w₃ code code' hw₃ hl₃ hc => ?_
  exact twins_pure hw₃ ⟨((hp.code.later hl₂).later hl₃).append hc, hd.later hl₃⟩

theorem twins_comparison (hw : K.InStep w) (operator : Operator) (hl : K.Same w left left')
    (hr : K.Same w right right') :
    K.Twins w (comparison operator left right) (comparison operator left' right')
      K.SameEmitted := by
  refine (twins_widenPair hw hl hr _).bind fun w₁ pair pair' hw₁ hl₁ hp => ?_
  rw [hp.type]
  refine (twins_temporary hw₁ .int).bind fun w₂ dest dest' hw₂ hl₂ hd => ?_
  refine (twins_relationalTemplate hw₂ _ _ _ hd (hp.left.later hl₂) (hp.right.later hl₂)).bind
    fun w₃ code code' hw₃ hl₃ hc => ?_
  exact twins_pure hw₃ ⟨((hp.code.later hl₂).later hl₃).append hc, hd.later hl₃⟩

/-- The warning on a cast without effect names a type and a place, no variable. -/
theorem twins_castTo (hw : K.InStep w) (type : NumType) (h : K.Same w o o') (position : Position) :
    K.Twins w (castTo type o position) (castTo type o' position) K.SameEmitted := by
  refine (twins_typeOf hw h position).bind fun w₁ own own' hw₁ hl₁ ho => ?_
  subst own'
  split
  · refine (twins_warn hw₁ _).bind fun w₂ _ _ hw₂ hl₂ _ => ?_
    exact twins_pure hw₂ ⟨sameCode_nil K w₂, (h.later hl₁).later hl₂⟩
  · refine (twins_temporary hw₁ type).bind fun w₂ dest dest' hw₂ hl₂ hd => ?_
    exact twins_pure hw₂ ⟨sameCode_store _ hd ((h.later hl₁).later hl₂), hd⟩

theorem twins_assignment (hw : K.InStep w) (target : Ident) (hs : source target.name)
    (h : K.Same w o o') (position : Position) :
    K.Twins w (assignment target o position) (assignment (target.rename r) o' position)
      K.SameCode := by
  refine (twins_lookup hw hs target.span.start).bind fun w₁ symbol symbol' hw₁ hl₁ hv => ?_
  obtain ⟨htype, ht⟩ := hv
  refine (twins_typeOf hw₁ (h.later hl₁) position).bind fun w₂ own own' hw₂ hl₂ ho => ?_
  subst own'
  rw [htype]
  split
  · exact twins_throw_bind rfl
  · refine (twins_widenTo hw₂ _ own ((h.later hl₁).later hl₂)).bind fun w₃ v v' hw₃ hl₃ hv => ?_
    have ht := (ht.later hl₂).later hl₃
    exact twins_pure hw₃ (hv.code.append (sameCode_store _ ht hv.value))

theorem twins_printing (hw : K.InStep w) (h : K.Same w o o') (position : Position) :
    K.Twins w (printing o position) (printing o' position) K.SameCode := by
  refine (twins_typeOf hw h position).bind fun w₁ own own' hw₁ hl₁ ho => ?_
  subst own'
  refine (twins_widenTo hw₁ .float own (h.later hl₁)).bind fun w₂ v v' hw₂ hl₂ hv => ?_
  refine twins_pure hw₂ (hv.code.append fun g hg => ?_)
  rw [hv.value.rename hg]
  rfl

theorem twins_caseTest (hw : K.InStep w) (h : K.Same w o o') (label : Literal)
    (hd : K.Same w (.name dest) (.name dest')) (size : Nat) (position : Position) :
    K.Twins w (caseTest o label dest size position) (caseTest o' label dest' size position)
      K.SameCode := by
  refine (twins_widenPair hw h (.literal label) position).bind fun w₁ pair pair' hw₁ hl₁ hp => ?_
  rw [hp.type]
  have hd := hd.later hl₁
  refine (twins_relationalTemplate hw₁ _ _ _ hd hp.left hp.right).bind
    fun w₂ code code' hw₂ hl₂ hc => ?_
  exact twins_pure hw₂ (((hp.code.later hl₂).append hc).append
    (sameCode_jumpIfZero _ (hd.later hl₂)))

/-- The operands of a chain are emitted one after the other, the right one first, and then joined. -/
theorem twins_chain {rightStep rightStep' leftStep leftStep' : Emit Emitted} (operator : Operator)
    (hr : K.Twins w rightStep rightStep' K.SameEmitted)
    (hl : ∀ w', K.InStep w' → K.Twins w' leftStep leftStep' K.SameEmitted) :
    K.Twins w
      (do
        let right ← rightStep
        let left ← leftStep
        let result ← arithmetic operator left.value right.value
        return ⟨right.code ++ left.code ++ result.code, result.value⟩)
      (do
        let right ← rightStep'
        let left ← leftStep'
        let result ← arithmetic operator left.value right.value
        return ⟨right.code ++ left.code ++ result.code, result.value⟩) K.SameEmitted := by
  refine hr.bind fun w₁ r r' hw₁ _ hr => ?_
  refine (hl w₁ hw₁).bind fun w₂ l l' hw₂ hl₂ hl => ?_
  have hr := hr.later hl₂
  refine (twins_arithmetic hw₂ operator hl.value hr.value).bind fun w₃ j j' hw₃ hl₃ hj => ?_
  exact twins_pure hw₃ ⟨((hr.code.append hl.code).later hl₃).append hj.code, hj.value⟩

/-- "And" and "or" alike: the right side comes first, and the template itself cannot fail. -/
theorem twins_join {rightStep rightStep' leftStep leftStep' : Emit Emitted}
    {template : String → Operand → Operand → List Instruction}
    (ht : ∀ {w' : Moment} {dest dest' : String} {l l' r r' : Operand},
      K.Same w' (.name dest) (.name dest') → K.Same w' l l' → K.Same w' r r' →
      K.SameCode w' (template dest l r) (template dest' l' r'))
    (hr : K.Twins w rightStep rightStep' K.SameEmitted)
    (hl : ∀ w', K.InStep w' → K.Twins w' leftStep leftStep' K.SameEmitted) :
    K.Twins w
      (do
        let right ← rightStep
        let left ← leftStep
        let dest ← Emit.temporary .int
        return ⟨right.code ++ left.code ++ template dest left.value right.value, .name dest⟩)
      (do
        let right ← rightStep'
        let left ← leftStep'
        let dest ← Emit.temporary .int
        return ⟨right.code ++ left.code ++ template dest left.value right.value, .name dest⟩)
      K.SameEmitted := by
  refine hr.bind fun w₁ r r' hw₁ _ hr => ?_
  refine (hl w₁ hw₁).bind fun w₂ l l' hw₂ hl₂ hl => ?_
  refine (twins_temporary hw₂ .int).bind fun w₃ dest dest' hw₃ hl₃ hd => ?_
  have hr := (hr.later hl₂).later hl₃
  have hl := hl.later hl₃
  exact twins_pure hw₃ ⟨(hr.code.append hl.code).append (ht hd hl.value hr.value), hd⟩

end

end Correspondence

/-! ## Trees -/

section Trees

open Correspondence

variable {r : String → String} {source : String → Prop} {K : Correspondence r source}

mutual

theorem Expression.twins : ∀ (e : Expression) {w : Moment}, K.InStep w →
    (∀ name ∈ e.names, source name) → K.Twins w e.emit (e.rename r).emit K.SameEmitted
  | .term term, _, hw, hs => term.twins hw hs
  | .chain left operator right, _, hw, hs => by
    obtain ⟨hl, hr⟩ := List.forall_mem_append.mp hs
    exact twins_chain operator (right.twins hw hr) fun _ hw' => left.twins hw' hl

theorem Term.twins : ∀ (t : Term) {w : Moment}, K.InStep w →
    (∀ name ∈ t.names, source name) → K.Twins w t.emit (t.rename r).emit K.SameEmitted
  | .factor factor, _, hw, hs => factor.twins hw hs
  | .chain left operator right, _, hw, hs => by
    obtain ⟨hl, hr⟩ := List.forall_mem_append.mp hs
    exact twins_chain operator (right.twins hw hr) fun _ hw' => left.twins hw' hl

theorem Factor.twins : ∀ (f : Factor) {w : Moment}, K.InStep w →
    (∀ name ∈ f.names, source name) → K.Twins w f.emit (f.rename r).emit K.SameEmitted
  | .name ident, _, hw, hs => by
    have hn := List.forall_mem_singleton.mp hs
    refine (twins_lookup hw hn ident.span.start).bind fun w₁ _ _ hw₁ _ h => ?_
    exact twins_pure hw₁ ⟨sameCode_nil K w₁, h.2⟩
  | .literal literal, w, hw, _ => twins_pure hw ⟨sameCode_nil K w, .literal literal⟩
  | .parens inner span, _, hw, hs => inner.twins hw hs
  | .cast type inner span, _, hw, hs => by
    refine (inner.twins hw hs).bind fun w₁ v v' hw₁ _ hv => ?_
    refine (twins_castTo hw₁ type hv.value span.start).bind fun w₂ last last' hw₂ hl₂ hc => ?_
    exact twins_pure hw₂ ⟨(hv.code.later hl₂).append hc.code, hc.value⟩

end

mutual

theorem Condition.twins : ∀ (b : Condition) {w : Moment}, K.InStep w →
    (∀ name ∈ b.names, source name) → K.Twins w b.emit (b.rename r).emit K.SameEmitted
  | .clause clause, _, hw, hs => clause.twins hw hs
  | .or left right, _, hw, hs => by
    obtain ⟨hl, hr⟩ := List.forall_mem_append.mp hs
    exact twins_join sameCode_logicalOr (right.twins hw hr) fun _ hw' => left.twins hw' hl

theorem Clause.twins : ∀ (b : Clause) {w : Moment}, K.InStep w →
    (∀ name ∈ b.names, source name) → K.Twins w b.emit (b.rename r).emit K.SameEmitted
  | .test test, _, hw, hs => test.twins hw hs
  | .and left right, _, hw, hs => by
    obtain ⟨hl, hr⟩ := List.forall_mem_append.mp hs
    exact twins_join sameCode_logicalAnd (right.twins hw hr) fun _ hw' => left.twins hw' hl

theorem Test.twins : ∀ (b : Test) {w : Moment}, K.InStep w →
    (∀ name ∈ b.names, source name) → K.Twins w b.emit (b.rename r).emit K.SameEmitted
  | .compare left operator right, _, hw, hs => by
    obtain ⟨hl, hr⟩ := List.forall_mem_append.mp hs
    refine (left.twins hw hl).bind fun w₁ l l' hw₁ _ hl => ?_
    refine (right.twins hw₁ hr).bind fun w₂ r r' hw₂ hl₂ hr => ?_
    have hl := hl.later hl₂
    refine (twins_comparison hw₂ operator hl.value hr.value).bind fun w₃ j j' hw₃ hl₃ hj => ?_
    exact twins_pure hw₃ ⟨((hl.code.append hr.code).later hl₃).append hj.code, hj.value⟩
  | .not inner span, _, hw, hs => by
    refine (inner.twins hw hs).bind fun w₁ v v' hw₁ _ hv => ?_
    refine (twins_temporary hw₁ .int).bind fun w₂ dest dest' hw₂ hl₂ hd => ?_
    have hv := hv.later hl₂
    refine twins_pure hw₂ ⟨hv.code.append fun g hg => ?_, hd⟩
    rw [hd.slot hg, hv.value.rename hg]
    rfl

end

mutual

/-- The jumps over and back depend on the sizes of the parts, which no name changes. -/
theorem Statement.twins : ∀ (statement : Statement) {w : Moment}, K.InStep w →
    (∀ name ∈ statement.names, source name) →
    K.Twins w statement.emit (statement.rename r).emit K.SameCode
  | .assign target value span, _, hw, hs => by
    obtain ⟨ht, hv⟩ := List.forall_mem_cons.mp hs
    refine (value.twins hw hv).bind fun w₁ v v' hw₁ _ hv => ?_
    refine (twins_assignment hw₁ target ht hv.value span.start).bind fun w₂ c c' hw₂ hl₂ hc => ?_
    exact twins_pure hw₂ ((hv.code.later hl₂).append hc)
  | .input target span, _, hw, hs => by
    have hn := List.forall_mem_singleton.mp hs
    refine (twins_lookup hw hn target.span.start).bind fun w₁ symbol symbol' hw₁ _ h => ?_
    obtain ⟨htype, ht⟩ := h
    refine twins_pure hw₁ fun g hg => ?_
    rw [htype, Template.input, show (target.rename r).name = g target.name from ht.slot hg]
    rfl
  | .output value span, _, hw, hs => by
    refine (value.twins hw hs).bind fun w₁ v v' hw₁ _ hv => ?_
    refine (twins_printing hw₁ hv.value span.start).bind fun w₂ c c' hw₂ hl₂ hc => ?_
    exact twins_pure hw₂ ((hv.code.later hl₂).append hc)
  | .ifThen condition body span, _, hw, hs => by
    obtain ⟨hb, ht⟩ := List.forall_mem_append.mp hs
    refine (condition.twins hw hb).bind fun w₁ b b' hw₁ _ hb => ?_
    refine (body.twins hw₁ ht).bind fun w₂ t t' hw₂ hl₂ ht => ?_
    have hb := hb.later hl₂
    rw [ht.length]
    exact twins_pure hw₂ ((hb.code.append (sameCode_jumpIfZero _ hb.value)).append ht)
  | .ifElse condition body other span, _, hw, hs => by
    obtain ⟨hbt, he⟩ := List.forall_mem_append.mp hs
    obtain ⟨hb, ht⟩ := List.forall_mem_append.mp hbt
    refine (condition.twins hw hb).bind fun w₁ b b' hw₁ _ hb => ?_
    refine (body.twins hw₁ ht).bind fun w₂ t t' hw₂ hl₂ ht => ?_
    refine (other.twins hw₂ he).bind fun w₃ e e' hw₃ hl₃ he => ?_
    have hb := (hb.later hl₂).later hl₃
    have ht := ht.later hl₃
    rw [ht.length, he.length]
    exact twins_pure hw₃ ((((hb.code.append (sameCode_jumpIfZero _ hb.value)).append ht).append
      (sameCode_jump _)).append he)
  | .loop condition body span, _, hw, hs => by
    obtain ⟨hb, ht⟩ := List.forall_mem_append.mp hs
    refine (body.twins hw ht).bind fun w₁ t t' hw₁ _ ht => ?_
    refine (condition.twins hw₁ hb).bind fun w₂ b b' hw₂ hl₂ hb => ?_
    have ht := ht.later hl₂
    have honce := (hb.code.append
      (sameCode_jumpIfZero (.forward (t.length + 2)) hb.value)).append ht
    refine twins_pure hw₂ (SameCode.closeBreaks ?_)
    rw [ht.length, honce.length]
    exact honce.append (sameCode_jump _)
  | .switch selector cases default span, _, hw, hs => by
    obtain ⟨hva, hd⟩ := List.forall_mem_append.mp hs
    obtain ⟨hv, ha⟩ := List.forall_mem_append.mp hva
    refine (selector.twins hw hv).bind fun w₁ v v' hw₁ _ hv => ?_
    refine (twins_emitCases cases hw₁ hv.value ha).bind fun w₂ a a' hw₂ hl₂ ha => ?_
    refine (default.twins hw₂ hd).bind fun w₃ d d' hw₃ hl₃ hd => ?_
    have hv := ((hv.code.later hl₂).append ha).later hl₃
    exact twins_pure hw₃ (hv.append hd).closeBreaks
  | .leave span, _, hw, _ => twins_pure hw fun _ _ => rfl
  | .block block, _, hw, hs => block.twins hw hs

theorem Block.twins : ∀ (block : Block) {w : Moment}, K.InStep w →
    (∀ name ∈ block.names, source name) → K.Twins w block.emit (block.rename r).emit K.SameCode
  | ⟨body, _⟩, _, hw, hs => twins_emitStatements body hw hs

theorem twins_emitStatements : ∀ (body : List Statement) {w : Moment}, K.InStep w →
    (∀ name ∈ statementsNames body, source name) →
    K.Twins w (emitStatements body) (emitStatements (renameStatements r body)) K.SameCode
  | [], w, hw, _ => twins_pure hw (sameCode_nil K w)
  | first :: rest, _, hw, hs => by
    obtain ⟨hf, hr⟩ := List.forall_mem_append.mp hs
    refine (first.twins hw hf).bind fun w₁ f f' hw₁ _ hf => ?_
    refine (twins_emitStatements rest hw₁ hr).bind fun w₂ r r' hw₂ hl₂ hr => ?_
    exact twins_pure hw₂ ((hf.later hl₂).append hr)

theorem twins_emitCases : ∀ (cases : List Case) {w : Moment} {selector selector' : Operand},
    K.InStep w → K.Same w selector selector' → (∀ name ∈ casesNames cases, source name) →
    K.Twins w (emitCases selector cases) (emitCases selector' (renameCases r cases)) K.SameCode
  | [], w, _, _, hw, _, _ => twins_pure hw (sameCode_nil K w)
  | ⟨label, body, span⟩ :: rest, _, _, _, hw, hsel, hs => by
    obtain ⟨hb, hr⟩ := List.forall_mem_append.mp hs
    refine (twins_temporary hw .int).bind fun w₁ dest dest' hw₁ hl₁ hd => ?_
    refine (body.twins hw₁ hb).bind fun w₂ b b' hw₂ hl₂ hb => ?_
    have hsel := (hsel.later hl₁).later hl₂
    rw [hb.length]
    refine (twins_caseTest hw₂ hsel label (hd.later hl₂) b.length span.start).bind
      fun w₃ t t' hw₃ hl₃ ht => ?_
    refine (twins_emitCases rest hw₃ (hsel.later hl₃) hr).bind fun w₄ m m' hw₄ hl₄ hm => ?_
    exact twins_pure hw₄ (((ht.append (hb.later hl₃)).later hl₄).append hm)

end

/-! ## Programs -/

section

variable {c c' : Compilation}

/-- Declarations add symbols, but neither temporaries nor warnings. -/
theorem frame_declareNames {type : NumType} {idents : List Ident}
    (h : (declareNames type idents).Gives c () c') :
    c'.warnings = c.warnings ∧ c'.symbols.counter = c.symbols.counter := by
  induction idents generalizing c with
  | nil =>
    obtain ⟨-, rfl⟩ := gives_pure.mp h
    exact ⟨rfl, rfl⟩
  | cons first rest ih =>
    obtain ⟨_, c₁, hd, hr⟩ := gives_bind.mp h
    obtain ⟨-, rfl⟩ := gives_declare.mp hd
    obtain ⟨hw, hc⟩ := ih hr
    exact ⟨hw, hc⟩

theorem frame_declareAll {declarations : List Declaration}
    (h : (declareAll declarations).Gives c () c') :
    c'.warnings = c.warnings ∧ c'.symbols.counter = c.symbols.counter := by
  induction declarations generalizing c with
  | nil =>
    obtain ⟨-, rfl⟩ := gives_pure.mp h
    exact ⟨rfl, rfl⟩
  | cons first rest ih =>
    obtain ⟨_, c₁, hd, hr⟩ := gives_bind.mp h
    obtain ⟨hw, hc⟩ := frame_declareNames hd
    obtain ⟨hw', hc'⟩ := ih hr
    exact ⟨hw'.trans hw, hc'.trans hc⟩

/-- Distinct names can all be declared. -/
theorem Program.exists_gives_declareAll {p : Program}
    (hd : (p.declaredIdents.map Ident.name).Nodup) :
    ∃ c, (declareAll p.declarations).Gives .start () c := by
  have hstart : Symbols.empty.HasJust [] := ⟨fun _ => by simp [Symbols.empty, Symbols.contains],
    List.nodup_nil⟩
  have hmeets := meets_declareAll p.declarations (c := .start) hstart
  rcases he : (declareAll p.declarations).on .start with ⟨error | value, c⟩
  · obtain ⟨before, ident, after, hsplit, hm, -⟩ := hmeets.of_error he
    rw [declaredIdents, ← List.nil_append (p.declarations.flatMap _), hsplit, List.map_append,
      List.map_cons, List.nodup_append] at hd
    exact absurd rfl (hd.2.2 ident.name hm ident.name List.mem_cons_self)
  · exact ⟨c, he⟩

end

/-- What is emitted after the declarations. -/
def Block.emitWhole (block : Block) : Emit (List Instruction) := do
  let code ← block.emit
  match code.findSome? Instruction.openBreak? with
  | some position => throw ⟨.breakOutsideOfLoop, position⟩
  | none => return code ++ [.halt]

/-- A break that is left open is so under all names. -/
theorem Block.twins_emitWhole (block : Block) {w : Moment} (hw : K.InStep w)
    (hs : ∀ name ∈ block.names, source name) :
    K.Twins w block.emitWhole (block.rename r).emitWhole K.SameCode := by
  refine (block.twins hw hs).bind fun w₁ code code' hw₁ _ hc => ?_
  have hopen : code'.findSome? Instruction.openBreak? = code.findSome? Instruction.openBreak? := by
    rw [hc w₁.map (Fixes.map K w₁), Instruction.findSome?_openBreak?_rename]
  rw [hopen]
  split
  · exact twins_throw rfl
  · exact twins_pure hw₁ (hc.append fun _ _ => rfl)

namespace Program

theorem on_emit {p : Program} {c : Compilation}
    (h : (declareAll p.declarations).Gives .start () c) :
    p.emit.on .start = p.body.emitWhole.on c := by
  rw [emit, on_bind, h.on_eq]
  rfl

/-- Programs whose bodies are the same up to names, with declarations that are related: both fail, or both
compile to the same code up to names. The map of names is the one at the end, between the final symbols. -/
theorem compile_twins {p p' : Program} {w : Moment} (hbody : p'.body = p.body.rename r)
    (hs : ∀ name ∈ p.body.names, source name) (hw : K.InStep w)
    (hd : (declareAll p.declarations).Gives .start () w.left)
    (hd' : (declareAll p'.declarations).Gives .start () w.right) :
    (∃ error, p.compile = .error error ∧ p'.compile = .error (error.rename r)) ∨
    ∃ q q' f, p.compile = .ok q ∧ p'.compile = .ok q' ∧
      K.Holds f p.finalSymbols p'.finalSymbols ∧
      q'.instructions = q.instructions.map (Instruction.rename f) ∧ q'.warnings = q.warnings := by
  have h := p.body.twins_emitWhole hw hs
  rw [Twins, ← on_emit hd, ← hbody, ← on_emit hd'] at h
  rcases he : p.emit.on .start with ⟨error | code, c⟩ <;>
    rcases he' : p'.emit.on .start with ⟨error' | code', c'⟩ <;>
      simp only [he, he'] at h
  · subst h
    exact .inl ⟨error, compile_of_error he, compile_of_error he'⟩
  · obtain ⟨f, hw', -, hc⟩ := h
    refine .inr ⟨_, _, f, compile_of_emit he, compile_of_emit he', ?_, ?_, hw'.warnings⟩
    · rw [finalSymbols, finalSymbols, he, he']
      exact hw'.symbols
    · rw [hc f (Fixes.map K _), Instruction.settleFrom_rename]

end Program

end Trees

end Cpl
