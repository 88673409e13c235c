import Mathlib.Data.List.Nodup
import Mathlib.Data.List.Perm.Subperm
import Cpl.Proofs.Emission

/-!
# Growing symbols

How the symbols change while code is emitted: they only grow, and only by temporaries.

* `Symbols.get?_free`: the name of the next temporary is not in use, whatever the symbols;
* `Symbols.Grows`: every symbol is kept, and each new one is a temporary called `t0`, `t1` and so on;
* `Emit.Extends`: a step that, success or not, lets the symbols grow and adds to the warnings only at
  their end, and that fails only with a problem of the tree. Every emission of a part of a tree is such
  a step (`Statement.extends_emit` and the lemmas before it).
-/

namespace Cpl

/-- Different numbers have different numerals. -/
theorem toString_inj {m n : Nat} (h : toString m = toString n) : m = n := by
  have := congrArg (fun s : String => Nat.ofDigitChars 10 s.toList 0) h
  simpa [Nat.toString_eq_repr] using this

theorem toList_temporaryName (n : Nat) : (temporaryName n).toList = 't' :: (toString n).toList := by
  rw [temporaryName, String.toList_append]
  rfl

/-- Different numbers give different names. -/
theorem temporaryName_inj {m n : Nat} (h : temporaryName m = temporaryName n) : m = n := by
  have := congrArg String.toList h
  rw [toList_temporaryName, toList_temporaryName] at this
  exact toString_inj (String.toList_injective (List.cons.inj this).2)

namespace Symbols

variable {s s' s'' : Symbols}

/-- The type of a name. -/
def type? (s : Symbols) (name : String) : Option NumType :=
  (s.get? name).map Symbol.type

theorem contains_iff_mem {name : String} :
    s.contains name = true ↔ name ∈ s.entries.map Symbol.name := by
  simp [contains]

theorem get?_eq_none {name : String} : s.get? name = none ↔ s.contains name = false := by
  rw [← isSome_get?]
  cases s.get? name <;> simp

/-- A name that `freeFrom` settles for although it is in use comes after numbers whose names are all
in use. -/
theorem contains_of_contains_freeFrom {bound n : Nat}
    (h : s.contains (temporaryName (s.freeFrom bound n)) = true) :
    ∀ k ≤ bound, s.contains (temporaryName (n + k)) = true := by
  induction bound generalizing n with
  | zero =>
    intro k hk
    rw [show n + k = n by omega]
    exact h
  | succ bound ih =>
    rw [freeFrom] at h
    split at h
    · intro k hk
      rcases k with _ | k
      · assumption
      · rw [show n + (k + 1) = n + 1 + k by omega]
        exact ih h k (by omega)
    · contradiction

/-- There are fewer symbols than numbers that `free` looks at, so some name is not in use. -/
theorem contains_free (s : Symbols) : s.contains (temporaryName s.free) = false := by
  by_contra h
  rw [Bool.not_eq_false] at h
  -- more different names would be in use than there are symbols
  have used : (List.range (s.size + 1)).map (fun k => temporaryName (s.counter + k)) ⊆
      s.entries.map Symbol.name := by
    intro name hname
    obtain ⟨k, hk, rfl⟩ := List.mem_map.mp hname
    rw [← contains_iff_mem]
    exact contains_of_contains_freeFrom h k (by have := List.mem_range.mp hk; omega)
  have distinct : ((List.range (s.size + 1)).map fun k => temporaryName (s.counter + k)).Nodup :=
    List.Nodup.map (fun a b hab => by have := temporaryName_inj hab; omega) List.nodup_range
  have := (distinct.subperm used).length_le
  simp only [List.length_map, List.length_range] at this
  rw [size] at this
  omega

theorem get?_free (s : Symbols) : s.get? (temporaryName s.free) = none :=
  get?_eq_none.mpr s.contains_free

/-! ## Temporaries -/

@[simp] theorem get?_fresh (s : Symbols) : s.get? s.fresh = none := s.get?_free

/-- A fresh temporary is added, and all other names are as before. -/
theorem get?_temporary (s : Symbols) (type : NumType) (name : String) :
    (s.temporary type).2.get? name =
      if s.fresh = name then some ⟨s.fresh, type, true⟩ else s.get? name := by
  simp only [temporary, get?, fresh, List.find?_cons]
  split <;> simp_all

theorem type?_temporary (s : Symbols) (type : NumType) (name : String) :
    (s.temporary type).2.type? name = if s.fresh = name then some type else s.type? name := by
  rw [type?, get?_temporary]
  split <;> rfl

@[simp] theorem type?_temporary_fresh (s : Symbols) (type : NumType) :
    (s.temporary type).2.type? s.fresh = some type := by
  simp [type?_temporary]

/-! ## Types -/

theorem type?_of_get? {name : String} {symbol : Symbol} (h : s.get? name = some symbol) :
    s.type? name = some symbol.type := by
  rw [type?, h, Option.map_some]

theorem get?_ne_none_of_type? {name : String} {type : NumType} (h : s.type? name = some type) :
    s.get? name ≠ none := by
  intro hs
  rw [type?, hs] at h
  cases h

@[simp] theorem typeOf_name {name : String} {type : NumType} :
    s.typeOf (.name name) = .ok type ↔ s.type? name = some type := by
  simp only [typeOf, lookup, type?]
  cases s.get? name <;> simp [Except.map]

theorem typeOf_fresh (s : Symbols) (type : NumType) :
    (s.temporary type).2.typeOf (.name s.fresh) = .ok type :=
  typeOf_name.mpr (s.type?_temporary_fresh type)

/-! ## Growth -/

/-- Every symbol is kept, and each new one is a temporary. -/
structure Grows (s s' : Symbols) : Prop where
  get? {name : String} {symbol : Symbol} : s.get? name = some symbol → s'.get? name = some symbol
  isTemporary {name : String} {symbol : Symbol} : s.get? name = none →
    s'.get? name = some symbol → symbol.isTemporary = true ∧ ∃ n, name = temporaryName n

theorem Grows.refl (s : Symbols) : s.Grows s :=
  ⟨id, fun h h' => by rw [h] at h'; cases h'⟩

theorem Grows.trans (h : s.Grows s') (h' : s'.Grows s'') : s.Grows s'' := by
  refine ⟨fun hs => h'.get? (h.get? hs), fun {name _} hn hs => ?_⟩
  cases hm : s'.get? name with
  | none => exact h'.isTemporary hm hs
  | some symbol =>
    rw [h'.get? hm] at hs
    cases hs
    exact h.isTemporary hn hm

/-- The fresh name is a new one, so no symbol is hidden by it. -/
theorem grows_temporary (s : Symbols) (type : NumType) : s.Grows (s.temporary type).2 := by
  constructor
  · intro name symbol h
    rw [get?_temporary, if_neg, h]
    rintro rfl
    simp at h
  · intro name symbol h h'
    rw [get?_temporary] at h'
    split at h' <;> rename_i hn
    · cases h'
      exact ⟨rfl, _, hn.symm⟩
    · rw [h] at h'
      cases h'

theorem Grows.get?_ne_none (h : s.Grows s') {name : String} (hn : s.get? name ≠ none) :
    s'.get? name ≠ none := by
  obtain ⟨symbol, hs⟩ := Option.ne_none_iff_exists'.mp hn
  rw [h.get? hs]
  exact Option.some_ne_none symbol

theorem Grows.type? (h : s.Grows s') {name : String} {type : NumType}
    (ht : s.type? name = some type) : s'.type? name = some type := by
  obtain ⟨symbol, hs, rfl⟩ := Option.map_eq_some_iff.mp ht
  exact type?_of_get? (h.get? hs)

/-- An operand keeps its type. -/
theorem Grows.typeOf (h : s.Grows s') {operand : Operand} {type : NumType}
    (ht : s.typeOf operand = .ok type) : s'.typeOf operand = .ok type := by
  cases operand with
  | name name => exact typeOf_name.mpr (h.type? (typeOf_name.mp ht))
  | literal l => exact ht
  | jump target => exact ht

end Symbols

/-! ## Steps that let symbols and warnings grow -/

namespace Compilation

variable {c c' c'' : Compilation}

/-- The symbols have grown, and warnings were added at the end. -/
structure Grows (c c' : Compilation) : Prop where
  symbols : c.symbols.Grows c'.symbols
  warnings : c.warnings <+: c'.warnings

theorem Grows.refl (c : Compilation) : c.Grows c :=
  ⟨.refl _, List.prefix_rfl⟩

theorem Grows.trans (h : c.Grows c') (h' : c'.Grows c'') : c.Grows c'' :=
  ⟨h.symbols.trans h'.symbols, h.warnings.trans h'.warnings⟩

end Compilation

/-- A problem that can be found in a tree while code is emitted. -/
def Problem.ofTree : Problem → Bool
  | .alreadyDeclared _ => true
  | .unknownVariable _ => true
  | .assignFloatToInt _ => true
  | .breakOutsideOfLoop => true
  | .unknownOperation _ => true
  | .targetAsValue _ => true
  | _ => false

namespace Emit

variable {α β : Type}

/-- The step fails with a problem of the tree only. -/
structure FailsOnTree (step : Emit α) : Prop where
  problem {c c' : Compilation} {error : Diagnostic} : step.on c = (.error error, c') →
    error.problem.ofTree = true

/-- A failure of two steps is that of the first or that of the second. -/
theorem FailsOnTree.bind {step : Emit α} {next : α → Emit β} (h : step.FailsOnTree)
    (h' : ∀ value, (next value).FailsOnTree) : (step >>= next).FailsOnTree := by
  refine ⟨fun he => ?_⟩
  rw [on_bind] at he
  split at he <;> rename_i heq
  · exact (h' _).problem he
  · cases he
    exact h.problem heq

theorem failsOnTree_pure (value : α) : (pure value : Emit α).FailsOnTree :=
  ⟨fun h => by cases h⟩

theorem failsOnTree_throw {error : Diagnostic} (h : error.problem.ofTree = true) :
    (throw error : Emit α).FailsOnTree :=
  ⟨fun h' => by cases h'; exact h⟩

theorem failsOnTree_located (position : Position) {r : Except Problem α}
    (h : ∀ problem, r = .error problem → problem.ofTree = true) :
    (located position r).FailsOnTree := by
  cases r with
  | ok value => exact failsOnTree_pure value
  | error problem => exact failsOnTree_throw (h problem rfl)

/-- Success or not, the step only lets symbols and warnings grow; it fails with a problem of the tree
only. -/
structure Extends (step : Emit α) : Prop extends step.FailsOnTree where
  grows (c : Compilation) : c.Grows (step.on c).2

theorem Extends.of_gives {step : Emit α} (h : step.Extends) {c c' : Compilation} {value : α}
    (hg : step.Gives c value c') : c.Grows c' := by
  have := h.grows c
  rwa [hg.on_eq] at this

theorem extends_pure (value : α) : (pure value : Emit α).Extends :=
  ⟨failsOnTree_pure value, fun c => .refl c⟩

theorem extends_throw {error : Diagnostic} (h : error.problem.ofTree = true) :
    (throw error : Emit α).Extends :=
  ⟨failsOnTree_throw h, fun c => .refl c⟩

theorem Extends.bind {step : Emit α} {next : α → Emit β} (h : step.Extends)
    (h' : ∀ value, (next value).Extends) : (step >>= next).Extends := by
  refine ⟨h.toFailsOnTree.bind fun value => (h' value).toFailsOnTree, fun c => ?_⟩
  have hc := h.grows c
  rw [on_bind]
  split <;> rename_i heq <;> rw [heq] at hc
  · exact hc.trans ((h' _).grows _)
  · exact hc

theorem extends_located (position : Position) {r : Except Problem α}
    (h : ∀ problem, r = .error problem → problem.ofTree = true) :
    (located position r).Extends :=
  ⟨failsOnTree_located position h, fun c => by rw [on_located]; exact .refl c⟩

theorem extends_lookup (name : String) (position : Position) : (lookup name position).Extends := by
  refine ⟨⟨fun {c _ _} he => ?_⟩, fun c => ?_⟩
  · rw [on_lookup, Symbols.lookup] at he
    split at he <;> cases he
    rfl
  · rw [on_lookup]
    exact .refl c

theorem extends_typeOf (operand : Operand) (position : Position) :
    (typeOf operand position).Extends := by
  refine ⟨⟨fun {c _ _} he => ?_⟩, fun c => ?_⟩
  · rw [on_typeOf] at he
    cases operand with
    | literal l => cases he
    | jump target =>
      cases he
      rfl
    | name slot =>
      rw [Symbols.typeOf, Symbols.lookup] at he
      split at he <;> cases he
      rfl
  · rw [on_typeOf]
    exact .refl c

theorem extends_warn (message : String) : (warn message).Extends :=
  ⟨⟨fun he => by cases he⟩, fun _ => ⟨.refl _, List.prefix_append ..⟩⟩

theorem extends_temporary (type : NumType) : (temporary type).Extends :=
  ⟨⟨fun he => by cases he⟩, fun c => ⟨c.symbols.grows_temporary type, List.prefix_rfl⟩⟩

theorem extends_arithmeticTemplate (symbol : String) (type : NumType) (dest : String)
    (left right : Operand) (position : Position) :
    (located position (Template.arithmetic symbol type dest left right)).Extends := by
  refine extends_located position fun problem h => ?_
  unfold Template.arithmetic at h
  split at h <;> cases h
  rfl

theorem extends_relationalTemplate (symbol : String) (type : NumType) (dest : String)
    (left right : Operand) (position : Position) :
    (located position (Template.relational symbol type dest left right)).Extends := by
  refine extends_located position fun problem h => ?_
  unfold Template.relational at h
  split at h <;> cases h
  rfl

theorem extends_widenTo (common own : NumType) (value : Operand) :
    (widenTo common own value).Extends := by
  unfold widenTo
  split
  · exact extends_pure _
  · exact (extends_temporary _).bind fun _ => extends_pure _

theorem extends_widenPair (left right : Operand) (position : Position) :
    (widenPair left right position).Extends :=
  (extends_typeOf ..).bind fun _ => (extends_typeOf ..).bind fun _ =>
    (extends_widenTo ..).bind fun _ => (extends_widenTo ..).bind fun _ => extends_pure _

theorem extends_arithmetic (operator : Operator) (left right : Operand) :
    (arithmetic operator left right).Extends :=
  (extends_widenPair ..).bind fun _ => (extends_temporary _).bind fun _ =>
    (extends_arithmeticTemplate ..).bind fun _ => extends_pure _

theorem extends_comparison (operator : Operator) (left right : Operand) :
    (comparison operator left right).Extends :=
  (extends_widenPair ..).bind fun _ => (extends_temporary _).bind fun _ =>
    (extends_relationalTemplate ..).bind fun _ => extends_pure _

theorem extends_castTo (type : NumType) (value : Operand) (position : Position) :
    (castTo type value position).Extends := by
  refine (extends_typeOf ..).bind fun own => ?_
  split
  · exact (extends_warn _).bind fun _ => extends_pure _
  · exact (extends_temporary _).bind fun _ => extends_pure _

theorem extends_assignment (target : Ident) (value : Operand) (position : Position) :
    (assignment target value position).Extends := by
  refine (extends_lookup ..).bind fun symbol => (extends_typeOf ..).bind fun own => ?_
  split
  · exact (extends_throw rfl).bind fun _ => (extends_widenTo ..).bind fun _ => extends_pure _
  · exact (extends_widenTo ..).bind fun _ => extends_pure _

theorem extends_printing (value : Operand) (position : Position) :
    (printing value position).Extends :=
  (extends_typeOf ..).bind fun _ => (extends_widenTo ..).bind fun _ => extends_pure _

theorem extends_caseTest (selector : Operand) (label : Literal) (dest : String) (size : Nat)
    (position : Position) : (caseTest selector label dest size position).Extends :=
  (extends_widenPair ..).bind fun _ => (extends_relationalTemplate ..).bind fun _ => extends_pure _

end Emit

open Emit

mutual

theorem Expression.extends_emit : ∀ e : Expression, e.emit.Extends
  | .term term => by
    rw [Expression.emit]
    exact term.extends_emit
  | .chain left operator right => by
    rw [Expression.emit]
    exact right.extends_emit.bind fun _ => left.extends_emit.bind fun _ =>
      (extends_arithmetic ..).bind fun _ => extends_pure _

theorem Term.extends_emit : ∀ t : Term, t.emit.Extends
  | .factor factor => by
    rw [Term.emit]
    exact factor.extends_emit
  | .chain left operator right => by
    rw [Term.emit]
    exact right.extends_emit.bind fun _ => left.extends_emit.bind fun _ =>
      (extends_arithmetic ..).bind fun _ => extends_pure _

theorem Factor.extends_emit : ∀ f : Factor, f.emit.Extends
  | .name ident => by
    rw [Factor.emit]
    exact (extends_lookup ..).bind fun _ => extends_pure _
  | .literal literal => by
    rw [Factor.emit]
    exact extends_pure _
  | .parens inner span => by
    rw [Factor.emit]
    exact inner.extends_emit
  | .cast type inner span => by
    rw [Factor.emit]
    exact inner.extends_emit.bind fun _ => (extends_castTo ..).bind fun _ => extends_pure _

end

mutual

theorem Condition.extends_emit : ∀ b : Condition, b.emit.Extends
  | .clause clause => by
    rw [Condition.emit]
    exact clause.extends_emit
  | .or left right => by
    rw [Condition.emit]
    exact right.extends_emit.bind fun _ => left.extends_emit.bind fun _ =>
      (extends_temporary _).bind fun _ => extends_pure _

theorem Clause.extends_emit : ∀ b : Clause, b.emit.Extends
  | .test test => by
    rw [Clause.emit]
    exact test.extends_emit
  | .and left right => by
    rw [Clause.emit]
    exact right.extends_emit.bind fun _ => left.extends_emit.bind fun _ =>
      (extends_temporary _).bind fun _ => extends_pure _

theorem Test.extends_emit : ∀ b : Test, b.emit.Extends
  | .compare left operator right => by
    rw [Test.emit]
    exact left.extends_emit.bind fun _ => right.extends_emit.bind fun _ =>
      (extends_comparison ..).bind fun _ => extends_pure _
  | .not inner span => by
    rw [Test.emit]
    exact inner.extends_emit.bind fun _ => (extends_temporary _).bind fun _ => extends_pure _

end

mutual

theorem Statement.extends_emit : ∀ st : Statement, st.emit.Extends
  | .assign target value span => by
    rw [Statement.emit]
    exact value.extends_emit.bind fun _ => (extends_assignment ..).bind fun _ => extends_pure _
  | .input target span => by
    rw [Statement.emit]
    exact (extends_lookup ..).bind fun _ => extends_pure _
  | .output value span => by
    rw [Statement.emit]
    exact value.extends_emit.bind fun _ => (extends_printing ..).bind fun _ => extends_pure _
  | .ifThen condition body span => by
    rw [Statement.emit]
    exact condition.extends_emit.bind fun _ => body.extends_emit.bind fun _ => extends_pure _
  | .ifElse condition body other span => by
    rw [Statement.emit]
    exact condition.extends_emit.bind fun _ => body.extends_emit.bind fun _ =>
      other.extends_emit.bind fun _ => extends_pure _
  | .loop condition body span => by
    rw [Statement.emit]
    exact body.extends_emit.bind fun _ => condition.extends_emit.bind fun _ => extends_pure _
  | .switch selector cases default span => by
    rw [Statement.emit]
    exact selector.extends_emit.bind fun _ => (extends_emitCases cases _).bind fun _ =>
      default.extends_emit.bind fun _ => extends_pure _
  | .leave span => by
    rw [Statement.emit]
    exact extends_pure _
  | .block block => by
    rw [Statement.emit]
    exact block.extends_emit

theorem Block.extends_emit : ∀ b : Block, b.emit.Extends
  | ⟨body, span⟩ => by
    rw [Block.emit]
    exact extends_emitStatements body

theorem extends_emitStatements : ∀ body : List Statement, (emitStatements body).Extends
  | [] => by
    rw [emitStatements]
    exact extends_pure _
  | first :: rest => by
    rw [emitStatements]
    exact first.extends_emit.bind fun _ => (extends_emitStatements rest).bind fun _ =>
      extends_pure _

theorem extends_emitCases : ∀ (cases : List Case) (selector : Operand),
    (emitCases selector cases).Extends
  | [], selector => by
    rw [emitCases]
    exact extends_pure _
  | ⟨label, body, span⟩ :: rest, selector => by
    rw [emitCases]
    exact (extends_temporary _).bind fun _ => body.extends_emit.bind fun _ =>
      (extends_caseTest ..).bind fun _ => (extends_emitCases rest selector).bind fun _ =>
        extends_pure _

end

end Cpl
