import Cpl.Proofs.Growth
import Cpl.Proofs.Meaning
import Cpl.Proofs.Names
import Cpl.Proofs.Simulation.Placement

/-!
# Running the code of expressions

The code of an expression or condition, wherever it stands in a program, computes the value that the
expression has, and gets stuck if it has none. Main statements:

* `Expression.computes`, `Condition.computes`: from the first line of its code the machine comes to the
  line after it, with the value in the operand, and no name that was in use before is changed; or, if
  an operation is undefined, it gets stuck (`Computes`).
* `Arithmetic.operation?_eq`, `Arithmetic.compare?_eq`: the templates do for each symbol what it means.
* `Expression.value_of_bareName?`, `Expression.value_undeclared`: the operand is a declared variable
  only if the expression just reads that variable, else it is a literal or a temporary.

All are proved for any scope whose names have their types in the symbols (`Symbols.Covers`), by
induction on the tree; the templates for one operation come first.
-/

namespace Cpl

open Emit Machine Arithmetic

variable {A : Arithmetic} {Γ : Scope} {code : List Instruction} {exit n : Nat}

/-! ## Symbols and stores -/

/-- The declared names have their types in the symbols. -/
structure Symbols.Covers (s : Symbols) (Γ : Scope) : Prop where
  type? {name : String} {type : NumType} : Γ name = some type → s.type? name = some type

theorem Symbols.Covers.grows {s s' : Symbols} (h : s.Covers Γ) (hg : s.Grows s') : s'.Covers Γ :=
  ⟨fun hn => hg.type? (h.type? hn)⟩

/-- All the names are declared. -/
def Scope.Has (Γ : Scope) (names : List String) : Prop :=
  ∀ name ∈ names, (Γ name).isSome

theorem Scope.has_append {Γ : Scope} {names names' : List String} :
    Γ.Has (names ++ names') ↔ Γ.Has names ∧ Γ.Has names' := by
  simp only [Scope.Has, List.mem_append, or_imp, forall_and]

/-- Of the slots, only ones that the symbols do not have yet are changed. -/
structure Keeps (s : Symbols) (w w' : World A) : Prop where
  store {name : String} : s.get? name ≠ none → w'.store name = w.store name
  input : w'.input = w.input
  output : w'.output = w.output

namespace Keeps

variable {s s' : Symbols} {w w' w'' : World A}

theorem refl (s : Symbols) (w : World A) : Keeps s w w := ⟨fun _ => rfl, rfl, rfl⟩

theorem trans (h : Keeps s w w') (hg : s.Grows s') (h' : Keeps s' w' w'') : Keeps s w w'' := by
  refine ⟨fun {name} hn => ?_, h'.input.trans h.input, h'.output.trans h.output⟩
  rw [h'.store (hg.get?_ne_none hn), h.store hn]

theorem set (w : World A) {dest : String} (hd : s.get? dest = none) (type : NumType)
    (v : A.Val type) : Keeps s w (w.set dest type v) := by
  refine ⟨fun {name} hn => w.set_store_of_ne dest type v ?_, rfl, rfl⟩
  rintro rfl
  exact hn hd

theorem sameOn (h : Keeps s w w') (hc : s.Covers Γ) : SameOn Γ w.store w'.store :=
  ⟨fun hn => h.store (Symbols.get?_ne_none_of_type? (hc.type? hn))⟩

/-- The value of an operand that has a type is kept. -/
theorem value (h : Keeps s w w') {operand : Operand} {type : NumType}
    (ht : s.typeOf operand = .ok type) (type' : NumType) :
    A.value w'.store type' operand = A.value w.store type' operand := by
  cases operand with
  | name slot =>
    have hs := Symbols.get?_ne_none_of_type? (Symbols.typeOf_name.mp ht)
    simp only [Arithmetic.value, h.store hs]
  | literal l => rfl
  | jump target => rfl

end Keeps

/-- The operand has the type of the value and holds it. -/
structure Holds (s : Symbols) (w : World A) (operand : Operand) (v : A.Value) : Prop where
  typeOf : s.typeOf operand = .ok v.1
  value : A.value w.store v.1 operand = some v.2

theorem Holds.keeps {s s' : Symbols} {w w' : World A} {operand : Operand} {v : A.Value}
    (h : Holds s w operand v) (hg : s.Grows s') (hk : Keeps s w w') : Holds s' w' operand v :=
  ⟨hg.typeOf h.typeOf, by rw [hk.value h.typeOf, h.value]⟩

theorem Holds.temporary (s : Symbols) (w : World A) (type : NumType) (v : A.Val type) :
    Holds (s.temporary type).2 (w.set s.fresh type v) (.name s.fresh) ⟨type, v⟩ :=
  ⟨Symbols.typeOf_name.mpr (s.type?_temporary_fresh type), by simp [Arithmetic.value]⟩

/-- An operand that has a type is not the next temporary. -/
theorem Symbols.ne_fresh_of_typeOf {s : Symbols} {operand : Operand} {type : NumType}
    (h : s.typeOf operand = .ok type) : operand ≠ .name s.fresh := by
  rintro rfl
  have := typeOf_name.mp h
  simp [type?] at this

/-! ## Operators

The templates know exactly the symbols that have a meaning. -/

namespace Arithmetic

theorem operation?_eq (symbol : String) : operation? symbol = Arith.ofSymbol? symbol := by
  unfold operation? Arith.ofSymbol?
  split <;> simp_all

/-- Whether two values are in the relation that a template tests. -/
def satisfies (type : NumType) : Relation → A.Val type → A.Val type → Bool
  | .exact comparison, l, r => A.holds comparison type l r
  | .orEqual strict, l, r => A.holds .equal type l r || A.holds strict type l r

theorem compare?_eq (symbol : String) {type : NumType} (x y : A.Val type) :
    compare? symbol type x y =
      (Relation.ofSymbol? symbol).map fun relation => satisfies type relation x y := by
  unfold compare? Relation.ofSymbol?
  split <;> simp_all [satisfies, Bool.or_comm]

end Arithmetic

/-! ## Templates -/

theorem value_set_of_ne (w : World A) {dest : String} {operand : Operand}
    (h : operand ≠ .name dest) (type : NumType) (v : A.Val type) (type' : NumType) :
    A.value (w.set dest type v).store type' operand = A.value w.store type' operand := by
  cases operand with
  | name slot =>
    have hs : slot ≠ dest := fun e => h (by rw [e])
    simp only [Arithmetic.value, w.set_store_of_ne dest type v hs]
  | literal l => rfl
  | jump target => rfl

section

variable {w : World A} {dest : String} {type : NumType} {left right : Operand}

theorem step_arithmetic {symbol : String} {part : List Instruction} {x y : A.Val type}
    (h : Template.arithmetic symbol type dest left right = .ok part)
    (hp : Placed code exit n part) (hl : A.value w.store type left = some x)
    (hr : A.value w.store type right = some y) :
    ∃ operation, operation? symbol = some operation ∧ part.length = 1 ∧
      match A.arith operation type x y with
      | some v => step code ⟨n, w⟩ = some ⟨n + 1, w.set dest type v⟩
      | none => Stuck code ⟨n, w⟩ := by
  unfold Template.arithmetic at h
  split at h <;> cases h
  rename_i operation ho
  refine ⟨operation, (operation?_eq symbol).trans ho, rfl, ?_⟩
  split <;> rename_i ha
  · exact step_on hp.1 (by simp [Opcode.exec, hl, hr, ha])
  · exact stuck_of_exec hp.1 (by simp [Opcode.exec, hl, hr, ha])

theorem step_convert_float {value : Operand} {x : A.Val .int}
    (hf : fetch code n = some (Template.convert .float dest value))
    (hv : A.value w.store .int value = some x) :
    step code ⟨n, w⟩ = some ⟨n + 1, w.set dest .float (A.toReal x)⟩ :=
  step_on hf (by simp [Opcode.exec, hv])

theorem step_convert_int {value : Operand} {x : A.Val .float}
    (hf : fetch code n = some (Template.convert .int dest value))
    (hv : A.value w.store .float value = some x) :
    step code ⟨n, w⟩ = some ⟨n + 1, w.set dest .int (A.toInt x)⟩ :=
  step_on hf (by simp [Opcode.exec, hv])

theorem step_compare {comparison : Compare} {x y : A.Val type}
    (hf : fetch code n = some (.quad (.compare comparison type) [.name dest, left, right]))
    (hl : A.value w.store type left = some x) (hr : A.value w.store type right = some y) :
    step code ⟨n, w⟩ =
      some ⟨n + 1, w.set dest .int (A.truth (A.holds comparison type x y))⟩ :=
  step_on hf (by simp [Opcode.exec, hl, hr])

/-- A conditional jump on a truth value. -/
theorem step_jumpIfZero {target : Target} {condition : Operand} {m : Nat} {b : Bool}
    (hf : fetch code n = some (.jumpIfZero target condition)) (hl : target.lands n = some m)
    (hv : A.value w.store .int condition = some (A.truth b)) :
    step code ⟨n, w⟩ = some ⟨if b then n + 1 else m, w⟩ := by
  cases b with
  | false => exact step_jump hf (by simp [Opcode.exec, hv]) hl
  | true => exact step_on hf (by simp [Opcode.exec, hv])

/-- The code of a comparison leaves its truth value in the slot. The slot must not be one of the
operands, since they are read again after it was written. -/
theorem reaches_relational {symbol : String} {part : List Instruction} {x y : A.Val type}
    (h : Template.relational symbol type dest left right = .ok part)
    (hp : Placed code exit n part) (hl : A.value w.store type left = some x)
    (hr : A.value w.store type right = some y) (hld : left ≠ .name dest)
    (hrd : right ≠ .name dest) :
    ∃ b, compare? symbol type x y = some b ∧
      Reaches code ⟨n, w⟩ ⟨n + part.length, w.set dest .int (A.truth b)⟩ := by
  rw [compare?_eq]
  unfold Template.relational at h
  split at h <;> cases h <;> rename_i ho
  · exact ⟨_, by rw [ho]; rfl, .single (step_compare hp.1 hl hr)⟩
  · rename_i strict
    obtain ⟨h₀, h₁, h₂, h₃, -⟩ := hp
    refine ⟨_, by rw [ho]; rfl, .head (step_compare h₀ hl hr) ?_⟩
    have hd : A.value (w.set dest .int (A.truth (A.holds .equal type x y))).store .int
        (.name dest) = some (A.truth (A.holds .equal type x y)) := by
      simp [Arithmetic.value]
    refine .head (step_jumpIfZero h₁ rfl hd) ?_
    -- Equal values skip the strict test, which writes the same slot again.
    cases he : A.holds .equal type x y with
    | true =>
      refine .single ((Goes.step_eq ⟨_, h₂, rfl⟩ _).trans ?_)
      simp [satisfies, he, Nat.add_assoc]
    | false =>
      have hx := value_set_of_ne w hld .int (A.truth false) type
      have hy := value_set_of_ne w hrd .int (A.truth false) type
      refine .single ((step_compare h₃ (hx.trans hl) (hy.trans hr)).trans ?_)
      simp [satisfies, he, Nat.add_assoc]

/-! Both templates set the slot to false first, and to true unless the tests jump over that. -/

theorem step_setTruth (b : Bool)
    (hf : fetch code n = some (Template.setTruth dest (if b then "1" else "0"))) :
    step code ⟨n, w⟩ = some ⟨n + 1, w.set dest .int (A.truth b)⟩ :=
  step_on hf (by simp [Opcode.exec, Arithmetic.value, truth])

theorem reaches_logicalAnd {a b : Bool} (hp : Placed code exit n (Template.logicalAnd dest left right))
    (hl : A.value w.store .int left = some (A.truth a))
    (hr : A.value w.store .int right = some (A.truth b)) (hld : left ≠ .name dest)
    (hrd : right ≠ .name dest) :
    Reaches code ⟨n, w⟩ ⟨n + 4, w.set dest .int (A.truth (a && b))⟩ := by
  obtain ⟨h₀, h₁, h₂, h₃, -⟩ := hp
  have hx := (value_set_of_ne w hld .int (A.truth false) .int).trans hl
  have hy := (value_set_of_ne w hrd .int (A.truth false) .int).trans hr
  refine .head (step_setTruth false h₀) (.head (step_jumpIfZero h₁ rfl hx) ?_)
  cases a with
  | false => exact .refl _ _
  | true =>
    refine .head (step_jumpIfZero h₂ rfl hy) ?_
    cases b with
    | false => exact .refl _ _
    | true =>
      refine .single ((step_setTruth true h₃).trans ?_)
      simp

theorem reaches_logicalOr {a b : Bool} (hp : Placed code exit n (Template.logicalOr dest left right))
    (hl : A.value w.store .int left = some (A.truth a))
    (hr : A.value w.store .int right = some (A.truth b)) (hld : left ≠ .name dest)
    (hrd : right ≠ .name dest) :
    Reaches code ⟨n, w⟩ ⟨n + 5, w.set dest .int (A.truth (a || b))⟩ := by
  obtain ⟨h₀, h₁, h₂, h₃, h₄, -⟩ := hp
  have hx := (value_set_of_ne w hld .int (A.truth false) .int).trans hl
  have hy (c : Bool) := (value_set_of_ne w hrd .int (A.truth c) .int).trans hr
  refine .head (step_setTruth false h₀) (.head (step_jumpIfZero h₁ rfl hx) ?_)
  have last {c : Bool} : Reaches code ⟨n + 3, w.set dest .int (A.truth c)⟩
      ⟨n + 5, w.set dest .int (A.truth (c || b))⟩ := by
    refine .head (step_jumpIfZero h₃ rfl (hy c)) ?_
    cases b with
    | false => rw [Bool.or_false]; exact .refl _ _
    | true =>
      refine .single ((step_setTruth true h₄).trans ?_)
      simp
  cases a with
  | false => exact last
  | true =>
    refine .head ((step_setTruth true h₂).trans ?_) last
    simp

theorem step_logicalNot {value : Operand} {b : Bool}
    (hf : fetch code n = some (Template.logicalNot dest value))
    (hv : A.value w.store .int value = some (A.truth b)) :
    step code ⟨n, w⟩ = some ⟨n + 1, w.set dest .int (A.truth !b)⟩ := by
  refine (step_compare hf hv rfl).trans ?_
  rw [holds_truth_zero]

end

/-! ## Operations -/

/-- Running from line `n` in the world `w` comes to line `next` with the result in the operand, or gets
stuck if there is no result. The names of `s` are not changed; the operand has its type in `s'`. -/
def Computes (code : List Instruction) (n : Nat) (w : World A) (next : Nat) (s s' : Symbols)
    (operand : Operand) : Option A.Value → Prop :=
  Yields code n w fun v m w' => m = next ∧ Keeps s w w' ∧ Holds s' w' operand v

theorem Computes.value {w w' : World A} {next : Nat} {s s' : Symbols} {operand : Operand}
    {v : A.Value} (hr : Reaches code ⟨n, w⟩ ⟨next, w'⟩) (hk : Keeps s w w')
    (hv : Holds s' w' operand v) : Computes code n w next s s' operand (some v) :=
  Yields.value hr ⟨rfl, hk, hv⟩

theorem Computes.of_reaches {w w' : World A} {m next : Nat} {s s₁ s₂ : Symbols}
    {operand : Operand} {r : Option A.Value} (h : Reaches code ⟨n, w⟩ ⟨m, w'⟩) (hk : Keeps s w w')
    (hg : s.Grows s₁) (hc : Computes code m w' next s₁ s₂ operand r) :
    Computes code n w next s s₂ operand r := by
  refine Yields.of_reaches h (hc.mono ?_)
  rintro v _ w'' ⟨rfl, hk', hv⟩
  exact ⟨rfl, hk.trans hg hk', hv⟩

/-- One computation after the other. -/
theorem Computes.bind {w : World A} {m next : Nat} {s s₁ s₂ : Symbols} {first last : Operand}
    {r : Option A.Value} {f : A.Value → Option A.Value}
    (h : Computes code n w m s s₁ first r) (hg : s.Grows s₁)
    (k : ∀ {v w'}, Keeps s w w' → Holds s₁ w' first v →
      Computes code m w' next s₁ s₂ last (f v)) :
    Computes code n w next s s₂ last (r.bind f) := by
  refine Yields.bind h ?_
  rintro v _ w' ⟨rfl, hk, hv⟩
  refine (k hk hv).mono ?_
  rintro v' _ w'' ⟨rfl, hk', hv'⟩
  exact ⟨rfl, hk.trans hg hk', hv'⟩

section

variable {w : World A} {c c' : Compilation} {result : Emitted}

/-- Widening brings the value into the operand at the common type. -/
theorem reaches_widenTo {common own : NumType} {value : Operand} {v : A.Value} {x : A.Val common}
    (hg : (Emit.widenTo common own value).Gives c result c') (ho : own = v.1)
    (hv : Holds c.symbols w value v) (hx : Arithmetic.widenTo common v = some x)
    (hp : Placed code exit n result.code) :
    ∃ w', Reaches code ⟨n, w⟩ ⟨n + result.code.length, w'⟩ ∧ Keeps c.symbols w w' ∧
      Holds c'.symbols w' result.value ⟨common, x⟩ := by
  obtain ⟨type, v⟩ := v
  subst ho
  rcases gives_widenTo.mp hg with ⟨rfl, rfl, rfl⟩ | ⟨hne, rfl, rfl⟩
  · have hvx : v = x := by cases own <;> simpa [Arithmetic.widenTo] using hx
    exact ⟨w, .refl _ _, .refl _ _, hvx ▸ hv⟩
  · cases own <;> cases common <;> simp only [Arithmetic.widenTo, Option.some.injEq, ne_eq,
      not_true_eq_false, reduceCtorEq] at hne hx
    subst hx
    exact ⟨_, .single (step_convert_float hp.1 hv.value), .set w c.symbols.get?_fresh _ _,
      .temporary c.symbols w .float _⟩

/-- Both values are there at the type in which they meet. -/
theorem reaches_widenPair {left right : Operand} {position : Position} {pair : Pair} {l r : A.Value}
    (hg : (widenPair left right position).Gives c pair c') (hl : Holds c.symbols w left l)
    (hr : Holds c.symbols w right r) (hp : Placed code exit n pair.code) :
    ∃ w' x y, Reaches code ⟨n, w⟩ ⟨n + pair.code.length, w'⟩ ∧ Keeps c.symbols w w' ∧
      pair.type = l.1.unify r.1 ∧ Arithmetic.widenTo pair.type l = some x ∧
      Arithmetic.widenTo pair.type r = some y ∧ Holds c'.symbols w' pair.left ⟨pair.type, x⟩ ∧
      Holds c'.symbols w' pair.right ⟨pair.type, y⟩ := by
  obtain ⟨lt, rt, el, d, er, hlt, hrt, hgl, hgr, rfl⟩ := gives_widenPair.mp hg
  obtain rfl : lt = l.1 := Except.ok.inj (hlt.symm.trans hl.typeOf)
  obtain rfl : rt = r.1 := Except.ok.inj (hrt.symm.trans hr.typeOf)
  obtain ⟨hpl, hpr⟩ := placed_append.mp hp
  obtain ⟨x, hx⟩ := exists_widenTo (NumType.unify_takes_left l.1 r.1)
  obtain ⟨y, hy⟩ := exists_widenTo (NumType.unify_takes_right l.1 r.1)
  have gl := ((extends_widenTo ..).of_gives hgl).symbols
  have gr := ((extends_widenTo ..).of_gives hgr).symbols
  obtain ⟨w₁, h₁, k₁, v₁⟩ := reaches_widenTo hgl rfl hl hx hpl
  obtain ⟨w₂, h₂, k₂, v₂⟩ := reaches_widenTo hgr rfl (hr.keeps gl k₁) hy hpr
  refine ⟨w₂, x, y, ?_, k₁.trans gl k₂, rfl, hx, hy, v₁.keeps gr k₂, v₂⟩
  rw [List.length_append, ← Nat.add_assoc]
  exact h₁.trans h₂

/-- The operation has its result in the operand; if it is undefined the machine is stuck. -/
theorem computes_arithmetic {operator : Operator} {left right : Operand} {l r : A.Value}
    (hg : (arithmetic operator left right).Gives c result c') (hl : Holds c.symbols w left l)
    (hr : Holds c.symbols w right r) (hp : Placed code exit n result.code) :
    Computes code n w (n + result.code.length) c.symbols c'.symbols result.value
      ((operation? operator.symbol).bind fun operation => combine operation l r) := by
  obtain ⟨pair, d, part, hgp, ht, rfl, rfl⟩ := gives_arithmetic.mp hg
  obtain ⟨hpp, hpt⟩ := placed_append.mp hp
  have gp := ((extends_widenPair ..).of_gives hgp).symbols
  obtain ⟨w₁, x, y, h₁, k₁, htype, hx, hy, vx, vy⟩ := reaches_widenPair hgp hl hr hpp
  obtain ⟨operation, ho, hlen, hs⟩ := step_arithmetic ht hpt vx.value vy.value
  refine .of_reaches h₁ k₁ gp ?_
  rw [ho, Option.bind_some, combine_eq operation htype hx hy, List.length_append, hlen,
    ← Nat.add_assoc]
  split at hs <;> rename_i ha <;> rw [ha]
  · exact .value (.single hs) (.set w₁ d.symbols.get?_fresh _ _) (.temporary d.symbols w₁ _ _)
  · exact Yields.stuck (.refl _ _) hs

/-- The result of a comparison, as a value. -/
def bool (b : Bool) : A.Value :=
  ⟨.int, A.truth b⟩

/-- Comparisons are always defined. -/
theorem computes_comparison {operator : Operator} {left right : Operand} {l r : A.Value}
    (hg : (comparison operator left right).Gives c result c') (hl : Holds c.symbols w left l)
    (hr : Holds c.symbols w right r) (hp : Placed code exit n result.code) :
    Computes code n w (n + result.code.length) c.symbols c'.symbols result.value
      ((related operator.symbol l r).map bool) := by
  obtain ⟨pair, d, part, hgp, ht, rfl, rfl⟩ := gives_comparison.mp hg
  obtain ⟨hpp, hpt⟩ := placed_append.mp hp
  have gp := ((extends_widenPair ..).of_gives hgp).symbols
  obtain ⟨w₁, x, y, h₁, k₁, htype, hx, hy, vx, vy⟩ := reaches_widenPair hgp hl hr hpp
  obtain ⟨b, hb, hs⟩ := reaches_relational ht hpt vx.value vy.value
    (Symbols.ne_fresh_of_typeOf vx.typeOf) (Symbols.ne_fresh_of_typeOf vy.typeOf)
  refine .of_reaches h₁ k₁ gp ?_
  rw [related_eq operator.symbol htype hx hy, hb, List.length_append, ← Nat.add_assoc]
  exact .value hs (.set w₁ d.symbols.get?_fresh _ _) (.temporary d.symbols w₁ _ _)

/-- So are casts. -/
theorem computes_castTo {type : NumType} {value : Operand} {position : Position} {v : A.Value}
    (hg : (Emit.castTo type value position).Gives c result c') (hv : Holds c.symbols w value v)
    (hp : Placed code exit n result.code) :
    Computes code n w (n + result.code.length) c.symbols c'.symbols result.value
      (some ⟨type, Arithmetic.castTo type v⟩) := by
  obtain ⟨own, v⟩ := v
  obtain ⟨t, ht, h⟩ := gives_castTo.mp hg
  obtain rfl : t = own := Except.ok.inj (ht.symm.trans hv.typeOf)
  rcases h with ⟨rfl, rfl, rfl⟩ | ⟨hne, rfl, rfl⟩
  · have hc : Arithmetic.castTo t ⟨t, v⟩ = v := by cases t <;> rfl
    rw [hc]
    exact .value (.refl _ _) (.refl _ _) ⟨hv.typeOf, hv.value⟩
  · refine .value (.single ?_) (.set w c.symbols.get?_fresh _ _) (.temporary c.symbols w _ _)
    cases t <;> cases type
    · exact absurd rfl hne
    · exact step_convert_float hp.1 hv.value
    · exact step_convert_int hp.1 hv.value
    · exact absurd rfl hne

/-- A chain: the right operand, what is to its left, and then the operation. -/
theorem computes_chain {operator : Operator} {c₁ c₂ : Compilation} {r l joined : Emitted}
    {er el : Option A.Value} (gr : c.symbols.Grows c₁.symbols) (gl : c₁.symbols.Grows c₂.symbols)
    (hg : (arithmetic operator l.value r.value).Gives c₂ joined c')
    (hp : Placed code exit (n + r.code.length + l.code.length) joined.code)
    (hr : Computes code n w (n + r.code.length) c.symbols c₁.symbols r.value er)
    (hl : ∀ {w'}, Keeps c.symbols w w' → Computes code (n + r.code.length) w'
      (n + r.code.length + l.code.length) c₁.symbols c₂.symbols l.value el) :
    Computes code n w (n + (r.code ++ l.code ++ joined.code).length) c.symbols c'.symbols
      joined.value (er.bind fun rv => el.bind fun lv =>
        (operation? operator.symbol).bind fun operation => combine operation lv rv) := by
  refine hr.bind gr fun k₁ v₁ => (hl k₁).bind gl fun k₂ v₂ => ?_
  rw [List.length_append, List.length_append, ← Nat.add_assoc, ← Nat.add_assoc]
  exact computes_arithmetic hg v₂ (v₁.keeps gl k₂) hp

end

/-! ## Expressions -/

mutual

/-- The machine computes the value of the expression. -/
theorem Expression.computes : ∀ (e : Expression) {c c' : Compilation} {result : Emitted} {n : Nat}
    (w : World A), e.emit.Gives c result c' → c.symbols.Covers Γ → Γ.Has e.names →
    Placed code exit n result.code →
    Computes code n w (n + result.code.length) c.symbols c'.symbols result.value
      (e.eval Γ w.store)
  | .term term, _, _, _, _, w, hg, hc, hn, hp =>
    term.computes w (Expression.gives_term.mp hg) hc (by rwa [Expression.names] at hn) hp
  | .chain left operator right, _, _, _, _, w, hg, hc, hn, hp => by
    obtain ⟨r, c₁, l, c₂, joined, hr, hl, hj, rfl⟩ := Expression.gives_chain.mp hg
    rw [Expression.names, Scope.has_append] at hn
    rw [placed_append, placed_append, List.length_append, ← Nat.add_assoc] at hp
    have gr := (right.extends_emit.of_gives hr).symbols
    have gl := (left.extends_emit.of_gives hl).symbols
    refine computes_chain gr gl hj hp.2 (right.computes w hr hc hn.2 hp.1.1) fun k => ?_
    -- the code of the right operand has written temporaries, which the left one does not read
    rw [← left.eval_congr (k.sameOn hc)]
    exact left.computes _ hl (hc.grows gr) hn.1 hp.1.2

theorem Term.computes : ∀ (t : Term) {c c' : Compilation} {result : Emitted} {n : Nat}
    (w : World A), t.emit.Gives c result c' → c.symbols.Covers Γ → Γ.Has t.names →
    Placed code exit n result.code →
    Computes code n w (n + result.code.length) c.symbols c'.symbols result.value
      (t.eval Γ w.store)
  | .factor factor, _, _, _, _, w, hg, hc, hn, hp =>
    factor.computes w (Term.gives_factor.mp hg) hc (by rwa [Term.names] at hn) hp
  | .chain left operator right, _, _, _, _, w, hg, hc, hn, hp => by
    obtain ⟨r, c₁, l, c₂, joined, hr, hl, hj, rfl⟩ := Term.gives_chain.mp hg
    rw [Term.names, Scope.has_append] at hn
    rw [placed_append, placed_append, List.length_append, ← Nat.add_assoc] at hp
    have gr := (right.extends_emit.of_gives hr).symbols
    have gl := (left.extends_emit.of_gives hl).symbols
    refine computes_chain gr gl hj hp.2 (right.computes w hr hc hn.2 hp.1.1) fun k => ?_
    rw [← left.eval_congr (k.sameOn hc)]
    exact left.computes _ hl (hc.grows gr) hn.1 hp.1.2

theorem Factor.computes : ∀ (f : Factor) {c c' : Compilation} {result : Emitted} {n : Nat}
    (w : World A), f.emit.Gives c result c' → c.symbols.Covers Γ → Γ.Has f.names →
    Placed code exit n result.code →
    Computes code n w (n + result.code.length) c.symbols c'.symbols result.value
      (f.eval Γ w.store)
  | .name ident, _, _, _, _, w, hg, hc, hn, _ => by
    obtain ⟨symbol, -, rfl, rfl⟩ := Factor.gives_name.mp hg
    obtain ⟨type, ht⟩ := Option.isSome_iff_exists.mp (hn ident.name (by simp [Factor.names]))
    rw [Factor.eval, Arithmetic.lookup?, ht]
    exact .value (.refl _ _) (.refl _ _) ⟨Symbols.typeOf_name.mpr (hc.type? ht), rfl⟩
  | .literal l, _, _, _, _, w, hg, _, _, _ => by
    obtain ⟨rfl, rfl⟩ := Factor.gives_literal.mp hg
    rw [Factor.eval, A.number_eq]
    exact .value (.refl _ _) (.refl _ _) ⟨rfl, rfl⟩
  | .parens inner span, _, _, _, _, w, hg, hc, hn, hp => by
    rw [Factor.names] at hn
    rw [Factor.eval]
    exact inner.computes w (Factor.gives_parens.mp hg) hc hn hp
  | .cast type inner span, _, _, _, _, w, hg, hc, hn, hp => by
    obtain ⟨e, c₁, last, he, hl, rfl⟩ := Factor.gives_cast.mp hg
    rw [Factor.names] at hn
    rw [placed_append] at hp
    have ge := (inner.extends_emit.of_gives he).symbols
    rw [Factor.eval, List.length_append, ← Nat.add_assoc]
    exact (inner.computes w he hc hn hp.1).bind ge fun _ v => computes_castTo hl v hp.2

end

/-! ## Conditions -/

/-- The same as `Computes.bind`, for truth values. -/
theorem Computes.bindBool {w : World A} {m next : Nat} {s s₁ s₂ : Symbols} {first last : Operand}
    {r : Option Bool} {f : Bool → Option Bool}
    (h : Computes code n w m s s₁ first (r.map bool)) (hg : s.Grows s₁)
    (k : ∀ {b w'}, Keeps s w w' → Holds s₁ w' first (bool b) →
      Computes code m w' next s₁ s₂ last ((f b).map bool)) :
    Computes code n w next s s₂ last ((r.bind f).map bool) := by
  cases r with
  | none =>
    cases h with
    | stuck hr hs => exact Yields.stuck hr hs
  | some b =>
    obtain ⟨_, w', hr, rfl, hk, hv⟩ := h.reaches
    exact .of_reaches hr hk hg (k hk hv)

mutual

/-- The machine computes one or zero for the value of the condition. -/
theorem Condition.computes : ∀ (b : Condition) {c c' : Compilation} {result : Emitted} {n : Nat}
    (w : World A), b.emit.Gives c result c' → c.symbols.Covers Γ → Γ.Has b.names →
    Placed code exit n result.code →
    Computes code n w (n + result.code.length) c.symbols c'.symbols result.value
      ((b.eval Γ w.store).map bool)
  | .clause clause, _, _, _, _, w, hg, hc, hn, hp => by
    rw [Condition.names] at hn
    rw [Condition.eval]
    exact clause.computes w (Condition.gives_clause.mp hg) hc hn hp
  | .or left right, _, _, _, _, w, hg, hc, hn, hp => by
    obtain ⟨r, c₁, l, c₂, hr, hl, rfl, rfl⟩ := Condition.gives_or.mp hg
    rw [Condition.names, Scope.has_append] at hn
    rw [placed_append, placed_append, List.length_append, ← Nat.add_assoc] at hp
    have gr := (right.extends_emit.of_gives hr).symbols
    have gl := (left.extends_emit.of_gives hl).symbols
    rw [Condition.eval, List.length_append, List.length_append, ← Nat.add_assoc, ← Nat.add_assoc]
    refine (right.computes w hr hc hn.2 hp.1.1).bindBool gr fun k₁ v₁ => ?_
    rw [← left.eval_congr (k₁.sameOn hc)]
    refine (left.computes _ hl (hc.grows gr) hn.1 hp.1.2).bindBool gl fun k₂ v₂ => ?_
    have v₁ := v₁.keeps gl k₂
    exact .value (reaches_logicalOr hp.2 v₂.value v₁.value (Symbols.ne_fresh_of_typeOf v₂.typeOf)
      (Symbols.ne_fresh_of_typeOf v₁.typeOf)) (.set _ c₂.symbols.get?_fresh _ _)
      (.temporary c₂.symbols _ _ _)

theorem Clause.computes : ∀ (b : Clause) {c c' : Compilation} {result : Emitted} {n : Nat}
    (w : World A), b.emit.Gives c result c' → c.symbols.Covers Γ → Γ.Has b.names →
    Placed code exit n result.code →
    Computes code n w (n + result.code.length) c.symbols c'.symbols result.value
      ((b.eval Γ w.store).map bool)
  | .test test, _, _, _, _, w, hg, hc, hn, hp => by
    rw [Clause.names] at hn
    rw [Clause.eval]
    exact test.computes w (Clause.gives_test.mp hg) hc hn hp
  | .and left right, _, _, _, _, w, hg, hc, hn, hp => by
    obtain ⟨r, c₁, l, c₂, hr, hl, rfl, rfl⟩ := Clause.gives_and.mp hg
    rw [Clause.names, Scope.has_append] at hn
    rw [placed_append, placed_append, List.length_append, ← Nat.add_assoc] at hp
    have gr := (right.extends_emit.of_gives hr).symbols
    have gl := (left.extends_emit.of_gives hl).symbols
    rw [Clause.eval, List.length_append, List.length_append, ← Nat.add_assoc, ← Nat.add_assoc]
    refine (right.computes w hr hc hn.2 hp.1.1).bindBool gr fun k₁ v₁ => ?_
    rw [← left.eval_congr (k₁.sameOn hc)]
    refine (left.computes _ hl (hc.grows gr) hn.1 hp.1.2).bindBool gl fun k₂ v₂ => ?_
    have v₁ := v₁.keeps gl k₂
    exact .value (reaches_logicalAnd hp.2 v₂.value v₁.value (Symbols.ne_fresh_of_typeOf v₂.typeOf)
      (Symbols.ne_fresh_of_typeOf v₁.typeOf)) (.set _ c₂.symbols.get?_fresh _ _)
      (.temporary c₂.symbols _ _ _)

theorem Test.computes : ∀ (b : Test) {c c' : Compilation} {result : Emitted} {n : Nat}
    (w : World A), b.emit.Gives c result c' → c.symbols.Covers Γ → Γ.Has b.names →
    Placed code exit n result.code →
    Computes code n w (n + result.code.length) c.symbols c'.symbols result.value
      ((b.eval Γ w.store).map bool)
  | .compare left operator right, _, _, _, _, w, hg, hc, hn, hp => by
    obtain ⟨l, c₁, r, c₂, joined, hl, hr, hj, rfl⟩ := Test.gives_compare.mp hg
    rw [Test.names, Scope.has_append] at hn
    rw [placed_append, placed_append, List.length_append, ← Nat.add_assoc] at hp
    have gl := (left.extends_emit.of_gives hl).symbols
    have gr := (right.extends_emit.of_gives hr).symbols
    have he : (Test.compare left operator right).eval Γ w.store =
        (left.eval Γ w.store).bind fun lv => (right.eval Γ w.store).bind fun rv =>
          related operator.symbol lv rv := by
      rw [Test.eval]
      rfl
    rw [he, Option.map_bind, List.length_append, List.length_append, ← Nat.add_assoc,
      ← Nat.add_assoc]
    refine (left.computes w hl hc hn.1 hp.1.1).bind gl fun k₁ v₁ => ?_
    rw [Function.comp_apply, Option.map_bind, ← right.eval_congr (k₁.sameOn hc)]
    refine (right.computes _ hr (hc.grows gl) hn.2 hp.1.2).bind gr fun k₂ v₂ => ?_
    exact computes_comparison hj (v₁.keeps gr k₂) v₂ hp.2
  | .not inner span, _, _, _, _, w, hg, hc, hn, hp => by
    obtain ⟨e, c₁, he, rfl, rfl⟩ := Test.gives_not.mp hg
    rw [Test.names] at hn
    rw [placed_append] at hp
    have ge := (inner.extends_emit.of_gives he).symbols
    rw [Test.eval, List.length_append, ← Nat.add_assoc]
    exact (inner.computes w he hc hn hp.1).bindBool ge fun _ v =>
      .value (.single (step_logicalNot hp.2.1 v.value)) (.set _ c₁.symbols.get?_fresh _ _)
        (.temporary c₁.symbols _ _ _)

end

/-! ## Expressions that just read a variable -/

theorem Symbols.Covers.fresh {s : Symbols} (h : s.Covers Γ) : Γ s.fresh = none := by
  cases hn : Γ s.fresh with
  | none => rfl
  | some type =>
    have := h.type? hn
    simp [Symbols.type?] at this

mutual

theorem Expression.mem_names_of_bareName? {name : String} :
    ∀ e : Expression, e.bareName? Γ = some name → name ∈ e.names
  | .term term, h => by
    rw [Expression.bareName?] at h
    rw [Expression.names]
    exact term.mem_names_of_bareName? h
  | .chain left operator right, h => by
    rw [Expression.bareName?] at h
    cases h

theorem Term.mem_names_of_bareName? {name : String} :
    ∀ t : Term, t.bareName? Γ = some name → name ∈ t.names
  | .factor factor, h => by
    rw [Term.bareName?] at h
    rw [Term.names]
    exact factor.mem_names_of_bareName? h
  | .chain left operator right, h => by
    rw [Term.bareName?] at h
    cases h

theorem Factor.mem_names_of_bareName? {name : String} :
    ∀ f : Factor, f.bareName? Γ = some name → name ∈ f.names
  | .name ident, h => by
    rw [Factor.bareName?] at h
    cases h
    simp [Factor.names]
  | .literal l, h => by
    rw [Factor.bareName?] at h
    cases h
  | .parens inner span, h => by
    rw [Factor.bareName?] at h
    rw [Factor.names]
    exact inner.mem_names_of_bareName? h
  | .cast type inner span, h => by
    rw [Factor.bareName?] at h
    rw [Factor.names]
    exact inner.mem_names_of_bareName? (Option.eq_some_of_filter_eq_some h)

end

mutual

/-- The variable itself is the operand, and there is no code. -/
theorem Expression.value_of_bareName? {name : String} :
    ∀ (e : Expression) {c c' : Compilation} {result : Emitted}, e.bareName? Γ = some name →
    e.emit.Gives c result c' → c.symbols.Covers Γ → result = ⟨[], .name name⟩
  | .term term, _, _, _, h, hg, hc => by
    rw [Expression.bareName?] at h
    exact term.value_of_bareName? h (Expression.gives_term.mp hg) hc
  | .chain left operator right, _, _, _, h, _, _ => by
    rw [Expression.bareName?] at h
    cases h

@[inherit_doc Expression.value_of_bareName?]
theorem Term.value_of_bareName? {name : String} :
    ∀ (t : Term) {c c' : Compilation} {result : Emitted}, t.bareName? Γ = some name →
    t.emit.Gives c result c' → c.symbols.Covers Γ → result = ⟨[], .name name⟩
  | .factor factor, _, _, _, h, hg, hc => by
    rw [Term.bareName?] at h
    exact factor.value_of_bareName? h (Term.gives_factor.mp hg) hc
  | .chain left operator right, _, _, _, h, _, _ => by
    rw [Term.bareName?] at h
    cases h

@[inherit_doc Expression.value_of_bareName?]
theorem Factor.value_of_bareName? {name : String} :
    ∀ (f : Factor) {c c' : Compilation} {result : Emitted}, f.bareName? Γ = some name →
    f.emit.Gives c result c' → c.symbols.Covers Γ → result = ⟨[], .name name⟩
  | .name ident, _, _, _, h, hg, _ => by
    rw [Factor.bareName?] at h
    cases h
    obtain ⟨symbol, -, -, rfl⟩ := Factor.gives_name.mp hg
    rfl
  | .literal l, _, _, _, h, _, _ => by
    rw [Factor.bareName?] at h
    cases h
  | .parens inner span, _, _, _, h, hg, hc => by
    rw [Factor.bareName?] at h
    exact inner.value_of_bareName? h (Factor.gives_parens.mp hg) hc
  | .cast type inner span, _, _, _, h, hg, hc => by
    rw [Factor.bareName?, Option.filter_eq_some_iff] at h
    obtain ⟨e, c₁, last, he, hl, rfl⟩ := Factor.gives_cast.mp hg
    obtain rfl := inner.value_of_bareName? h.1 he hc
    have hc₁ := hc.grows (inner.extends_emit.of_gives he).symbols
    obtain ⟨own, ho, hl⟩ := gives_castTo.mp hl
    have ht := Symbols.typeOf_name.mpr (hc₁.type? (of_decide_eq_true h.2))
    rw [ho] at ht
    cases ht
    rcases hl with ⟨-, -, rfl⟩ | ⟨hne, -⟩
    · rfl
    · exact absurd rfl hne

end

/-- A cast leaves the operand as it is or takes a temporary. -/
theorem castTo_value_undeclared {type : NumType} {value : Operand} {position : Position}
    {c c' : Compilation} {result : Emitted} {name : String}
    (hg : (Emit.castTo type value position).Gives c result c') (hc : c.symbols.Covers Γ)
    (hv : result.value = .name name) :
    value = .name name ∧ c.symbols.type? name = some type ∨ Γ name = none := by
  obtain ⟨own, ho, ⟨rfl, -, rfl⟩ | ⟨-, -, rfl⟩⟩ := gives_castTo.mp hg
  · subst hv
    exact .inl ⟨rfl, Symbols.typeOf_name.mp ho⟩
  · cases hv
    exact .inr hc.fresh

theorem arithmetic_value_undeclared {operator : Operator} {left right : Operand}
    {c c' : Compilation} {result : Emitted} {name : String}
    (hg : (arithmetic operator left right).Gives c result c') (hc : c.symbols.Covers Γ)
    (hv : result.value = .name name) : Γ name = none := by
  obtain ⟨pair, d, part, hp, -, -, rfl⟩ := gives_arithmetic.mp hg
  cases hv
  exact (hc.grows ((extends_widenPair ..).of_gives hp).symbols).fresh

mutual

/-- An operand of any other expression is a literal or a temporary. -/
theorem Expression.value_undeclared {name : String} :
    ∀ (e : Expression) {c c' : Compilation} {result : Emitted}, e.bareName? Γ = none →
    e.emit.Gives c result c' → c.symbols.Covers Γ → result.value = .name name → Γ name = none
  | .term term, _, _, _, h, hg, hc, hv => by
    rw [Expression.bareName?] at h
    exact term.value_undeclared h (Expression.gives_term.mp hg) hc hv
  | .chain left operator right, _, _, _, _, hg, hc, hv => by
    obtain ⟨r, c₁, l, c₂, joined, hr, hl, hj, rfl⟩ := Expression.gives_chain.mp hg
    have gr := (right.extends_emit.of_gives hr).symbols
    have gl := (left.extends_emit.of_gives hl).symbols
    exact arithmetic_value_undeclared hj (hc.grows (gr.trans gl)) hv

@[inherit_doc Expression.value_undeclared]
theorem Term.value_undeclared {name : String} :
    ∀ (t : Term) {c c' : Compilation} {result : Emitted}, t.bareName? Γ = none →
    t.emit.Gives c result c' → c.symbols.Covers Γ → result.value = .name name → Γ name = none
  | .factor factor, _, _, _, h, hg, hc, hv => by
    rw [Term.bareName?] at h
    exact factor.value_undeclared h (Term.gives_factor.mp hg) hc hv
  | .chain left operator right, _, _, _, _, hg, hc, hv => by
    obtain ⟨r, c₁, l, c₂, joined, hr, hl, hj, rfl⟩ := Term.gives_chain.mp hg
    have gr := (right.extends_emit.of_gives hr).symbols
    have gl := (left.extends_emit.of_gives hl).symbols
    exact arithmetic_value_undeclared hj (hc.grows (gr.trans gl)) hv

@[inherit_doc Expression.value_undeclared]
theorem Factor.value_undeclared {name : String} :
    ∀ (f : Factor) {c c' : Compilation} {result : Emitted}, f.bareName? Γ = none →
    f.emit.Gives c result c' → c.symbols.Covers Γ → result.value = .name name → Γ name = none
  | .name ident, _, _, _, h, _, _, _ => by
    rw [Factor.bareName?] at h
    cases h
  | .literal l, _, _, _, _, hg, _, hv => by
    obtain ⟨-, rfl⟩ := Factor.gives_literal.mp hg
    cases hv
  | .parens inner span, _, _, _, h, hg, hc, hv => by
    rw [Factor.bareName?] at h
    exact inner.value_undeclared h (Factor.gives_parens.mp hg) hc hv
  | .cast type inner span, _, _, _, h, hg, hc, hv => by
    obtain ⟨e, c₁, last, he, hl, rfl⟩ := Factor.gives_cast.mp hg
    have hc₁ := hc.grows (inner.extends_emit.of_gives he).symbols
    rcases castTo_value_undeclared hl hc₁ hv with ⟨hv, ht⟩ | hn
    · cases hi : inner.bareName? Γ with
      | none => exact inner.value_undeclared hi he hc hv
      | some x =>
        -- The cast is to the type of the name, so for a declared name it would have no effect.
        obtain rfl := inner.value_of_bareName? hi he hc
        cases hv
        cases hn : Γ name with
        | none => rfl
        | some type' =>
          rw [hc₁.type? hn] at ht
          cases ht
          simp [Factor.bareName?, hi, hn] at h
    · exact hn

end

end Cpl
