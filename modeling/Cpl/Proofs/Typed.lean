import Cpl.Proofs.Declared
import Cpl.Proofs.Resolution

/-!
# Well-typed instructions

The machine has no instructions that take either number type, so each instruction must get operands of
its own type. `Instruction.WellTyped symbols` has one rule for each opcode that is emitted: it gives
the number and the kinds of its operands and their types in the symbols. All emitted code is well typed
in the symbols it leaves (`Expression.typed`, `Statement.typed` and so on, by induction on the tree), and
stays so when the symbols grow or jumps are resolved. Operands are typed by `Operand.HasType`, which reads
the type of a literal off its spelling.
-/

namespace Cpl

open Emit

/-- A name has the type of its symbol, and a literal is FLOAT if there is a point in it. A jump target has
no type. -/
inductive Operand.HasType (s : Symbols) : Operand → NumType → Prop where
  | name {slot type} : s.type? slot = some type → HasType s (.name slot) type
  | float {l : Literal} : '.' ∈ l.text.toList → HasType s (.literal l) .float
  | int {l : Literal} : '.' ∉ l.text.toList → HasType s (.literal l) .int

namespace Operand

variable {s s' : Symbols} {o : Operand} {type : NumType}

theorem hasType_iff : o.HasType s type ↔ s.typeOf o = .ok type := by
  constructor
  · intro h
    cases h with
    | name hslot => exact Symbols.typeOf_name.mpr hslot
    | float hl => exact congrArg Except.ok (Literal.type_eq_float_iff.mpr hl)
    | int hl => exact congrArg Except.ok (Literal.type_eq_int_iff.mpr hl)
  · intro h
    cases o with
    | name slot => exact .name (Symbols.typeOf_name.mp h)
    | literal l =>
      cases type with
      | float => exact .float (Literal.type_eq_float_iff.mp (Except.ok.inj h))
      | int => exact .int (Literal.type_eq_int_iff.mp (Except.ok.inj h))
    | jump target => cases h

theorem HasType.of_typeOf (h : s.typeOf o = .ok type) : o.HasType s type :=
  hasType_iff.mpr h

theorem HasType.grows (h : o.HasType s type) (hg : s.Grows s') : o.HasType s' type :=
  .of_typeOf (hg.typeOf (hasType_iff.mp h))

@[simp] theorem hasType_name {slot : String} :
    (Operand.name slot).HasType s type ↔ s.type? slot = some type := by
  rw [hasType_iff, Symbols.typeOf_name]

/-- Only a jump target is changed when it is settled, and that has no type. -/
theorem HasType.settle (h : o.HasType s type) (line : Nat) : o.settle line = o := by
  cases h <;> rfl

end Operand

/-- The operands are those of the opcode and have its types. Printing integers has no rule. -/
inductive Instruction.WellTyped (s : Symbols) : Instruction → Prop where
  | assign {type dest value} : s.type? dest = some type → value.HasType s type →
      WellTyped s (.quad (.assign type) [.name dest, value])
  | input {type dest} : s.type? dest = some type →
      WellTyped s (.quad (.input type) [.name dest])
  | print {value} : value.HasType s .float → WellTyped s (.quad (.print .float) [value])
  | arith {operation type dest left right} : s.type? dest = some type →
      left.HasType s type → right.HasType s type →
      WellTyped s (.quad (.arith operation type) [.name dest, left, right])
  | compare {comparison type dest left right} : s.type? dest = some .int →
      left.HasType s type → right.HasType s type →
      WellTyped s (.quad (.compare comparison type) [.name dest, left, right])
  | toFloat {dest value} : s.type? dest = some .float → value.HasType s .int →
      WellTyped s (.quad (.convert .float) [.name dest, value])
  | toInt {dest value} : s.type? dest = some .int → value.HasType s .float →
      WellTyped s (.quad (.convert .int) [.name dest, value])
  | jump {target} : WellTyped s (.jump target)
  | jumpIfZero {target condition} : s.type? condition = some .int →
      WellTyped s (.jumpIfZero target (.name condition))
  | halt : WellTyped s .halt

namespace Instruction.WellTyped

variable {s s' : Symbols} {i : Instruction}

/-- Types are kept when symbols are added. -/
theorem grows (h : i.WellTyped s) (hg : s.Grows s') : i.WellTyped s' := by
  cases h with
  | assign hd hv => exact .assign (hg.type? hd) (hv.grows hg)
  | input hd => exact .input (hg.type? hd)
  | print hv => exact .print (hv.grows hg)
  | arith hd hl hr => exact .arith (hg.type? hd) (hl.grows hg) (hr.grows hg)
  | compare hd hl hr => exact .compare (hg.type? hd) (hl.grows hg) (hr.grows hg)
  | toFloat hd hv => exact .toFloat (hg.type? hd) (hv.grows hg)
  | toInt hd hv => exact .toInt (hg.type? hd) (hv.grows hg)
  | jump => exact .jump
  | jumpIfZero hc => exact .jumpIfZero (hg.type? hc)
  | halt => exact .halt

end Instruction.WellTyped

/-- All instructions but the open breaks are well typed. -/
def Typed (s : Symbols) (code : List Instruction) : Prop :=
  ∀ i ∈ code, i.openBreak? = none → i.WellTyped s

section

variable {s s' : Symbols} {code rest : List Instruction}

theorem Typed.grows (h : Typed s code) (hg : s.Grows s') : Typed s' code :=
  fun i hi ho => (h i hi ho).grows hg

theorem typed_nil : Typed s [] := by simp [Typed]

theorem typed_append : Typed s (code ++ rest) ↔ Typed s code ∧ Typed s rest := by
  simp only [Typed, List.mem_append, or_imp, forall_and]

theorem typed_cons {i : Instruction} :
    Typed s (i :: rest) ↔ (i.openBreak? = none → i.WellTyped s) ∧ Typed s rest := by
  simp only [Typed, List.forall_mem_cons]

theorem typed_singleton {i : Instruction} (h : i.WellTyped s) : Typed s [i] := by
  rintro _ hi -
  rwa [List.mem_singleton.mp hi]

end

/-! ## Operations -/

section

variable {c c' : Compilation} {result : Emitted}

/-- The code is well typed, and the operand has the type. -/
structure Emitted.HasType (e : Emitted) (s : Symbols) (type : NumType) : Prop where
  code : Typed s e.code
  value : e.value.HasType s type

theorem Emitted.HasType.grows {s s' : Symbols} {type : NumType} (h : result.HasType s type)
    (hg : s.Grows s') : result.HasType s' type :=
  ⟨h.code.grows hg, h.value.grows hg⟩

theorem typed_widenTo {common own : NumType} {value : Operand}
    (hg : (widenTo common own value).Gives c result c') (hv : value.HasType c.symbols own)
    (ht : ¬ (common = .int ∧ own = .float)) : result.HasType c'.symbols common := by
  rcases gives_widenTo.mp hg with ⟨rfl, rfl, rfl⟩ | ⟨hne, rfl, rfl⟩
  · exact ⟨typed_nil, hv⟩
  · -- the types differ, and FLOAT does not become INT
    obtain ⟨rfl, rfl⟩ : common = .float ∧ own = .int := by
      cases common <;> cases own <;> simp_all
    have g := c.symbols.grows_temporary .float
    have hd := c.symbols.type?_temporary_fresh .float
    exact ⟨typed_singleton (.toFloat hd (hv.grows g)), .name hd⟩

/-- The operands come out in the type in which they meet. -/
theorem typed_widenPair {left right : Operand} {position : Position} {pair : Pair}
    (hg : (widenPair left right position).Gives c pair c') :
    Typed c'.symbols pair.code ∧ pair.left.HasType c'.symbols pair.type ∧
      pair.right.HasType c'.symbols pair.type := by
  obtain ⟨lt, rt, l, d, r, hl, hr, hgl, hgr, rfl⟩ := gives_widenPair.mp hg
  have gl := ((extends_widenTo ..).of_gives hgl).symbols
  have gr := ((extends_widenTo ..).of_gives hgr).symbols
  have hl := (typed_widenTo hgl (.of_typeOf hl) (NumType.unify_takes_left lt rt)).grows gr
  have hr := typed_widenTo hgr (.of_typeOf (gl.typeOf hr)) (NumType.unify_takes_right lt rt)
  exact ⟨typed_append.mpr ⟨hl.code, hr.code⟩, hl.value, hr.value⟩

section

variable {s : Symbols} {symbol dest : String} {type : NumType} {left right : Operand}
  {code : List Instruction}

theorem typed_arithmeticTemplate
    (h : Template.arithmetic symbol type dest left right = .ok code)
    (hd : s.type? dest = some type) (hl : left.HasType s type) (hr : right.HasType s type) :
    Typed s code := by
  unfold Template.arithmetic at h
  split at h <;> cases h
  exact typed_singleton (.arith hd hl hr)

/-- Whether it has one instruction or four, a comparison writes its INT slot only. -/
theorem typed_relationalTemplate
    (h : Template.relational symbol type dest left right = .ok code)
    (hd : s.type? dest = some .int) (hl : left.HasType s type) (hr : right.HasType s type) :
    Typed s code := by
  unfold Template.relational at h
  split at h <;> cases h
  · exact typed_singleton (.compare hd hl hr)
  · simp only [typed_cons]
    exact ⟨fun _ => .compare hd hl hr, fun _ => .jumpIfZero hd, fun _ => .jump,
      fun _ => .compare hd hl hr, typed_nil⟩

theorem setTruth_wellTyped (hd : s.type? dest = some .int) {value : String}
    (hv : '.' ∉ value.toList) : (Template.setTruth dest value).WellTyped s :=
  .assign hd (.int hv)

theorem typed_logicalAnd {x y : String} (hd : s.type? dest = some .int)
    (hx : s.type? x = some .int) (hy : s.type? y = some .int) :
    Typed s (Template.logicalAnd dest (.name x) (.name y)) := by
  simp only [Template.logicalAnd, typed_cons]
  exact ⟨fun _ => setTruth_wellTyped hd (by decide), fun _ => .jumpIfZero hx,
    fun _ => .jumpIfZero hy, fun _ => setTruth_wellTyped hd (by decide), typed_nil⟩

theorem typed_logicalOr {x y : String} (hd : s.type? dest = some .int)
    (hx : s.type? x = some .int) (hy : s.type? y = some .int) :
    Typed s (Template.logicalOr dest (.name x) (.name y)) := by
  simp only [Template.logicalOr, typed_cons]
  exact ⟨fun _ => setTruth_wellTyped hd (by decide), fun _ => .jumpIfZero hx,
    fun _ => setTruth_wellTyped hd (by decide), fun _ => .jumpIfZero hy,
    fun _ => setTruth_wellTyped hd (by decide), typed_nil⟩

end

/-- The result of an operation has the type in which the operands meet. -/
theorem typed_arithmetic {operator : Operator} {left right : Operand}
    (hg : (arithmetic operator left right).Gives c result c') :
    ∃ type, result.HasType c'.symbols type := by
  obtain ⟨pair, d, code, hp, ht, rfl, rfl⟩ := gives_arithmetic.mp hg
  obtain ⟨hc, hl, hr⟩ := typed_widenPair hp
  have g := d.symbols.grows_temporary pair.type
  have hd := d.symbols.type?_temporary_fresh pair.type
  have hcode := typed_arithmeticTemplate ht hd (hl.grows g) (hr.grows g)
  exact ⟨pair.type, typed_append.mpr ⟨hc.grows g, hcode⟩, .name hd⟩

/-- The code of a condition is well typed, and its operand is an integer slot. -/
structure Emitted.IsTruth (e : Emitted) (s : Symbols) : Prop where
  code : Typed s e.code
  value : ∃ slot, e.value = .name slot ∧ s.type? slot = some .int

theorem Emitted.IsTruth.grows {s s' : Symbols} (h : result.IsTruth s) (hg : s.Grows s') :
    result.IsTruth s' := by
  obtain ⟨slot, hv, ht⟩ := h.value
  exact ⟨h.code.grows hg, slot, hv, hg.type? ht⟩

theorem typed_comparison {operator : Operator} {left right : Operand}
    (hg : (comparison operator left right).Gives c result c') : result.IsTruth c'.symbols := by
  obtain ⟨pair, d, code, hp, ht, rfl, rfl⟩ := gives_comparison.mp hg
  obtain ⟨hc, hl, hr⟩ := typed_widenPair hp
  have g := d.symbols.grows_temporary .int
  have hd := d.symbols.type?_temporary_fresh .int
  have hcode := typed_relationalTemplate ht hd (hl.grows g) (hr.grows g)
  exact ⟨typed_append.mpr ⟨hc.grows g, hcode⟩, _, rfl, hd⟩

/-- A cast gives the type it says. -/
theorem typed_castTo {type : NumType} {value : Operand} {position : Position}
    (hg : (castTo type value position).Gives c result c') : result.HasType c'.symbols type := by
  obtain ⟨own, hv, h⟩ := gives_castTo.mp hg
  rcases h with ⟨rfl, rfl, rfl⟩ | ⟨hne, rfl, rfl⟩
  · exact ⟨typed_nil, .of_typeOf hv⟩
  · have g := c.symbols.grows_temporary type
    have hd := c.symbols.type?_temporary_fresh type
    refine ⟨typed_singleton ?_, .name hd⟩
    cases type <;> cases own
    · exact absurd rfl hne
    · exact .toInt hd (.of_typeOf (g.typeOf hv))
    · exact .toFloat hd (.of_typeOf (g.typeOf hv))
    · exact absurd rfl hne

end

/-! ## Expressions and conditions -/

/-- A chain is well typed if both operands are, whatever their types. -/
theorem typed_chain {operator : Operator} {c₁ c₂ c' : Compilation} {r l joined : Emitted}
    {rt lt : NumType} (hr : r.HasType c₁.symbols rt) (gl : c₁.symbols.Grows c₂.symbols)
    (hl : l.HasType c₂.symbols lt)
    (hg : (arithmetic operator l.value r.value).Gives c₂ joined c') :
    ∃ type, Emitted.HasType ⟨r.code ++ l.code ++ joined.code, joined.value⟩ c'.symbols type := by
  have gj := ((extends_arithmetic ..).of_gives hg).symbols
  obtain ⟨type, hj⟩ := typed_arithmetic hg
  have hcode := typed_append.mpr ⟨hr.code.grows (gl.trans gj), hl.code.grows gj⟩
  exact ⟨type, typed_append.mpr ⟨hcode, hj.code⟩, hj.value⟩

mutual

/-- The code of an expression is well typed, and its operand has a type. -/
theorem Expression.typed : ∀ (e : Expression) {c c' : Compilation} {result : Emitted},
    e.emit.Gives c result c' → ∃ type, result.HasType c'.symbols type
  | .term term, _, _, _, hg => term.typed (Expression.gives_term.mp hg)
  | .chain left operator right, _, _, _, hg => by
    obtain ⟨r, c₁, l, c₂, joined, hr, hl, hj, rfl⟩ := Expression.gives_chain.mp hg
    obtain ⟨rt, hrt⟩ := right.typed hr
    obtain ⟨lt, hlt⟩ := left.typed hl
    exact typed_chain hrt (left.extends_emit.of_gives hl).symbols hlt hj

theorem Term.typed : ∀ (t : Term) {c c' : Compilation} {result : Emitted},
    t.emit.Gives c result c' → ∃ type, result.HasType c'.symbols type
  | .factor factor, _, _, _, hg => factor.typed (Term.gives_factor.mp hg)
  | .chain left operator right, _, _, _, hg => by
    obtain ⟨r, c₁, l, c₂, joined, hr, hl, hj, rfl⟩ := Term.gives_chain.mp hg
    obtain ⟨rt, hrt⟩ := right.typed hr
    obtain ⟨lt, hlt⟩ := left.typed hl
    exact typed_chain hrt (left.extends_emit.of_gives hl).symbols hlt hj

theorem Factor.typed : ∀ (f : Factor) {c c' : Compilation} {result : Emitted},
    f.emit.Gives c result c' → ∃ type, result.HasType c'.symbols type
  | .name ident, _, _, _, hg => by
    obtain ⟨symbol, hs, rfl, rfl⟩ := Factor.gives_name.mp hg
    exact ⟨symbol.type, typed_nil, .name (Symbols.type?_of_get? hs)⟩
  | .literal l, _, _, _, hg => by
    obtain ⟨rfl, rfl⟩ := Factor.gives_literal.mp hg
    exact ⟨l.type, typed_nil, .of_typeOf rfl⟩
  | .parens inner span, _, _, _, hg => inner.typed (Factor.gives_parens.mp hg)
  | .cast type inner span, _, _, _, hg => by
    obtain ⟨e, c₁, last, he, hl, rfl⟩ := Factor.gives_cast.mp hg
    obtain ⟨own, ht⟩ := inner.typed he
    have hlast := typed_castTo hl
    have g := ((extends_castTo ..).of_gives hl).symbols
    exact ⟨type, typed_append.mpr ⟨ht.code.grows g, hlast.code⟩, hlast.value⟩

end

mutual

/-- The code of a condition is well typed, and its operand is an INT slot. -/
theorem Condition.typed : ∀ (b : Condition) {c c' : Compilation} {result : Emitted},
    b.emit.Gives c result c' → result.IsTruth c'.symbols
  | .clause clause, _, _, _, hg => clause.typed (Condition.gives_clause.mp hg)
  | .or left right, _, _, _, hg => by
    obtain ⟨r, c₁, l, c₂, hr, hl, rfl, rfl⟩ := Condition.gives_or.mp hg
    have g := c₂.symbols.grows_temporary .int
    have hd := c₂.symbols.type?_temporary_fresh .int
    have hr := (right.typed hr).grows ((left.extends_emit.of_gives hl).symbols.trans g)
    have hl := (left.typed hl).grows g
    obtain ⟨y, hy, hyt⟩ := hr.value
    obtain ⟨x, hx, hxt⟩ := hl.value
    refine ⟨typed_append.mpr ⟨typed_append.mpr ⟨hr.code, hl.code⟩, ?_⟩, _, rfl, hd⟩
    rw [hx, hy]
    exact typed_logicalOr hd hxt hyt

theorem Clause.typed : ∀ (b : Clause) {c c' : Compilation} {result : Emitted},
    b.emit.Gives c result c' → result.IsTruth c'.symbols
  | .test test, _, _, _, hg => test.typed (Clause.gives_test.mp hg)
  | .and left right, _, _, _, hg => by
    obtain ⟨r, c₁, l, c₂, hr, hl, rfl, rfl⟩ := Clause.gives_and.mp hg
    have g := c₂.symbols.grows_temporary .int
    have hd := c₂.symbols.type?_temporary_fresh .int
    have hr := (right.typed hr).grows ((left.extends_emit.of_gives hl).symbols.trans g)
    have hl := (left.typed hl).grows g
    obtain ⟨y, hy, hyt⟩ := hr.value
    obtain ⟨x, hx, hxt⟩ := hl.value
    refine ⟨typed_append.mpr ⟨typed_append.mpr ⟨hr.code, hl.code⟩, ?_⟩, _, rfl, hd⟩
    rw [hx, hy]
    exact typed_logicalAnd hd hxt hyt

theorem Test.typed : ∀ (b : Test) {c c' : Compilation} {result : Emitted},
    b.emit.Gives c result c' → result.IsTruth c'.symbols
  | .compare left operator right, _, _, _, hg => by
    obtain ⟨l, c₁, r, c₂, joined, hl, hr, hj, rfl⟩ := Test.gives_compare.mp hg
    have gr := (right.extends_emit.of_gives hr).symbols
    have gj := ((extends_comparison ..).of_gives hj).symbols
    obtain ⟨lt, hl⟩ := left.typed hl
    obtain ⟨rt, hr⟩ := right.typed hr
    have hj := typed_comparison hj
    have hcode := typed_append.mpr ⟨hl.code.grows (gr.trans gj), hr.code.grows gj⟩
    exact ⟨typed_append.mpr ⟨hcode, hj.code⟩, hj.value⟩
  | .not inner span, _, _, _, hg => by
    obtain ⟨b, c₁, hb, rfl, rfl⟩ := Test.gives_not.mp hg
    have hd := c₁.symbols.type?_temporary_fresh .int
    have hb := (inner.typed hb).grows (c₁.symbols.grows_temporary .int)
    obtain ⟨slot, hv, ht⟩ := hb.value
    refine ⟨typed_append.mpr ⟨hb.code, typed_singleton (.compare hd ?_ ?_)⟩, _, rfl, hd⟩
    · rw [hv]
      exact .name ht
    · exact .int (by decide)

end

/-! ## Statements -/

section

open Instruction

variable {s : Symbols} {code : List Instruction}

/-- A break becomes a jump, which has no typed operand. -/
theorem Typed.closeBreaksFrom (h : Typed s code) (size : Nat) :
    Typed s (closeBreaksFrom size code) := by
  induction code generalizing size with
  | nil => exact typed_nil
  | cons i code ih =>
    obtain ⟨hi, hcode⟩ := typed_cons.mp h
    cases i with
    | quad opcode operands => exact typed_cons.mpr ⟨hi, ih hcode _⟩
    | openBreak position => exact typed_cons.mpr ⟨fun _ => .jump, ih hcode _⟩

theorem Typed.closeBreaks (h : Typed s code) : Typed s (closeBreaks code) :=
  h.closeBreaksFrom code.length

theorem Emitted.IsTruth.guard {b : Emitted} (h : b.IsTruth s) (target : Target) :
    Typed s (b.code ++ [jumpIfZero target b.value]) := by
  obtain ⟨slot, hv, ht⟩ := h.value
  rw [hv]
  exact typed_append.mpr ⟨h.code, typed_singleton (.jumpIfZero ht)⟩

/-- The value has been widened to the type of the target. -/
theorem typed_assignment {c c' : Compilation} {target : Ident} {value : Operand}
    {position : Position} (hg : (assignment target value position).Gives c code c') :
    Typed c'.symbols code := by
  obtain ⟨symbol, own, wide, hs, ho, ht, hw, rfl⟩ := gives_assignment.mp hg
  have hwide := typed_widenTo hw (.of_typeOf ho) ht
  have hd := ((extends_widenTo ..).of_gives hw).symbols.type? (Symbols.type?_of_get? hs)
  exact typed_append.mpr ⟨hwide.code, typed_singleton (.assign hd hwide.value)⟩

theorem typed_printing {c c' : Compilation} {value : Operand} {position : Position}
    (hg : (printing value position).Gives c code c') : Typed c'.symbols code := by
  obtain ⟨own, wide, ho, hw, rfl⟩ := gives_printing.mp hg
  have hwide := typed_widenTo hw (.of_typeOf ho) (by simp)
  exact typed_append.mpr ⟨hwide.code, typed_singleton (.print hwide.value)⟩

/-- The slot of the test was taken before, so its type is known. -/
theorem typed_caseTest {c c' : Compilation} {selector : Operand} {label : Literal} {dest : String}
    {size : Nat} {position : Position}
    (hg : (caseTest selector label dest size position).Gives c code c')
    (hd : c.symbols.type? dest = some .int) : Typed c'.symbols code := by
  obtain ⟨pair, hp, rfl⟩ := gives_caseTest.mp hg
  obtain ⟨hcode, hl, hr⟩ := typed_widenPair hp
  have hd := ((extends_widenPair ..).of_gives hp).symbols.type? hd
  exact typed_append.mpr ⟨typed_append.mpr ⟨hcode, typed_singleton (.compare hd hl hr)⟩,
    typed_singleton (.jumpIfZero hd)⟩

end

mutual

/-- The code of a statement is well typed in the symbols it leaves. -/
theorem Statement.typed : ∀ (statement : Statement) {c c' : Compilation}
    {code : List Instruction}, statement.emit.Gives c code c' → Typed c'.symbols code
  | .assign target value span, _, _, _, hg => by
    obtain ⟨v, c₁, rest, hv, hr, rfl⟩ := Statement.gives_assign.mp hg
    obtain ⟨type, ht⟩ := value.typed hv
    have g := ((extends_assignment ..).of_gives hr).symbols
    exact typed_append.mpr ⟨ht.code.grows g, typed_assignment hr⟩
  | .input target span, _, _, _, hg => by
    obtain ⟨symbol, hs, rfl, rfl⟩ := Statement.gives_input.mp hg
    exact typed_singleton (.input (Symbols.type?_of_get? hs))
  | .output value span, _, _, _, hg => by
    obtain ⟨v, c₁, rest, hv, hr, rfl⟩ := Statement.gives_output.mp hg
    obtain ⟨type, ht⟩ := value.typed hv
    have g := ((extends_printing ..).of_gives hr).symbols
    exact typed_append.mpr ⟨ht.code.grows g, typed_printing hr⟩
  | .ifThen condition body span, _, _, _, hg => by
    obtain ⟨b, c₁, t, hb, ht, rfl⟩ := Statement.gives_ifThen.mp hg
    have hb := (condition.typed hb).grows (body.extends_emit.of_gives ht).symbols
    exact typed_append.mpr ⟨hb.guard _, body.typed ht⟩
  | .ifElse condition body other span, _, _, _, hg => by
    obtain ⟨b, c₁, t, c₂, e, hb, ht, he, rfl⟩ := Statement.gives_ifElse.mp hg
    have ge := (other.extends_emit.of_gives he).symbols
    have gt := (body.extends_emit.of_gives ht).symbols
    have hb := (condition.typed hb).grows (gt.trans ge)
    refine typed_append.mpr ⟨typed_append.mpr ⟨?_, typed_singleton .jump⟩, other.typed he⟩
    exact typed_append.mpr ⟨hb.guard _, (body.typed ht).grows ge⟩
  | .loop condition body span, _, _, _, hg => by
    obtain ⟨t, c₁, b, ht, hb, rfl⟩ := Statement.gives_loop.mp hg
    have g := (condition.extends_emit.of_gives hb).symbols
    refine Typed.closeBreaks (typed_append.mpr ⟨?_, typed_singleton .jump⟩)
    exact typed_append.mpr ⟨(condition.typed hb).guard _, (body.typed ht).grows g⟩
  | .switch selector cases ⟨body, bodySpan⟩ span, _, _, _, hg => by
    obtain ⟨v, c₁, arms, c₂, d, hv, ha, hd, rfl⟩ := Statement.gives_switch.mp hg
    obtain ⟨type, ht⟩ := selector.typed hv
    have ga := ((extends_emitCases cases _).of_gives ha).symbols
    have gd := ((Block.extends_emit _).of_gives hd).symbols
    have harms := typed_append.mpr ⟨ht.code.grows (ga.trans gd), (typed_cases cases ha).grows gd⟩
    exact (typed_append.mpr ⟨harms, typed_statements body (Block.gives_iff.mp hd)⟩).closeBreaks
  | .leave span, _, _, _, hg => by
    obtain ⟨-, rfl⟩ := Statement.gives_leave.mp hg
    exact typed_cons.mpr ⟨fun h => (nomatch h), typed_nil⟩
  | .block ⟨body, bodySpan⟩, _, _, _, hg =>
    typed_statements body (Block.gives_iff.mp (Statement.gives_block.mp hg))

theorem typed_statements : ∀ (body : List Statement) {c c' : Compilation}
    {code : List Instruction}, (emitStatements body).Gives c code c' → Typed c'.symbols code
  | [], _, _, _, hg => by
    obtain ⟨-, rfl⟩ := gives_statements_nil.mp hg
    exact typed_nil
  | first :: rest, _, _, _, hg => by
    obtain ⟨f, c₁, r, hf, hr, rfl⟩ := gives_statements_cons.mp hg
    have g := ((extends_emitStatements rest).of_gives hr).symbols
    exact typed_append.mpr ⟨(first.typed hf).grows g, typed_statements rest hr⟩

theorem typed_cases : ∀ (cases : List Case) {selector : Operand} {c c' : Compilation}
    {code : List Instruction}, (emitCases selector cases).Gives c code c' → Typed c'.symbols code
  | [], _, _, _, _, hg => by
    obtain ⟨-, rfl⟩ := gives_cases_nil.mp hg
    exact typed_nil
  | ⟨label, ⟨body, bodySpan⟩, span⟩ :: rest, _, c, _, _, hg => by
    obtain ⟨b, c₁, test, c₂, more, hb, ht, hm, rfl⟩ := gives_cases_cons.mp hg
    have hb := Block.gives_iff.mp hb
    have gb := ((extends_emitStatements body).of_gives hb).symbols
    have gt := ((extends_caseTest ..).of_gives ht).symbols
    have gm := ((extends_emitCases rest _).of_gives hm).symbols
    have htest := typed_caseTest ht (gb.type? (c.symbols.type?_temporary_fresh .int))
    have hcase := typed_append.mpr
      ⟨htest.grows gm, (typed_statements body hb).grows (gt.trans gm)⟩
    exact typed_append.mpr ⟨hcase, typed_cases rest hm⟩

end

/-! ## Programs -/

/-- Resolving the jumps does not change any typed operand. -/
theorem Instruction.WellTyped.settle {s : Symbols} {i : Instruction} (h : i.WellTyped s)
    (line : Nat) : (i.settle line).WellTyped s := by
  cases h with
  | assign hd hv => simpa [Instruction.settle, hv.settle line] using .assign hd hv
  | input hd => exact .input hd
  | print hv => simpa [Instruction.settle, hv.settle line] using .print hv
  | arith hd hl hr =>
    simpa [Instruction.settle, hl.settle line, hr.settle line] using .arith hd hl hr
  | compare hd hl hr =>
    simpa [Instruction.settle, hl.settle line, hr.settle line] using .compare hd hl hr
  | toFloat hd hv => simpa [Instruction.settle, hv.settle line] using .toFloat hd hv
  | toInt hd hv => simpa [Instruction.settle, hv.settle line] using .toInt hd hv
  | jump => exact .jump
  | jumpIfZero hc => exact .jumpIfZero hc
  | halt => exact .halt

namespace Program

variable {p : Program} {code : List Instruction} {c : Compilation}

/-- No break is left open in the code of a program. -/
theorem openBreak?_of_emit (h : p.emit.Gives .start code c) :
    ∀ i ∈ code, i.openBreak? = none := by
  obtain ⟨c₁, body, -, -, ho, rfl⟩ := gives_emit.mp h
  intro i hi
  rcases List.mem_append.mp hi with hi | hi
  · exact List.findSome?_eq_none_iff.mp ho i hi
  · rw [List.mem_singleton.mp hi]
    rfl

theorem typed_of_emit (h : p.emit.Gives .start code c) : Typed c.symbols code := by
  obtain ⟨c₁, body, -, hb, -, rfl⟩ := gives_emit.mp h
  exact typed_append.mpr ⟨typed_statements _ (Block.gives_iff.mp hb), typed_singleton .halt⟩

/-- When code is emitted for a program, every instruction is well typed in the final symbols, and so is
every instruction of the compiled program. -/
theorem wellTyped_emit_compile (h : p.emit.Gives .start code c) :
    (∀ i ∈ code, i.WellTyped c.symbols) ∧
      ∀ q, p.compile = .ok q → ∀ i ∈ q.instructions, i.WellTyped c.symbols := by
  have hcode : ∀ i ∈ code, i.WellTyped c.symbols := fun i hi =>
    typed_of_emit h i hi (openBreak?_of_emit h i hi)
  refine ⟨hcode, fun q hq i hi => ?_⟩
  obtain ⟨code', c', h', hr, -⟩ := compile_eq_ok.mp hq
  obtain ⟨rfl, rfl⟩ : code' = code ∧ c' = c := by
    have := h'.on_eq.symm.trans h.on_eq
    cases this
    exact ⟨rfl, rfl⟩
  obtain ⟨-, he⟩ := Instruction.resolveAll_eq_ok.mp hr
  rw [he] at hi
  obtain ⟨k, j, hj, rfl⟩ := Instruction.mem_settleFrom hi
  exact (hcode j (List.mem_of_getElem? hj)).settle _

/-- The program `x: int; y: float; { y = x + 0.5; if (y <= x) output(x); }`. -/
def mixed : Program :=
  let span : Span := ⟨⟨0, "mixed.ou"⟩, ⟨0, "mixed.ou"⟩⟩
  let x : Expression := .term (.factor (.name ⟨"x", span⟩))
  let y : Expression := .term (.factor (.name ⟨"y", span⟩))
  { declarations := [⟨[⟨"x", span⟩], .int, span⟩, ⟨[⟨"y", span⟩], .float, span⟩]
    body := ⟨[.assign ⟨"y", span⟩ (.chain x ⟨"+", span.start⟩ (.factor (.literal ⟨"0.5"⟩))) span,
      .ifThen (.clause (.test (.compare y ⟨"<=", span.start⟩ x))) (.output x span) span], span⟩ }

theorem wellTyped_mixed : ∃ code c q, mixed.emit.Gives .start code c ∧ mixed.compile = .ok q ∧
    (∀ i ∈ code, i.WellTyped c.symbols) ∧ ∀ i ∈ q.instructions, i.WellTyped c.symbols := by
  obtain ⟨code, c, h⟩ : ∃ code c, mixed.emit.Gives .start code c := ⟨_, _, rfl⟩
  obtain ⟨q, hq⟩ : ∃ q, mixed.compile = .ok q := ⟨_, rfl⟩
  obtain ⟨hcode, hlisting⟩ := wellTyped_emit_compile h
  exact ⟨code, c, q, h, hq, hcode, hlisting q hq⟩

end Program

end Cpl
