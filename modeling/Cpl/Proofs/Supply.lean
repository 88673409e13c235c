import Cpl.Proofs.Flow
import Cpl.Proofs.Preservation

/-!
# Temporaries are written before they are read

On every way through compiled code, whatever the data, a slot that is read and is no declared variable
was written earlier on that way (`Program.written_before_read`). So what the temporaries hold at the
start makes no difference to a run (`Program.run_of_eq_on_declared`).

The code of an expression fills the slot of its value on every way through it (`Supplies`), and needs
nothing filled but the declared variables. The code of a statement is supplied if the lines are that come
after it and that its breaks lead to (`Statement.supplied`). Both are proved by induction on the tree, and
for loops on the number of steps.
-/

namespace Cpl

open Emit Machine

variable {Γ : Scope} {code : List Instruction} {exit k n next : Nat} {D : Set String}

/-- The declared names. -/
def Scope.slots (Γ : Scope) : Set String :=
  {name | (Γ name).isSome}

/-- If the operand is a slot, it is one of the set. -/
def Operand.Filled (D : Set String) (operand : Operand) : Prop :=
  ∀ slot, operand.slot? = some slot → slot ∈ D

namespace Operand

theorem filled_name {slot : String} : (name slot).Filled D ↔ slot ∈ D := by
  simp [Filled, slot?]

theorem filled_literal (l : Literal) : (literal l).Filled D := by
  simp [Filled, slot?]

theorem filled_of_mem_literal (l : Literal) : ∀ operand ∈ [literal l], operand.Filled D := by
  simpa using filled_literal l

theorem Filled.mono {D' : Set String} {operand : Operand} (h : operand.Filled D) (hD : D ⊆ D') :
    operand.Filled D' :=
  fun slot hs => hD (h slot hs)

end Operand

open Operand

/-! ## Single instructions -/

namespace Machine

/-- An instruction that stores a result fills its slot. -/
theorem Supplied.store {opcode : Opcode} {dest : String} {operands : List Operand}
    (hf : fetch code n = some (.quad opcode (.name dest :: operands))) (hs : opcode.stores = true)
    (ho : ∀ operand ∈ operands, operand.Filled D)
    (h : Supplied code k (n + 1) (insert dest D)) : Supplied code k n D := by
  cases k with
  | zero => trivial
  | succ k =>
    refine .step hf ?_ ?_
    · intro slot hslot
      rw [Instruction.reads, if_pos hs, List.tail_cons, List.mem_filterMap] at hslot
      obtain ⟨operand, hmem, hslot⟩ := hslot
      exact ho operand hmem slot hslot
    · intro m hm
      obtain rfl : m = n + 1 := by
        cases opcode <;> first | exact List.mem_singleton.mp hm | cases hs
      refine h.pred.mono fun slot hslot => ?_
      rcases hslot with rfl | hD
      · exact .inr (by simp [Instruction.written?, hs, slot?])
      · exact .inl hD

theorem Supplied.print {type : NumType} {value : Operand}
    (hf : fetch code n = some (Template.print type value)) (hv : value.Filled D)
    (h : Supplied code k (n + 1) D) : Supplied code k n D := by
  cases k with
  | zero => trivial
  | succ k =>
    refine .step hf ?_ ?_
    · intro slot hslot
      obtain ⟨operand, hmem, hslot⟩ := List.mem_filterMap.mp hslot
      cases List.mem_singleton.mp hmem
      exact hv slot hslot
    · intro m hm
      cases List.mem_singleton.mp hm
      exact h.pred.mono Set.subset_union_left

/-- A conditional jump goes to its target or to the next line. -/
theorem Supplied.jumpIfZero {target : Target} {condition : Operand} {no : Nat}
    (hf : fetch code n = some (.jumpIfZero target condition)) (hl : target.lands n = some no)
    (hc : condition.Filled D) (hyes : Supplied code k (n + 1) D) (hno : Supplied code k no D) :
    Supplied code k n D := by
  cases k with
  | zero => trivial
  | succ k =>
    refine .step hf ?_ ?_
    · intro slot hslot
      obtain ⟨operand, hmem, hslot⟩ := List.mem_filterMap.mp hslot
      rcases List.mem_cons.mp hmem with rfl | hmem
      · cases hslot
      · cases List.mem_singleton.mp hmem
        exact hc slot hslot
    · intro m hm
      have hm : m ∈ (n + 1) :: (target.lands n).toList := hm
      rw [hl, Option.toList_some] at hm
      rcases List.mem_cons.mp hm with rfl | hm
      · exact hyes.pred.mono Set.subset_union_left
      · cases List.mem_singleton.mp hm
        exact hno.pred.mono Set.subset_union_left

/-- A jump takes one step. -/
theorem Goes.supplied_succ (hg : Goes code n next) (h : Supplied code k next D) :
    Supplied code (k + 1) n D := by
  obtain ⟨target, hf, hl⟩ := hg
  refine .step hf ?_ ?_
  · intro slot hslot
    cases hslot
  · intro m hm
    have hm : m ∈ (target.lands n).toList := hm
    rw [hl, Option.toList_some] at hm
    cases List.mem_singleton.mp hm
    exact h.mono Set.subset_union_left

theorem Goes.supplied (hg : Goes code n next) (h : Supplied code k next D) :
    Supplied code k n D := by
  cases k with
  | zero => trivial
  | succ k => exact hg.supplied_succ h.pred

end Machine

/-! ## Operations -/

/-- Every way from line `n` comes to the line `next`, with the value filled. -/
def Supplies (code : List Instruction) (n next : Nat) (D : Set String) (value : Operand) : Prop :=
  ∀ k, (∀ D', D ⊆ D' → value.Filled D' → Supplied code k next D') → Supplied code k n D

namespace Supplies

variable {m : Nat} {value value' : Operand}

/-- No code is needed for a value that is filled. -/
theorem here (n : Nat) (h : value.Filled D) : Supplies code n n D value :=
  fun _ hk => hk D subset_rfl h

/-- One instruction that stores the value. -/
theorem store {opcode : Opcode} {dest : String} {operands : List Operand}
    (hf : fetch code n = some (.quad opcode (.name dest :: operands))) (hs : opcode.stores = true)
    (ho : ∀ operand ∈ operands, operand.Filled D) : Supplies code n (n + 1) D (.name dest) :=
  fun _ hk => .store hf hs ho (hk _ (Set.subset_insert ..) (filled_name.mpr (Set.mem_insert ..)))

theorem bind (h : Supplies code n m D value)
    (h' : ∀ D', D ⊆ D' → value.Filled D' → Supplies code m next D' value') :
    Supplies code n next D value' := by
  intro k hk
  refine h k fun D' hD hv => h' D' hD hv k fun D'' hD' hv' => ?_
  exact hk D'' (hD.trans hD') hv'

end Supplies

/-- Two values, the first of which is still filled when the second is, and what is made of them. -/
theorem supplies_join {first second : Emitted} {part : List Instruction} {value : Operand}
    (hp : Placed code exit n (first.code ++ second.code ++ part))
    (h₁ : Placed code exit n first.code → Supplies code n (n + first.code.length) D first.value)
    (h₂ : ∀ {m : Nat} {D' : Set String}, D ⊆ D' → Placed code exit m second.code →
      Supplies code m (m + second.code.length) D' second.value)
    (h : ∀ {m : Nat} {D' : Set String}, first.value.Filled D' → second.value.Filled D' →
      Placed code exit m part → Supplies code m (m + part.length) D' value) :
    Supplies code n (n + (first.code ++ second.code ++ part).length) D value := by
  rw [placed_append, placed_append, List.length_append, ← Nat.add_assoc] at hp
  rw [List.length_append, List.length_append, ← Nat.add_assoc, ← Nat.add_assoc]
  refine (h₁ hp.1.1).bind fun D₁ hD hf => (h₂ hD hp.1.2).bind fun D₂ hD' hs => ?_
  exact h (hf.mono hD') hs hp.2

section

variable {c c' : Compilation} {result : Emitted} {left right value : Operand}

theorem supplies_widenTo {common own : NumType} (hg : (widenTo common own value).Gives c result c')
    (hv : value.Filled D) (hp : Placed code exit n result.code) :
    Supplies code n (n + result.code.length) D result.value := by
  rcases gives_widenTo.mp hg with ⟨-, rfl, -⟩ | ⟨-, -, rfl⟩
  · exact .here n hv
  · exact .store hp.1 rfl (by simpa using hv)

/-- Both values are filled after both conversions. -/
theorem supplied_widenPair {position : Position} {pair : Pair}
    (hg : (widenPair left right position).Gives c pair c') (hl : left.Filled D)
    (hr : right.Filled D) (hp : Placed code exit n pair.code)
    (h : ∀ D', D ⊆ D' → pair.left.Filled D' → pair.right.Filled D' →
      Supplied code k (n + pair.code.length) D') : Supplied code k n D := by
  obtain ⟨lt, rt, l, d, r, -, -, hgl, hgr, rfl⟩ := gives_widenPair.mp hg
  obtain ⟨hpl, hpr⟩ := placed_append.mp hp
  rw [List.length_append, ← Nat.add_assoc] at h
  refine supplies_widenTo hgl hl hpl k fun D₁ h₁ hl₁ => ?_
  refine supplies_widenTo hgr (hr.mono h₁) hpr k fun D₂ h₂ hr₂ => ?_
  exact h D₂ (h₁.trans h₂) (hl₁.mono h₂) hr₂

theorem supplies_arithmetic {operator : Operator}
    (hg : (arithmetic operator left right).Gives c result c') (hl : left.Filled D)
    (hr : right.Filled D) (hp : Placed code exit n result.code) :
    Supplies code n (n + result.code.length) D result.value := by
  obtain ⟨pair, d, part, hgp, ht, -, rfl⟩ := gives_arithmetic.mp hg
  obtain ⟨hpp, hpt⟩ := placed_append.mp hp
  intro k hk
  refine supplied_widenPair hgp hl hr hpp fun D₁ h₁ hl₁ hr₁ => ?_
  unfold Template.arithmetic at ht
  split at ht <;> cases ht
  rw [List.length_append, ← Nat.add_assoc] at hk
  refine Supplies.store hpt.1 rfl ?_ k fun D₂ h₂ hv => hk D₂ (h₁.trans h₂) hv
  simpa using ⟨hl₁, hr₁⟩

/-- The second test of a comparison may be jumped over, but then the first has filled the slot. -/
theorem supplies_relational {symbol dest : String} {type : NumType} {part : List Instruction}
    (ht : Template.relational symbol type dest left right = .ok part) (hl : left.Filled D)
    (hr : right.Filled D) (hp : Placed code exit n part) :
    Supplies code n (n + part.length) D (.name dest) := by
  have ho (D' : Set String) (hD : D ⊆ D') : ∀ o ∈ [left, right], o.Filled D' := by
    simpa using ⟨hl.mono hD, hr.mono hD⟩
  unfold Template.relational at ht
  split at ht <;> cases ht
  · exact .store hp.1 rfl (ho D subset_rfl)
  · obtain ⟨h₀, h₁, h₂, h₃, -⟩ := hp
    refine (Supplies.store h₀ rfl (ho D subset_rfl)).bind fun D' hD hv k hk => ?_
    have last := Supplies.store h₃ rfl (ho D' hD) k hk
    have past := hk D' subset_rfl hv
    exact .jumpIfZero h₁ rfl hv (Goes.supplied ⟨_, h₂, rfl⟩ past) last

theorem supplies_comparison {operator : Operator}
    (hg : (comparison operator left right).Gives c result c') (hl : left.Filled D)
    (hr : right.Filled D) (hp : Placed code exit n result.code) :
    Supplies code n (n + result.code.length) D result.value := by
  obtain ⟨pair, d, part, hgp, ht, -, rfl⟩ := gives_comparison.mp hg
  obtain ⟨hpp, hpt⟩ := placed_append.mp hp
  intro k hk
  refine supplied_widenPair hgp hl hr hpp fun D₁ h₁ hl₁ hr₁ => ?_
  rw [List.length_append, ← Nat.add_assoc] at hk
  exact supplies_relational ht hl₁ hr₁ hpt k fun D₂ h₂ hv => hk D₂ (h₁.trans h₂) hv

theorem supplies_castTo {type : NumType} {position : Position}
    (hg : (castTo type value position).Gives c result c') (hv : value.Filled D)
    (hp : Placed code exit n result.code) :
    Supplies code n (n + result.code.length) D result.value := by
  obtain ⟨own, -, ⟨-, -, rfl⟩ | ⟨-, -, rfl⟩⟩ := gives_castTo.mp hg
  · exact .here n hv
  · exact .store hp.1 rfl (by simpa using hv)

/-! Both templates fill the slot first, so the jumps over the rest of it do no harm. -/

theorem supplies_logicalAnd {dest : String} (hl : left.Filled D) (hr : right.Filled D)
    (hp : Placed code exit n (Template.logicalAnd dest left right)) :
    Supplies code n (n + 4) D (.name dest) := by
  obtain ⟨h₀, h₁, h₂, h₃, -⟩ := hp
  refine (Supplies.store h₀ rfl (filled_of_mem_literal _)).bind fun D' hD hv k hk => ?_
  have past := hk D' subset_rfl hv
  have last := Supplies.store h₃ rfl (filled_of_mem_literal _) k hk
  exact .jumpIfZero h₁ rfl (hl.mono hD) (.jumpIfZero h₂ rfl (hr.mono hD) last past) past

theorem supplies_logicalOr {dest : String} (hl : left.Filled D) (hr : right.Filled D)
    (hp : Placed code exit n (Template.logicalOr dest left right)) :
    Supplies code n (n + 5) D (.name dest) := by
  obtain ⟨h₀, h₁, h₂, h₃, h₄, -⟩ := hp
  refine (Supplies.store h₀ rfl (filled_of_mem_literal _)).bind fun D' hD hv k hk => ?_
  have second (D'' : Set String) (hD' : D' ⊆ D'') : Supplied code k (n + 3) D'' := by
    have last := Supplies.store h₄ rfl (filled_of_mem_literal _) k fun E hE => hk E (hD'.trans hE)
    exact .jumpIfZero h₃ rfl (hr.mono (hD.trans hD')) last (hk D'' hD' (hv.mono hD'))
  have first := Supplies.store h₂ rfl (filled_of_mem_literal _) k fun E hE _ => second E hE
  exact .jumpIfZero h₁ rfl (hl.mono hD) first (second D' subset_rfl)

end

/-! ## Expressions and conditions -/

mutual

/-- The code of an expression reads only declared variables and what it has written itself. -/
theorem Expression.supplies : ∀ (e : Expression) {c c' : Compilation} {result : Emitted} {n : Nat}
    {D : Set String}, e.emit.Gives c result c' → Γ.Has e.names → Γ.slots ⊆ D →
    Placed code exit n result.code → Supplies code n (n + result.code.length) D result.value
  | .term term, _, _, _, _, _, hg, hn, hD, hp =>
    term.supplies (Expression.gives_term.mp hg) (by rwa [Expression.names] at hn) hD hp
  | .chain left operator right, _, _, _, _, _, hg, hn, hD, hp => by
    obtain ⟨r, c₁, l, c₂, joined, hr, hl, hj, rfl⟩ := Expression.gives_chain.mp hg
    rw [Expression.names, Scope.has_append] at hn
    exact supplies_join hp (right.supplies hr hn.2 hD)
      (fun hD' => left.supplies hl hn.1 (hD.trans hD')) fun fr fl => supplies_arithmetic hj fl fr

theorem Term.supplies : ∀ (t : Term) {c c' : Compilation} {result : Emitted} {n : Nat}
    {D : Set String}, t.emit.Gives c result c' → Γ.Has t.names → Γ.slots ⊆ D →
    Placed code exit n result.code → Supplies code n (n + result.code.length) D result.value
  | .factor factor, _, _, _, _, _, hg, hn, hD, hp =>
    factor.supplies (Term.gives_factor.mp hg) (by rwa [Term.names] at hn) hD hp
  | .chain left operator right, _, _, _, _, _, hg, hn, hD, hp => by
    obtain ⟨r, c₁, l, c₂, joined, hr, hl, hj, rfl⟩ := Term.gives_chain.mp hg
    rw [Term.names, Scope.has_append] at hn
    exact supplies_join hp (right.supplies hr hn.2 hD)
      (fun hD' => left.supplies hl hn.1 (hD.trans hD')) fun fr fl => supplies_arithmetic hj fl fr

theorem Factor.supplies : ∀ (f : Factor) {c c' : Compilation} {result : Emitted} {n : Nat}
    {D : Set String}, f.emit.Gives c result c' → Γ.Has f.names → Γ.slots ⊆ D →
    Placed code exit n result.code → Supplies code n (n + result.code.length) D result.value
  | .name ident, _, _, _, n, _, hg, hn, hD, _ => by
    obtain ⟨symbol, -, -, rfl⟩ := Factor.gives_name.mp hg
    exact .here n (filled_name.mpr (hD (hn ident.name (by simp [Factor.names]))))
  | .literal l, _, _, _, n, _, hg, _, _, _ => by
    obtain ⟨-, rfl⟩ := Factor.gives_literal.mp hg
    exact .here n (filled_literal l)
  | .parens inner span, _, _, _, _, _, hg, hn, hD, hp =>
    inner.supplies (Factor.gives_parens.mp hg) (by rwa [Factor.names] at hn) hD hp
  | .cast type inner span, _, _, _, _, _, hg, hn, hD, hp => by
    obtain ⟨e, c₁, last, he, hl, rfl⟩ := Factor.gives_cast.mp hg
    rw [Factor.names] at hn
    rw [placed_append] at hp
    rw [List.length_append, ← Nat.add_assoc]
    exact (inner.supplies he hn hD hp.1).bind fun _ _ hv => supplies_castTo hl hv hp.2

end

mutual

theorem Condition.supplies : ∀ (b : Condition) {c c' : Compilation} {result : Emitted} {n : Nat}
    {D : Set String}, b.emit.Gives c result c' → Γ.Has b.names → Γ.slots ⊆ D →
    Placed code exit n result.code → Supplies code n (n + result.code.length) D result.value
  | .clause clause, _, _, _, _, _, hg, hn, hD, hp =>
    clause.supplies (Condition.gives_clause.mp hg) (by rwa [Condition.names] at hn) hD hp
  | .or left right, _, _, _, _, _, hg, hn, hD, hp => by
    obtain ⟨r, c₁, l, c₂, hr, hl, -, rfl⟩ := Condition.gives_or.mp hg
    rw [Condition.names, Scope.has_append] at hn
    exact supplies_join hp (right.supplies hr hn.2 hD)
      (fun hD' => left.supplies hl hn.1 (hD.trans hD')) fun fr fl => supplies_logicalOr fl fr

theorem Clause.supplies : ∀ (b : Clause) {c c' : Compilation} {result : Emitted} {n : Nat}
    {D : Set String}, b.emit.Gives c result c' → Γ.Has b.names → Γ.slots ⊆ D →
    Placed code exit n result.code → Supplies code n (n + result.code.length) D result.value
  | .test test, _, _, _, _, _, hg, hn, hD, hp =>
    test.supplies (Clause.gives_test.mp hg) (by rwa [Clause.names] at hn) hD hp
  | .and left right, _, _, _, _, _, hg, hn, hD, hp => by
    obtain ⟨r, c₁, l, c₂, hr, hl, -, rfl⟩ := Clause.gives_and.mp hg
    rw [Clause.names, Scope.has_append] at hn
    exact supplies_join hp (right.supplies hr hn.2 hD)
      (fun hD' => left.supplies hl hn.1 (hD.trans hD')) fun fr fl => supplies_logicalAnd fl fr

theorem Test.supplies : ∀ (b : Test) {c c' : Compilation} {result : Emitted} {n : Nat}
    {D : Set String}, b.emit.Gives c result c' → Γ.Has b.names → Γ.slots ⊆ D →
    Placed code exit n result.code → Supplies code n (n + result.code.length) D result.value
  | .compare left operator right, _, _, _, _, _, hg, hn, hD, hp => by
    obtain ⟨l, c₁, r, c₂, joined, hl, hr, hj, rfl⟩ := Test.gives_compare.mp hg
    rw [Test.names, Scope.has_append] at hn
    exact supplies_join hp (left.supplies hl hn.1 hD)
      (fun hD' => right.supplies hr hn.2 (hD.trans hD')) fun fl fr => supplies_comparison hj fl fr
  | .not inner span, _, _, _, _, _, hg, hn, hD, hp => by
    obtain ⟨b, c₁, hb, -, rfl⟩ := Test.gives_not.mp hg
    rw [Test.names] at hn
    rw [placed_append] at hp
    rw [List.length_append, ← Nat.add_assoc]
    refine (inner.supplies hb hn hD hp.1).bind fun _ _ hv => .store hp.2.1 rfl ?_
    simpa using ⟨hv, filled_literal _⟩

end

/-! ## Statements -/

/-- A test and the conditional jump on its value. -/
theorem Machine.Guarded.supplied {yes no : Nat} {test : Emitted}
    (hg : Guarded code exit n yes no test)
    (ht : Supplies code n (n + test.code.length) D test.value)
    (hyes : Supplied code k yes D) (hno : Supplied code k no D) : Supplied code k n D := by
  obtain ⟨target, hf, hl⟩ := hg.jump
  have hyes := hg.yes_eq ▸ hyes
  exact ht k fun D' hD hv => .jumpIfZero hf hl hv (hyes.mono hD) (hno.mono hD)

section

variable {c c' : Compilation} {span : Span}

theorem supplied_assign {target : Ident} {value : Expression}
    (hs : Stands code exit n next (Statement.assign target value span).emit c c')
    (hn : Γ.Has (Statement.assign target value span).names) (hD : Γ.slots ⊆ D)
    (h : Supplied code k next D) : Supplied code k n D := by
  obtain ⟨part, hg, hp, rfl⟩ := hs
  obtain ⟨v, c₁, rest, hv, hr, rfl⟩ := Statement.gives_assign.mp hg
  obtain ⟨symbol, own, wide, -, -, -, hw, rfl⟩ := gives_assignment.mp hr
  rw [Statement.names] at hn
  rw [placed_append, placed_append] at hp
  have hn : Γ.Has value.names := fun name hname => hn name (List.mem_cons_of_mem _ hname)
  simp only [List.length_append, List.length_singleton, ← Nat.add_assoc] at h
  refine value.supplies hv hn hD hp.1 k fun D₁ h₁ hv₁ => ?_
  refine supplies_widenTo hw hv₁ hp.2.1 k fun D₂ h₂ hv₂ => ?_
  refine .store hp.2.2.1 rfl (by simpa using hv₂) (h.mono ?_)
  exact (h₁.trans h₂).trans (Set.subset_insert ..)

theorem supplied_input {target : Ident}
    (hs : Stands code exit n next (Statement.input target span).emit c c')
    (h : Supplied code k next D) : Supplied code k n D := by
  obtain ⟨part, hg, hp, rfl⟩ := hs
  obtain ⟨symbol, -, -, rfl⟩ := Statement.gives_input.mp hg
  exact .store hp.1 rfl (by simp) (h.mono (Set.subset_insert ..))

theorem supplied_output {value : Expression}
    (hs : Stands code exit n next (Statement.output value span).emit c c')
    (hn : Γ.Has (Statement.output value span).names) (hD : Γ.slots ⊆ D)
    (h : Supplied code k next D) : Supplied code k n D := by
  obtain ⟨part, hg, hp, rfl⟩ := hs
  obtain ⟨v, c₁, rest, hv, hr, rfl⟩ := Statement.gives_output.mp hg
  obtain ⟨own, wide, -, hw, rfl⟩ := gives_printing.mp hr
  rw [Statement.names] at hn
  rw [placed_append, placed_append] at hp
  simp only [List.length_append, List.length_singleton, ← Nat.add_assoc] at h
  refine value.supplies hv hn hD hp.1 k fun D₁ h₁ hv₁ => ?_
  refine supplies_widenTo hw hv₁ hp.2.1 k fun D₂ h₂ hv₂ => ?_
  exact .print hp.2.2.1 hv₂ (h.mono (h₁.trans h₂))

/-- Every round of a loop takes a step, the jump back. So what the body needs of the line it jumps to is
needed for fewer steps. -/
theorem supplied_loop {condition : Condition} {b : Emitted} {c₁ : Compilation} {back m : Nat}
    (hb : condition.emit.Gives c b c₁) (hg : Guarded code exit n m next b) (hj : Goes code back n)
    (hn : Γ.Has condition.names) (hD : Γ.slots ⊆ D)
    (hbody : ∀ k, Supplied code k back D → Supplied code k next D → Supplied code k m D)
    (h : Supplied code k next D) : Supplied code k n D := by
  induction k with
  | zero => trivial
  | succ k ih =>
    have hback : Supplied code (k + 1) back D := hj.supplied_succ (ih h.pred)
    exact hg.supplied (condition.supplies hb hn hD hg.placed) (hbody (k + 1) hback h) h

end

mutual

/-- The code of a statement is supplied if the line after it is, and the line to which its breaks
lead. -/
theorem Statement.supplied : ∀ (statement : Statement) {exit n next : Nat} {c c' : Compilation}
    {D : Set String}, Stands code exit n next statement.emit c c' → Γ.Has statement.names →
    Γ.slots ⊆ D → ∀ k, Supplied code k next D → Supplied code k exit D → Supplied code k n D
  | .assign _ _ _, _, _, _, _, _, _, hs, hn, hD, _, h, _ => supplied_assign hs hn hD h
  | .input _ _, _, _, _, _, _, _, hs, _, _, _, h, _ => supplied_input hs h
  | .output _ _, _, _, _, _, _, _, hs, hn, hD, _, h, _ => supplied_output hs hn hD h
  | .ifThen condition body _, _, _, _, _, _, _, hs, hn, hD, k, h, he => by
    obtain ⟨b, c₁, m, hb, hg, hbody⟩ := hs.ifThen
    rw [Statement.names, Scope.has_append] at hn
    exact hg.supplied (condition.supplies hb hn.1 hD hg.placed)
      (body.supplied hbody hn.2 hD k h he) h
  | .ifElse condition body other _, _, _, _, _, _, _, hs, hn, hD, k, h, he => by
    obtain ⟨b, c₁, m, l, j, c₂, hb, hg, hbody, hj, hother⟩ := hs.ifElse
    rw [Statement.names, Scope.has_append, Scope.has_append] at hn
    exact hg.supplied (condition.supplies hb hn.1.1 hD hg.placed)
      (body.supplied hbody hn.1.2 hD k (hj.supplied h) he) (other.supplied hother hn.2 hD k h he)
  | .loop condition body _, _, _, _, _, _, _, hs, hn, hD, _, h, _ => by
    obtain ⟨b, c₁, m, back, hb, hg, hbody, hj⟩ := hs.loop
    rw [Statement.names, Scope.has_append] at hn
    exact supplied_loop hb hg hj hn.1 hD (fun k => body.supplied hbody hn.2 hD k) h
  | .switch selector cases ⟨default, _⟩ _, _, _, _, _, _, _, hs, hn, hD, k, h, _ => by
    obtain ⟨v, c₁, m, c₂, hv, hp, hcases, hdefault⟩ := hs.switch
    rw [Statement.names, Scope.has_append, Scope.has_append, Block.names] at hn
    -- the slot of the selector stays filled in all arms
    refine selector.supplies hv hn.1.1 hD hp k fun D' hD' hv' => ?_
    refine supplied_cases cases hcases hv' hn.1.2 (hD.trans hD') k ?_ (h.mono hD')
    exact supplied_statements default hdefault hn.2 (hD.trans hD') k (h.mono hD') (h.mono hD')
  | .leave _, _, _, _, _, _, _, hs, _, _, _, _, he => hs.leave.supplied he
  | .block ⟨body, _⟩, _, _, _, _, _, _, hs, hn, hD, k, h, he => by
    rw [Statement.names, Block.names] at hn
    exact supplied_statements body hs.block hn hD k h he

theorem supplied_statements : ∀ (body : List Statement) {exit n next : Nat} {c c' : Compilation}
    {D : Set String}, Stands code exit n next (emitStatements body) c c' →
    Γ.Has (statementsNames body) → Γ.slots ⊆ D →
    ∀ k, Supplied code k next D → Supplied code k exit D → Supplied code k n D
  | [], _, _, _, _, _, _, hs, _, _, _, h, _ => hs.nil ▸ h
  | first :: rest, _, _, _, _, _, _, hs, hn, hD, k, h, he => by
    obtain ⟨m, c₁, hf, hr⟩ := hs.cons
    rw [statementsNames, Scope.has_append] at hn
    exact first.supplied hf hn.1 hD k (supplied_statements rest hr hn.2 hD k h he) he

/-- The test of each arm fills its own slot, and may go on to the next arm. -/
theorem supplied_cases : ∀ (cases : List Case) {exit n next : Nat} {c c' : Compilation}
    {operand : Operand} {D : Set String}, Stands code exit n next (emitCases operand cases) c c' →
    operand.Filled D → Γ.Has (casesNames cases) → Γ.slots ⊆ D →
    ∀ k, Supplied code k next D → Supplied code k exit D → Supplied code k n D
  | [], _, _, _, _, _, _, _, hs, _, _, _, _, h, _ => hs.noCases.1 ▸ h
  | ⟨label, ⟨body, _⟩, _⟩ :: rest, _, _, _, c, _, operand, D, hs, ho, hn, hD, k, h, he => by
    obtain ⟨m, l, c₁, pair, c₂, hbody, hw, hg, hrest⟩ := hs.consCase
    rw [casesNames_cons, Scope.has_append] at hn
    have hno := supplied_cases rest hrest ho hn.2 hD k h he
    have hyes := supplied_statements body hbody hn.1 hD k hno he
    obtain ⟨hp, hc, -⟩ := placed_append.mp hg.placed
    refine hg.supplied (fun j hj => ?_) hyes hno
    refine supplied_widenPair hw ho (filled_literal label) hp fun D₁ h₁ hl hr => ?_
    rw [List.length_append, List.length_singleton, ← Nat.add_assoc] at hj
    refine Supplies.store hc rfl ?_ j fun D₂ h₂ hv => hj D₂ (h₁.trans h₂) hv
    simpa using ⟨hl, hr⟩

end

/-! ## Programs -/

namespace Program

variable {p : Program}

/-- From the start, with the declared variables filled, all that is read is filled. Nothing comes after
the halt. -/
theorem supplied_of_gives {c : Compilation} (h : p.emit.Gives .start code c) (hp : p.UsesDeclared)
    (k : Nat) : Supplied code k 1 p.scope.slots := by
  obtain ⟨c₁, last, -, hl, hs⟩ := stands_of_gives h 0
  refine supplied_statements p.body.body hs hp.has subset_rfl k ?_ ?_
  · cases k with
    | zero => trivial
    | succ k => exact .step hl (fun slot hslot => by cases hslot) fun m hm => by cases hm
  · cases k with
    | zero => trivial
    | succ k => exact fun i hi => by cases hi

theorem supplied_of_compile {q : Listing} (hq : p.compile = .ok q) (hp : p.UsesDeclared) (k : Nat) :
    Supplied q.instructions k 1 p.scope.slots := by
  obtain ⟨code, c, hg, hres, -⟩ := compile_eq_ok.mp hq
  obtain ⟨-, he⟩ := Instruction.resolveAll_eq_ok.mp hres
  rw [he, supplied_settleFrom]
  exact supplied_of_gives hg hp k

/-- What the temporaries hold at the start makes no difference to a run of the compiled program. -/
theorem run_of_eq_on_declared {A : Arithmetic} {q : Listing} (hq : p.compile = .ok q)
    (hp : p.UsesDeclared) {w : World A} {σ : A.Store}
    (hσ : ∀ name, p.Declares name → σ name = w.store name) {s : State A}
    (hrun : run q.instructions k ⟨1, w⟩ = some s) :
    ∃ τ, run q.instructions k ⟨1, { w with store := σ }⟩ =
      some ⟨s.line, { s.world with store := τ }⟩ := by
  refine (supplied_of_compile hq hp k).run_refill (fun name hname => ?_) hrun
  exact hσ name (isSome_scope.mp hname)

/-- On every way through the code of a program that uses declared names only, an instruction that reads
a name which is not declared comes after one that writes it. -/
theorem written_before_read {q : Listing} (hq : p.compile = .ok q) (hp : p.UsesDeclared)
    {before after : List Nat} {n : Nat} (hway : IsWay q.instructions (before ++ n :: after))
    {i : Instruction} (hi : fetch q.instructions n = some i) {name : String}
    (hr : name ∈ i.reads) (hd : ¬ p.Declares name) :
    ∃ m ∈ before, ∃ j, fetch q.instructions m = some j ∧ j.written? = some name := by
  obtain hslot | hw :=
    Supplied.filled_or_written (supplied_of_compile hq hp) hway.2 hway.1 hi hr
  · exact absurd (isSome_scope.mp hslot) hd
  · exact hw

/-- In the second round of the countdown the conditional jump reads the temporary of its test, which is
written on the way. -/
theorem countdown_written_before_read :
    countdown.compile = .ok ⟨countdownCode, []⟩ ∧ countdown.UsesDeclared ∧
      IsWay countdownCode ([1, 2, 3, 4, 5, 6, 7, 8, 2] ++ 3 :: [9]) ∧ ¬ countdown.Declares "t2" ∧
      ∃ m ∈ [1, 2, 3, 4, 5, 6, 7, 8, 2], ∃ j, fetch countdownCode m = some j ∧
        j.written? = some "t2" := by
  have hq : countdown.compile = .ok ⟨countdownCode, []⟩ := rfl
  have hp : countdown.UsesDeclared := by decide
  have hway : IsWay countdownCode ([1, 2, 3, 4, 5, 6, 7, 8, 2] ++ 3 :: [9]) := by decide
  have hd : ¬ countdown.Declares "t2" := by decide
  exact ⟨hq, hp, hway, hd, written_before_read hq hp hway rfl (List.mem_singleton_self _) hd⟩

end Program

end Cpl
