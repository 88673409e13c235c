import Cpl.Proofs.Flow
import Cpl.Proofs.Growth
import Cpl.Proofs.Names

/-!
# What emitted code writes

The slots that the code of a part of a tree writes are exactly the temporaries that were taken for it and
the variables that are assigned or read in it (`Writing`). Expressions and conditions write no variable.

The code of a statement is not in the order in which its parts were emitted: the body of a loop comes before
its condition, and the slot of a case before its body. What is written does not depend on the order
(`Writing.congr`), so the parts are put together as they were emitted.

Together with the growth of the symbols this is the whole account of an emission (`emission_accounts`).
-/

namespace Cpl

open Emit Instruction

/-! ## Targets -/

mutual

/-- The variables that are assigned or read somewhere in a statement. -/
def Statement.targets : Statement → List String
  | .assign target _ _ => [target.name]
  | .input target _ => [target.name]
  | .output _ _ => []
  | .ifThen _ body _ => body.targets
  | .ifElse _ body other _ => body.targets ++ other.targets
  | .loop _ body _ => body.targets
  | .switch _ cases default _ => casesTargets cases ++ default.targets
  | .leave _ => []
  | .block block => block.targets

@[inherit_doc Statement.targets]
def Block.targets : Block → List String
  | ⟨body, _⟩ => statementsTargets body

@[inherit_doc Statement.targets]
def statementsTargets : List Statement → List String
  | [] => []
  | first :: rest => first.targets ++ statementsTargets rest

@[inherit_doc Statement.targets]
def casesTargets : List Case → List String
  | [] => []
  | ⟨_, body, _⟩ :: rest => body.targets ++ casesTargets rest

end

section

variable {name : String}

mutual

theorem Statement.mem_names_of_mem_targets : ∀ statement : Statement, name ∈ statement.targets →
    name ∈ statement.names
  | .assign target value span, h => by
    rw [Statement.targets, List.mem_singleton] at h
    rw [Statement.names, h]
    exact List.mem_cons_self
  | .input target span, h => by
    rw [Statement.targets] at h
    rwa [Statement.names]
  | .output value span, h => by
    rw [Statement.targets] at h
    cases h
  | .ifThen condition body span, h => by
    rw [Statement.targets] at h
    rw [Statement.names]
    exact List.mem_append_right _ (body.mem_names_of_mem_targets h)
  | .ifElse condition body other span, h => by
    rw [Statement.targets, List.mem_append] at h
    rw [Statement.names, List.append_assoc]
    exact List.mem_append_right _ (List.mem_append.mpr
      (h.imp body.mem_names_of_mem_targets other.mem_names_of_mem_targets))
  | .loop condition body span, h => by
    rw [Statement.targets] at h
    rw [Statement.names]
    exact List.mem_append_right _ (body.mem_names_of_mem_targets h)
  | .switch selector cases ⟨body, bodySpan⟩ span, h => by
    rw [Statement.targets, Block.targets, List.mem_append] at h
    rw [Statement.names, Block.names, List.append_assoc]
    exact List.mem_append_right _ (List.mem_append.mpr
      (h.imp (mem_casesNames_of_mem_targets cases) (mem_statementsNames_of_mem_targets body)))
  | .leave span, h => by
    rw [Statement.targets] at h
    cases h
  | .block ⟨body, bodySpan⟩, h => by
    rw [Statement.targets, Block.targets] at h
    rw [Statement.names, Block.names]
    exact mem_statementsNames_of_mem_targets body h

theorem mem_statementsNames_of_mem_targets : ∀ body : List Statement,
    name ∈ statementsTargets body → name ∈ statementsNames body
  | [], h => by
    rw [statementsTargets] at h
    cases h
  | first :: rest, h => by
    rw [statementsTargets, List.mem_append] at h
    rw [statementsNames]
    exact List.mem_append.mpr
      (h.imp first.mem_names_of_mem_targets (mem_statementsNames_of_mem_targets rest))

theorem mem_casesNames_of_mem_targets : ∀ cases : List Case,
    name ∈ casesTargets cases → name ∈ casesNames cases
  | [], h => by
    rw [casesTargets] at h
    cases h
  | ⟨label, ⟨body, bodySpan⟩, span⟩ :: rest, h => by
    rw [casesTargets, Block.targets, List.mem_append] at h
    rw [casesNames, Block.names]
    exact List.mem_append.mpr
      (h.imp (mem_statementsNames_of_mem_targets body) (mem_casesNames_of_mem_targets rest))

end

end

theorem casesTargets_cons (first : Case) (rest : List Case) :
    casesTargets (first :: rest) = statementsTargets first.body.body ++ casesTargets rest := by
  obtain ⟨label, ⟨body, bodySpan⟩, span⟩ := first
  rw [casesTargets, Block.targets]

/-! ## Written slots -/

/-- Some instruction of the code writes the slot. -/
def Writes (code : List Instruction) (slot : String) : Prop :=
  ∃ i ∈ code, i.written? = some slot

section

variable {code rest : List Instruction} {slot : String}

@[simp] theorem writes_nil : ¬ Writes [] slot := by
  simp [Writes]

@[simp] theorem writes_cons {i : Instruction} :
    Writes (i :: rest) slot ↔ i.written? = some slot ∨ Writes rest slot := by
  simp [Writes]

@[simp] theorem writes_append : Writes (code ++ rest) slot ↔ Writes code slot ∨ Writes rest slot := by
  simp [Writes, or_and_right, exists_or]

/-- Jumps write nothing, so it makes no difference whether a break is closed. -/
@[simp] theorem writes_closeBreaksFrom (size : Nat) :
    Writes (closeBreaksFrom size code) slot ↔ Writes code slot := by
  induction code generalizing size with
  | nil => rfl
  | cons i code ih =>
    rw [writes_cons]
    cases i with
    | quad opcode operands => exact writes_cons.trans (or_congr_right (ih _))
    | openBreak position => exact writes_cons.trans (or_congr_right (ih _))

@[simp] theorem writes_closeBreaks : Writes (closeBreaks code) slot ↔ Writes code slot :=
  writes_closeBreaksFrom code.length

@[simp] theorem written?_jump (target : Target) : (jump target).written? = none := rfl

@[simp] theorem written?_jumpIfZero (target : Target) (condition : Operand) :
    (jumpIfZero target condition).written? = none := rfl

end

/-- The name is new in the second symbols. -/
def Symbols.New (s s' : Symbols) (name : String) : Prop :=
  s.get? name = none ∧ s'.get? name ≠ none

theorem Symbols.not_new_self (s : Symbols) (name : String) : ¬ s.New s name :=
  fun h => h.2 h.1

theorem Symbols.new_temporary {s : Symbols} {type : NumType} {name : String} :
    s.New (s.temporary type).2 name ↔ s.fresh = name := by
  rw [New, get?_temporary]
  constructor
  · rintro ⟨hn, hs⟩
    split at hs
    · assumption
    · exact absurd hn hs
  · rintro rfl
    simp

theorem Symbols.Grows.new_iff {s s' s'' : Symbols} (h : s.Grows s') (h' : s'.Grows s'')
    {name : String} : s.New s'' name ↔ s.New s' name ∨ s'.New s'' name := by
  constructor
  · rintro ⟨hn, hs⟩
    by_cases hs' : s'.get? name = none
    · exact .inr ⟨hs', hs⟩
    · exact .inl ⟨hn, hs'⟩
  · rintro (⟨hn, hs⟩ | ⟨hn, hs⟩)
    · exact ⟨hn, h'.get?_ne_none hs⟩
    · refine ⟨?_, hs⟩
      by_contra hold
      exact h.get?_ne_none hold hn

/-- The code, for which the symbols grew, writes the new ones and the targets and nothing else. -/
structure Writing (s : Symbols) (code : List Instruction) (targets : List String) (s' : Symbols) :
    Prop where
  grows : s.Grows s'
  writes {slot : String} : Writes code slot ↔ s.New s' slot ∨ slot ∈ targets

namespace Writing

variable {s s' s'' : Symbols} {code rest : List Instruction} {targets targets' : List String}

/-- One part is emitted after the other. -/
theorem append (h : Writing s code targets s') (h' : Writing s' rest targets' s'') :
    Writing s (code ++ rest) (targets ++ targets') s'' := by
  refine ⟨h.grows.trans h'.grows, ?_⟩
  intro slot
  rw [writes_append, h.writes, h'.writes, h.grows.new_iff h'.grows, List.mem_append]
  exact or_or_or_comm

/-- The order of the code does not matter. -/
theorem congr (h : Writing s code targets s') (hw : ∀ slot, Writes rest slot ↔ Writes code slot) :
    Writing s rest targets s' :=
  ⟨h.grows, (hw _).trans h.writes⟩

/-- A name that was there before, and is no target, is not written. -/
theorem written?_ne (h : Writing s code targets s') {name : String} (hs : s.get? name ≠ none)
    (ht : name ∉ targets) : ∀ i ∈ code, i.written? ≠ some name := by
  intro i hi hw
  rcases h.writes.mp ⟨i, hi, hw⟩ with hnew | hmem
  · exact hs hnew.1
  · exact ht hmem

end Writing

section

variable {s : Symbols} {code : List Instruction}

theorem writing_nil (s : Symbols) : Writing s [] [] s :=
  ⟨.refl s, by simp [s.not_new_self]⟩

/-- Code that writes one fresh temporary. -/
theorem writing_temporary (type : NumType) (h : ∀ slot, Writes code slot ↔ s.fresh = slot) :
    Writing s code [] (s.temporary type).2 :=
  ⟨s.grows_temporary type, by simp [h, Symbols.new_temporary]⟩

/-- An instruction that writes a variable. -/
theorem writing_target {i : Instruction} {target : String} (h : i.written? = some target) :
    Writing s [i] [target] s :=
  ⟨.refl s, by simp [s.not_new_self, h, eq_comm]⟩

/-- The slot for a result is the first operand. -/
theorem written?_quad (opcode : Opcode) (dest : String) (operands : List Operand) :
    (Instruction.quad opcode (.name dest :: operands)).written? =
      if opcode.stores then some dest else none := rfl

end

/-! ## Operations -/

section

variable {c c' : Compilation} {code : List Instruction} {result : Emitted}

theorem writing_widenTo {common own : NumType} {value : Operand}
    (hg : (widenTo common own value).Gives c result c') :
    Writing c.symbols result.code [] c'.symbols := by
  rcases gives_widenTo.mp hg with ⟨-, rfl, rfl⟩ | ⟨-, rfl, rfl⟩
  · exact writing_nil _
  · refine writing_temporary .float fun slot => ?_
    simp [Template.convert, written?_quad, Opcode.stores]

theorem writing_widenPair {left right : Operand} {position : Position} {pair : Pair}
    (hg : (widenPair left right position).Gives c pair c') :
    Writing c.symbols pair.code [] c'.symbols := by
  obtain ⟨lt, rt, l, d, r, -, -, hl, hr, rfl⟩ := gives_widenPair.mp hg
  exact (writing_widenTo hl).append (writing_widenTo hr)

theorem writing_arithmetic {operator : Operator} {left right : Operand}
    (hg : (arithmetic operator left right).Gives c result c') :
    Writing c.symbols result.code [] c'.symbols := by
  obtain ⟨pair, d, code, hp, ht, rfl, rfl⟩ := gives_arithmetic.mp hg
  refine (writing_widenPair hp).append (writing_temporary pair.type fun slot => ?_)
  unfold Template.arithmetic at ht
  split at ht <;> cases ht
  simp [written?_quad, Opcode.stores]

theorem writing_comparison {operator : Operator} {left right : Operand}
    (hg : (comparison operator left right).Gives c result c') :
    Writing c.symbols result.code [] c'.symbols := by
  obtain ⟨pair, d, code, hp, ht, rfl, rfl⟩ := gives_comparison.mp hg
  refine (writing_widenPair hp).append (writing_temporary .int fun slot => ?_)
  unfold Template.relational at ht
  split at ht <;> cases ht
  all_goals simp [written?_quad, Opcode.stores]

theorem writing_castTo {type : NumType} {value : Operand} {position : Position}
    (hg : (castTo type value position).Gives c result c') :
    Writing c.symbols result.code [] c'.symbols := by
  obtain ⟨own, -, ⟨-, rfl, rfl⟩ | ⟨-, rfl, rfl⟩⟩ := gives_castTo.mp hg
  · exact writing_nil _
  · refine writing_temporary type fun slot => ?_
    simp [Template.convert, written?_quad, Opcode.stores]

theorem writing_assignment {target : Ident} {value : Operand} {position : Position}
    (hg : (assignment target value position).Gives c code c') :
    Writing c.symbols code [target.name] c'.symbols := by
  obtain ⟨symbol, own, wide, -, -, -, hw, rfl⟩ := gives_assignment.mp hg
  exact (writing_widenTo hw).append (writing_target rfl)

theorem writing_printing {value : Operand} {position : Position}
    (hg : (printing value position).Gives c code c') : Writing c.symbols code [] c'.symbols := by
  obtain ⟨own, wide, -, hw, rfl⟩ := gives_printing.mp hg
  refine (writing_widenTo hw).congr fun slot => ?_
  simp [Template.print, written?, Opcode.stores]

end

/-! ## Expressions and conditions -/

mutual

theorem Expression.writing : ∀ (e : Expression) {c c' : Compilation} {result : Emitted},
    e.emit.Gives c result c' → Writing c.symbols result.code [] c'.symbols
  | .term term, _, _, _, hg => term.writing (Expression.gives_term.mp hg)
  | .chain left operator right, _, _, _, hg => by
    obtain ⟨r, c₁, l, c₂, joined, hr, hl, hj, rfl⟩ := Expression.gives_chain.mp hg
    exact ((right.writing hr).append (left.writing hl)).append (writing_arithmetic hj)

theorem Term.writing : ∀ (t : Term) {c c' : Compilation} {result : Emitted},
    t.emit.Gives c result c' → Writing c.symbols result.code [] c'.symbols
  | .factor factor, _, _, _, hg => factor.writing (Term.gives_factor.mp hg)
  | .chain left operator right, _, _, _, hg => by
    obtain ⟨r, c₁, l, c₂, joined, hr, hl, hj, rfl⟩ := Term.gives_chain.mp hg
    exact ((right.writing hr).append (left.writing hl)).append (writing_arithmetic hj)

theorem Factor.writing : ∀ (f : Factor) {c c' : Compilation} {result : Emitted},
    f.emit.Gives c result c' → Writing c.symbols result.code [] c'.symbols
  | .name ident, _, _, _, hg => by
    obtain ⟨symbol, -, rfl, rfl⟩ := Factor.gives_name.mp hg
    exact writing_nil _
  | .literal l, _, _, _, hg => by
    obtain ⟨rfl, rfl⟩ := Factor.gives_literal.mp hg
    exact writing_nil _
  | .parens inner span, _, _, _, hg => inner.writing (Factor.gives_parens.mp hg)
  | .cast type inner span, _, _, _, hg => by
    obtain ⟨e, c₁, last, he, hl, rfl⟩ := Factor.gives_cast.mp hg
    exact (inner.writing he).append (writing_castTo hl)

end

mutual

theorem Condition.writing : ∀ (b : Condition) {c c' : Compilation} {result : Emitted},
    b.emit.Gives c result c' → Writing c.symbols result.code [] c'.symbols
  | .clause clause, _, _, _, hg => clause.writing (Condition.gives_clause.mp hg)
  | .or left right, _, _, _, hg => by
    obtain ⟨r, c₁, l, c₂, hr, hl, rfl, rfl⟩ := Condition.gives_or.mp hg
    refine ((right.writing hr).append (left.writing hl)).append (writing_temporary .int fun slot => ?_)
    simp [Template.logicalOr, Template.setTruth, written?_quad, Opcode.stores]

theorem Clause.writing : ∀ (b : Clause) {c c' : Compilation} {result : Emitted},
    b.emit.Gives c result c' → Writing c.symbols result.code [] c'.symbols
  | .test test, _, _, _, hg => test.writing (Clause.gives_test.mp hg)
  | .and left right, _, _, _, hg => by
    obtain ⟨r, c₁, l, c₂, hr, hl, rfl, rfl⟩ := Clause.gives_and.mp hg
    refine ((right.writing hr).append (left.writing hl)).append (writing_temporary .int fun slot => ?_)
    simp [Template.logicalAnd, Template.setTruth, written?_quad, Opcode.stores]

theorem Test.writing : ∀ (b : Test) {c c' : Compilation} {result : Emitted},
    b.emit.Gives c result c' → Writing c.symbols result.code [] c'.symbols
  | .compare left operator right, _, _, _, hg => by
    obtain ⟨l, c₁, r, c₂, joined, hl, hr, hj, rfl⟩ := Test.gives_compare.mp hg
    exact ((left.writing hl).append (right.writing hr)).append (writing_comparison hj)
  | .not inner span, _, _, _, hg => by
    obtain ⟨b, c₁, hb, rfl, rfl⟩ := Test.gives_not.mp hg
    refine (inner.writing hb).append (writing_temporary .int fun slot => ?_)
    simp [Template.logicalNot, written?_quad, Opcode.stores]

end

/-! ## Statements -/

mutual

/-- The code of a statement writes its targets and the temporaries that were taken for it. -/
theorem Statement.writing : ∀ (statement : Statement) {c c' : Compilation}
    {code : List Instruction}, statement.emit.Gives c code c' →
    Writing c.symbols code statement.targets c'.symbols
  | .assign target value span, _, _, _, hg => by
    obtain ⟨v, c₁, rest, hv, hr, rfl⟩ := Statement.gives_assign.mp hg
    rw [Statement.targets]
    exact (value.writing hv).append (writing_assignment hr)
  | .input target span, _, _, _, hg => by
    obtain ⟨symbol, -, rfl, rfl⟩ := Statement.gives_input.mp hg
    rw [Statement.targets]
    exact writing_target rfl
  | .output value span, _, _, _, hg => by
    obtain ⟨v, c₁, rest, hv, hr, rfl⟩ := Statement.gives_output.mp hg
    rw [Statement.targets]
    exact (value.writing hv).append (writing_printing hr)
  | .ifThen condition body span, _, _, _, hg => by
    obtain ⟨b, c₁, t, hb, ht, rfl⟩ := Statement.gives_ifThen.mp hg
    rw [Statement.targets]
    exact ((condition.writing hb).append (body.writing ht)).congr fun slot => by simp
  | .ifElse condition body other span, _, _, _, hg => by
    obtain ⟨b, c₁, t, c₂, e, hb, ht, he, rfl⟩ := Statement.gives_ifElse.mp hg
    rw [Statement.targets]
    exact (((condition.writing hb).append (body.writing ht)).append (other.writing he)).congr
      fun slot => by simp
  | .loop condition body span, _, _, _, hg => by
    obtain ⟨t, c₁, b, ht, hb, rfl⟩ := Statement.gives_loop.mp hg
    rw [Statement.targets, ← List.append_nil body.targets]
    exact ((body.writing ht).append (condition.writing hb)).congr fun slot => by
      simp [loopCode, or_comm]
  | .switch selector cases ⟨body, bodySpan⟩ span, _, _, _, hg => by
    obtain ⟨v, c₁, arms, c₂, d, hv, ha, hd, rfl⟩ := Statement.gives_switch.mp hg
    rw [Statement.targets, Block.targets]
    exact (((selector.writing hv).append (writing_cases cases ha)).append
      (writing_statements body (Block.gives_iff.mp hd))).congr fun slot => writes_closeBreaks
  | .leave span, _, _, _, hg => by
    obtain ⟨rfl, rfl⟩ := Statement.gives_leave.mp hg
    rw [Statement.targets]
    exact (writing_nil _).congr fun slot => by simp [written?]
  | .block ⟨body, bodySpan⟩, _, _, _, hg => by
    rw [Statement.targets, Block.targets]
    exact writing_statements body (Block.gives_iff.mp (Statement.gives_block.mp hg))

theorem writing_statements : ∀ (body : List Statement) {c c' : Compilation}
    {code : List Instruction}, (emitStatements body).Gives c code c' →
    Writing c.symbols code (statementsTargets body) c'.symbols
  | [], _, _, _, hg => by
    obtain ⟨rfl, rfl⟩ := gives_statements_nil.mp hg
    rw [statementsTargets]
    exact writing_nil _
  | first :: rest, _, _, _, hg => by
    obtain ⟨f, c₁, r, hf, hr, rfl⟩ := gives_statements_cons.mp hg
    rw [statementsTargets]
    exact (first.writing hf).append (writing_statements rest hr)

/-- The slot of a test is taken before the body is emitted, the rest of the test comes after it. -/
theorem writing_cases : ∀ (cases : List Case) {selector : Operand} {c c' : Compilation}
    {code : List Instruction}, (emitCases selector cases).Gives c code c' →
    Writing c.symbols code (casesTargets cases) c'.symbols
  | [], _, _, _, _, hg => by
    obtain ⟨rfl, rfl⟩ := gives_cases_nil.mp hg
    rw [casesTargets]
    exact writing_nil _
  | ⟨label, ⟨body, bodySpan⟩, span⟩ :: rest, _, c, _, _, hg => by
    obtain ⟨b, c₁, test, c₂, more, hb, ht, hm, rfl⟩ := gives_cases_cons.mp hg
    obtain ⟨pair, hp, rfl⟩ := gives_caseTest.mp ht
    have hslot : Writing c.symbols
        [.quad (.compare .equal pair.type) [.name c.symbols.fresh, pair.left, pair.right]] []
        (c.symbols.temporary .int).2 :=
      writing_temporary .int fun slot => by simp [written?_quad, Opcode.stores]
    have hbody := hslot.append (writing_statements body (Block.gives_iff.mp hb))
    rw [casesTargets, Block.targets, ← List.append_nil (statementsTargets body)]
    refine ((hbody.append (writing_widenPair hp)).append (writing_cases rest hm)).congr fun slot => ?_
    simp only [writes_append, writes_cons, writes_nil, written?_jumpIfZero]
    tauto

end

/-! ## What emission leaves behind -/

/-- Run on `c`, the step keeps the symbols and warnings that it finds, and the symbols that it adds are
temporaries. If it succeeds, then its code writes these temporaries and the targets and nothing else. -/
structure Emit.Accounts {α : Type} (step : Emit α) (c : Compilation) (code : α → List Instruction)
    (targets : List String) : Prop where
  kept {name : String} {symbol : Symbol} : c.symbols.get? name = some symbol →
    (step.on c).2.symbols.get? name = some symbol
  added {name : String} {symbol : Symbol} : c.symbols.get? name = none →
    (step.on c).2.symbols.get? name = some symbol → symbol.isTemporary = true
  warned : c.warnings <+: (step.on c).2.warnings
  written {value : α} : (step.on c).1 = .ok value → ∀ slot,
    Writes (code value) slot ↔ c.symbols.New (step.on c).2.symbols slot ∨ slot ∈ targets

theorem Emit.Extends.accounts {α : Type} {step : Emit α} {c : Compilation}
    {code : α → List Instruction} {targets : List String} (h : step.Extends)
    (hw : ∀ {value c'}, step.Gives c value c' → Writing c.symbols (code value) targets c'.symbols) :
    step.Accounts c code targets := by
  have hgrows := h.grows c
  refine ⟨hgrows.symbols.get?, fun hn hs => (hgrows.symbols.isTemporary hn hs).1, hgrows.warnings, ?_⟩
  intro value hvalue slot
  have hg : step.Gives c value (step.on c).2 := Prod.ext hvalue rfl
  exact (hw hg).writes

/-- Whatever has been gathered before, emitting an expression, a condition, a statement or a block adds
temporaries and warnings only, and each temporary that is added is written by the code. The code writes no
other name, but for the variables that the statement or block assigns or reads. -/
theorem emission_accounts (c : Compilation) :
    (∀ e : Expression, e.emit.Accounts c Emitted.code []) ∧
    (∀ b : Condition, b.emit.Accounts c Emitted.code []) ∧
    (∀ statement : Statement, statement.emit.Accounts c id statement.targets) ∧
    ∀ block : Block, block.emit.Accounts c id block.targets := by
  refine ⟨fun e => ?_, fun b => ?_, fun statement => ?_, fun block => ?_⟩
  · exact e.extends_emit.accounts e.writing
  · exact b.extends_emit.accounts b.writing
  · exact statement.extends_emit.accounts statement.writing
  · refine block.extends_emit.accounts fun hg => ?_
    obtain ⟨body, span⟩ := block
    rw [Block.targets]
    exact writing_statements body (Block.gives_iff.mp hg)

end Cpl
