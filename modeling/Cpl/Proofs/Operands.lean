import Cpl.Proofs.Grammar.Written
import Cpl.Proofs.Jumps

/-!
# Where operands come from

The operands of a compiled program, by their kinds. A literal is one of the tree, or the zero or one of a
truth value (`Statement.fineCode` and the lemmas before it); a name is declared or is that of a temporary
(`Program.declares_of_type?`); a jump goes to a line. So each operand stems from the words of the program
(`Program.stemsFrom_of_compile`).
-/

namespace Cpl

open Emit

/-! ## Literals in code -/

section

variable {good : Literal → Prop}

/-- If the operand is a literal, then a good one. -/
def Operand.Fine (good : Literal → Prop) : Operand → Prop
  | .literal l => good l
  | .name _ => True
  | .jump _ => True

/-- All literals in the code are good. -/
def FineCode (good : Literal → Prop) (code : List Instruction) : Prop :=
  ∀ i ∈ code, ∀ o ∈ i.operands, o.Fine good

/-- All literals among the words are good, and so are the truth values, which code has of its own. -/
structure FineWords (good : Literal → Prop) (ws : List Word) : Prop where
  literal (l : Literal) : l.word ∈ ws → good l
  zero : good ⟨"0"⟩
  one : good ⟨"1"⟩

theorem fineWords_append {ws ws' : List Word} :
    FineWords good (ws ++ ws') ↔ FineWords good ws ∧ FineWords good ws' := by
  constructor
  · intro h
    exact ⟨⟨fun l hl => h.literal l (List.mem_append_left ws' hl), h.zero, h.one⟩,
      fun l hl => h.literal l (List.mem_append_right ws hl), h.zero, h.one⟩
  · rintro ⟨h, h'⟩
    exact ⟨fun l hl => (List.mem_append.mp hl).elim (h.literal l) (h'.literal l), h.zero, h.one⟩

section

variable {code rest : List Instruction}

theorem fineCode_nil : FineCode good [] := by simp [FineCode]

theorem fineCode_append :
    FineCode good (code ++ rest) ↔ FineCode good code ∧ FineCode good rest := by
  simp only [FineCode, List.mem_append, or_imp, forall_and]

theorem fineCode_cons {i : Instruction} :
    FineCode good (i :: rest) ↔ (∀ o ∈ i.operands, o.Fine good) ∧ FineCode good rest := by
  simp only [FineCode, List.forall_mem_cons]

theorem FineCode.closeBreaksFrom (h : FineCode good code) (size : Nat) :
    FineCode good (Instruction.closeBreaksFrom size code) := by
  induction code generalizing size with
  | nil => exact fineCode_nil
  | cons i code ih =>
    obtain ⟨hi, hcode⟩ := fineCode_cons.mp h
    cases i with
    | quad opcode operands => exact fineCode_cons.mpr ⟨hi, ih hcode _⟩
    | openBreak position =>
      exact fineCode_cons.mpr ⟨List.forall_mem_singleton.mpr trivial, ih hcode _⟩

theorem FineCode.closeBreaks (h : FineCode good code) : FineCode good (Instruction.closeBreaks code) :=
  h.closeBreaksFrom code.length

end

/-- The literals in the code and in the value are good. -/
structure Emitted.IsFine (good : Literal → Prop) (e : Emitted) : Prop where
  code : FineCode good e.code
  value : e.value.Fine good

/-! ## Operations -/

section

variable {c c' : Compilation} {left right value : Operand} {code : List Instruction}

/-- One instruction with operands of which each is fine. -/
theorem fineCode_quad {opcode : Opcode} {operands : List Operand}
    (h : ∀ o ∈ operands, o.Fine good) : FineCode good [.quad opcode operands] :=
  fineCode_cons.mpr ⟨h, fineCode_nil⟩

theorem fine_dest_value {dest : String} (hv : value.Fine good) :
    ∀ o ∈ [.name dest, value], o.Fine good :=
  List.forall_mem_cons.mpr ⟨trivial, List.forall_mem_singleton.mpr hv⟩

theorem fine_dest_values {dest : String} (hl : left.Fine good) (hr : right.Fine good) :
    ∀ o ∈ [.name dest, left, right], o.Fine good :=
  List.forall_mem_cons.mpr
    ⟨trivial, List.forall_mem_cons.mpr ⟨hl, List.forall_mem_singleton.mpr hr⟩⟩

theorem fineCode_jumpIfZero {target : Target} (hv : value.Fine good) :
    FineCode good [.jumpIfZero target value] :=
  fineCode_quad (List.forall_mem_cons.mpr ⟨trivial, List.forall_mem_singleton.mpr hv⟩)

theorem fineCode_jump {target : Target} : FineCode good [.jump target] :=
  fineCode_quad (List.forall_mem_singleton.mpr trivial)

/-- A body that is skipped when the condition is zero. -/
theorem fineCode_guarded {condition : Emitted} {target : Target} (hb : condition.IsFine good)
    (hcode : FineCode good code) :
    FineCode good (condition.code ++ [.jumpIfZero target condition.value] ++ code) :=
  fineCode_append.mpr
    ⟨fineCode_append.mpr ⟨hb.code, fineCode_jumpIfZero hb.value⟩, hcode⟩

theorem isFine_widenTo {common own : NumType} {result : Emitted}
    (hg : (widenTo common own value).Gives c result c') (hv : value.Fine good) :
    result.IsFine good := by
  rcases gives_widenTo.mp hg with ⟨-, rfl, rfl⟩ | ⟨-, rfl, rfl⟩
  · exact ⟨fineCode_nil, hv⟩
  · exact ⟨fineCode_quad (fine_dest_value hv), trivial⟩

theorem fine_widenPair {position : Position} {pair : Pair}
    (hg : (widenPair left right position).Gives c pair c') (hl : left.Fine good)
    (hr : right.Fine good) :
    FineCode good pair.code ∧ pair.left.Fine good ∧ pair.right.Fine good := by
  obtain ⟨lt, rt, l, d, r, -, -, hgl, hgr, rfl⟩ := gives_widenPair.mp hg
  have hl := isFine_widenTo hgl hl
  have hr := isFine_widenTo hgr hr
  exact ⟨fineCode_append.mpr ⟨hl.code, hr.code⟩, hl.value, hr.value⟩

theorem fineCode_relational {symbol dest : String} {type : NumType}
    (h : Template.relational symbol type dest left right = .ok code) (hl : left.Fine good)
    (hr : right.Fine good) : FineCode good code := by
  unfold Template.relational at h
  split at h <;> cases h
  · exact fineCode_quad (fine_dest_values hl hr)
  · have hskip : FineCode good [.jumpIfZero (.forward 2) (.name dest)] :=
      fineCode_jumpIfZero trivial
    exact fineCode_append.mpr ⟨fineCode_quad (fine_dest_values hl hr), fineCode_append.mpr
      ⟨hskip, fineCode_append.mpr ⟨fineCode_jump, fineCode_quad (fine_dest_values hl hr)⟩⟩⟩

theorem isFine_arithmetic {operator : Operator} {result : Emitted}
    (hg : (arithmetic operator left right).Gives c result c') (hl : left.Fine good)
    (hr : right.Fine good) : result.IsFine good := by
  obtain ⟨pair, d, code, hp, ht, -, rfl⟩ := gives_arithmetic.mp hg
  obtain ⟨hc, hl, hr⟩ := fine_widenPair hp hl hr
  refine ⟨fineCode_append.mpr ⟨hc, ?_⟩, trivial⟩
  unfold Template.arithmetic at ht
  split at ht <;> cases ht
  exact fineCode_quad (fine_dest_values hl hr)

theorem isFine_comparison {operator : Operator} {result : Emitted}
    (hg : (comparison operator left right).Gives c result c') (hl : left.Fine good)
    (hr : right.Fine good) : result.IsFine good := by
  obtain ⟨pair, d, code, hp, ht, -, rfl⟩ := gives_comparison.mp hg
  obtain ⟨hc, hl, hr⟩ := fine_widenPair hp hl hr
  exact ⟨fineCode_append.mpr ⟨hc, fineCode_relational ht hl hr⟩, trivial⟩

theorem isFine_castTo {type : NumType} {position : Position} {result : Emitted}
    (hg : (castTo type value position).Gives c result c') (hv : value.Fine good) :
    result.IsFine good := by
  obtain ⟨own, -, ⟨-, -, rfl⟩ | ⟨-, -, rfl⟩⟩ := gives_castTo.mp hg
  · exact ⟨fineCode_nil, hv⟩
  · exact ⟨fineCode_quad (fine_dest_value hv), trivial⟩

/-- The truth values are the only literals that do not come from the tree. -/
theorem fineCode_setTruth {value : String} (h : good ⟨value⟩) (dest : String) :
    FineCode good [Template.setTruth dest value] :=
  fineCode_quad (List.forall_mem_cons.mpr ⟨trivial, List.forall_mem_singleton.mpr h⟩)

theorem fineCode_logicalAnd {ws : List Word} (hw : FineWords good ws) {dest : String}
    (hl : left.Fine good) (hr : right.Fine good) :
    FineCode good (Template.logicalAnd dest left right) := by
  have hzero := fineCode_setTruth hw.zero dest
  have hone := fineCode_setTruth hw.one dest
  exact fineCode_append.mpr ⟨hzero, fineCode_append.mpr ⟨fineCode_jumpIfZero hl,
    fineCode_append.mpr ⟨fineCode_jumpIfZero hr, hone⟩⟩⟩

theorem fineCode_logicalOr {ws : List Word} (hw : FineWords good ws) {dest : String}
    (hl : left.Fine good) (hr : right.Fine good) :
    FineCode good (Template.logicalOr dest left right) := by
  have hzero := fineCode_setTruth hw.zero dest
  have hone := fineCode_setTruth hw.one dest
  exact fineCode_append.mpr ⟨hzero, fineCode_append.mpr ⟨fineCode_jumpIfZero hl,
    fineCode_append.mpr ⟨hone, fineCode_append.mpr ⟨fineCode_jumpIfZero hr, hone⟩⟩⟩⟩

theorem fineCode_assignment {target : Ident} {position : Position}
    (hg : (assignment target value position).Gives c code c') (hv : value.Fine good) :
    FineCode good code := by
  obtain ⟨symbol, own, wide, -, -, -, hw, rfl⟩ := gives_assignment.mp hg
  have hwide := isFine_widenTo hw hv
  exact fineCode_append.mpr ⟨hwide.code, fineCode_quad (fine_dest_value hwide.value)⟩

theorem fineCode_printing {position : Position} (hg : (printing value position).Gives c code c')
    (hv : value.Fine good) : FineCode good code := by
  obtain ⟨own, wide, -, hw, rfl⟩ := gives_printing.mp hg
  have hwide := isFine_widenTo hw hv
  exact fineCode_append.mpr
    ⟨hwide.code, fineCode_quad (List.forall_mem_singleton.mpr hwide.value)⟩

theorem fineCode_caseTest {label : Literal} {dest : String} {size : Nat} {position : Position}
    (hg : (caseTest value label dest size position).Gives c code c') (hv : value.Fine good)
    (hl : good label) : FineCode good code := by
  obtain ⟨pair, hp, rfl⟩ := gives_caseTest.mp hg
  obtain ⟨hc, hl, hr⟩ := fine_widenPair hp hv hl
  exact fineCode_append.mpr ⟨fineCode_append.mpr ⟨hc, fineCode_quad (fine_dest_values hl hr)⟩,
    fineCode_jumpIfZero trivial⟩

end

/-! ## Trees -/

theorem isFine_chain {operator : Operator} {c c' : Compilation} {r l joined : Emitted}
    (hr : r.IsFine good) (hl : l.IsFine good)
    (hg : (arithmetic operator l.value r.value).Gives c joined c') :
    Emitted.IsFine good ⟨r.code ++ l.code ++ joined.code, joined.value⟩ := by
  have hj := isFine_arithmetic hg hl.value hr.value
  exact ⟨fineCode_append.mpr ⟨fineCode_append.mpr ⟨hr.code, hl.code⟩, hj.code⟩, hj.value⟩

mutual

theorem Expression.isFine : ∀ (e : Expression) {c c' : Compilation} {result : Emitted},
    e.emit.Gives c result c' → FineWords good e.words → result.IsFine good
  | .term term, _, _, _, hg, hw => term.isFine (Expression.gives_term.mp hg) hw
  | .chain left operator right, _, _, _, hg, hw => by
    obtain ⟨r, c₁, l, c₂, joined, hr, hl, hj, rfl⟩ := Expression.gives_chain.mp hg
    simp only [Expression.words, fineWords_append] at hw
    exact isFine_chain (right.isFine hr hw.2) (left.isFine hl hw.1.1) hj

theorem Term.isFine : ∀ (t : Term) {c c' : Compilation} {result : Emitted},
    t.emit.Gives c result c' → FineWords good t.words → result.IsFine good
  | .factor factor, _, _, _, hg, hw => factor.isFine (Term.gives_factor.mp hg) hw
  | .chain left operator right, _, _, _, hg, hw => by
    obtain ⟨r, c₁, l, c₂, joined, hr, hl, hj, rfl⟩ := Term.gives_chain.mp hg
    simp only [Term.words, fineWords_append] at hw
    exact isFine_chain (right.isFine hr hw.2) (left.isFine hl hw.1.1) hj

theorem Factor.isFine : ∀ (f : Factor) {c c' : Compilation} {result : Emitted},
    f.emit.Gives c result c' → FineWords good f.words → result.IsFine good
  | .name ident, _, _, _, hg, _ => by
    obtain ⟨symbol, -, -, rfl⟩ := Factor.gives_name.mp hg
    exact ⟨fineCode_nil, trivial⟩
  | .literal l, _, _, _, hg, hw => by
    obtain ⟨-, rfl⟩ := Factor.gives_literal.mp hg
    exact ⟨fineCode_nil, hw.literal l (List.mem_singleton_self _)⟩
  | .parens inner span, _, _, _, hg, hw => by
    simp only [Factor.words, fineWords_append] at hw
    exact inner.isFine (Factor.gives_parens.mp hg) hw.1.2
  | .cast type inner span, _, _, _, hg, hw => by
    obtain ⟨e, c₁, last, he, hl, rfl⟩ := Factor.gives_cast.mp hg
    simp only [Factor.words, fineWords_append] at hw
    have he := inner.isFine he hw.1.2
    have hlast := isFine_castTo hl he.value
    exact ⟨fineCode_append.mpr ⟨he.code, hlast.code⟩, hlast.value⟩

end

mutual

theorem Condition.isFine : ∀ (b : Condition) {c c' : Compilation} {result : Emitted},
    b.emit.Gives c result c' → FineWords good b.words → result.IsFine good
  | .clause clause, _, _, _, hg, hw => clause.isFine (Condition.gives_clause.mp hg) hw
  | .or left right, _, _, _, hg, hw => by
    obtain ⟨r, c₁, l, c₂, hr, hl, -, rfl⟩ := Condition.gives_or.mp hg
    simp only [Condition.words, fineWords_append] at hw
    have hr := right.isFine hr hw.2
    have hl := left.isFine hl hw.1.1
    exact ⟨fineCode_append.mpr ⟨fineCode_append.mpr ⟨hr.code, hl.code⟩,
      fineCode_logicalOr hw.2 hl.value hr.value⟩, trivial⟩

theorem Clause.isFine : ∀ (b : Clause) {c c' : Compilation} {result : Emitted},
    b.emit.Gives c result c' → FineWords good b.words → result.IsFine good
  | .test test, _, _, _, hg, hw => test.isFine (Clause.gives_test.mp hg) hw
  | .and left right, _, _, _, hg, hw => by
    obtain ⟨r, c₁, l, c₂, hr, hl, -, rfl⟩ := Clause.gives_and.mp hg
    simp only [Clause.words, fineWords_append] at hw
    have hr := right.isFine hr hw.2
    have hl := left.isFine hl hw.1.1
    exact ⟨fineCode_append.mpr ⟨fineCode_append.mpr ⟨hr.code, hl.code⟩,
      fineCode_logicalAnd hw.2 hl.value hr.value⟩, trivial⟩

theorem Test.isFine : ∀ (b : Test) {c c' : Compilation} {result : Emitted},
    b.emit.Gives c result c' → FineWords good b.words → result.IsFine good
  | .compare left operator right, _, _, _, hg, hw => by
    obtain ⟨l, c₁, r, c₂, joined, hl, hr, hj, rfl⟩ := Test.gives_compare.mp hg
    simp only [Test.words, fineWords_append] at hw
    have hl := Expression.isFine left hl hw.1.1
    have hr := Expression.isFine right hr hw.2
    have hj := isFine_comparison hj hl.value hr.value
    exact ⟨fineCode_append.mpr ⟨fineCode_append.mpr ⟨hl.code, hr.code⟩, hj.code⟩, hj.value⟩
  | .not inner span, _, _, _, hg, hw => by
    obtain ⟨b, c₁, hb, -, rfl⟩ := Test.gives_not.mp hg
    simp only [Test.words, fineWords_append] at hw
    have hb := inner.isFine hb hw.1.2
    exact ⟨fineCode_append.mpr ⟨hb.code, fineCode_quad (fine_dest_values hb.value hw.2.zero)⟩,
      trivial⟩

end

mutual

theorem Statement.fineCode : ∀ (statement : Statement) {c c' : Compilation}
    {code : List Instruction}, statement.emit.Gives c code c' → FineWords good statement.words →
      FineCode good code
  | .assign target value span, _, _, _, hg, hw => by
    obtain ⟨v, c₁, rest, hv, hr, rfl⟩ := Statement.gives_assign.mp hg
    simp only [Statement.words, fineWords_append] at hw
    have hv := value.isFine hv hw.1.2
    exact fineCode_append.mpr ⟨hv.code, fineCode_assignment hr hv.value⟩
  | .input target span, _, _, _, hg, _ => by
    obtain ⟨symbol, -, -, rfl⟩ := Statement.gives_input.mp hg
    exact fineCode_quad (List.forall_mem_singleton.mpr trivial)
  | .output value span, _, _, _, hg, hw => by
    obtain ⟨v, c₁, rest, hv, hr, rfl⟩ := Statement.gives_output.mp hg
    simp only [Statement.words, fineWords_append] at hw
    have hv := value.isFine hv hw.1.1.2
    exact fineCode_append.mpr ⟨hv.code, fineCode_printing hr hv.value⟩
  | .ifThen condition body span, _, _, _, hg, hw => by
    obtain ⟨b, c₁, t, hb, ht, rfl⟩ := Statement.gives_ifThen.mp hg
    simp only [Statement.words, fineWords_append] at hw
    exact fineCode_guarded (condition.isFine hb hw.1.1.2) (body.fineCode ht hw.2)
  | .ifElse condition body other span, _, _, _, hg, hw => by
    obtain ⟨b, c₁, t, c₂, e, hb, ht, he, rfl⟩ := Statement.gives_ifElse.mp hg
    simp only [Statement.words, fineWords_append] at hw
    obtain ⟨⟨⟨⟨⟨-, hwb⟩, -⟩, hwt⟩, -⟩, hwe⟩ := hw
    refine fineCode_append.mpr ⟨fineCode_append.mpr ⟨?_, fineCode_jump⟩, other.fineCode he hwe⟩
    exact fineCode_guarded (condition.isFine hb hwb) (body.fineCode ht hwt)
  | .loop condition body span, _, _, _, hg, hw => by
    obtain ⟨t, c₁, b, ht, hb, rfl⟩ := Statement.gives_loop.mp hg
    simp only [Statement.words, fineWords_append] at hw
    refine FineCode.closeBreaks (fineCode_append.mpr ⟨?_, fineCode_jump⟩)
    exact fineCode_guarded (condition.isFine hb hw.1.1.2) (body.fineCode ht hw.2)
  | .switch selector cases ⟨body, bodySpan⟩ span, _, _, _, hg, hw => by
    obtain ⟨v, c₁, arms, c₂, d, hv, ha, hd, rfl⟩ := Statement.gives_switch.mp hg
    simp only [Statement.words, fineWords_append] at hw
    obtain ⟨⟨⟨⟨⟨⟨⟨⟨-, hwv⟩, -⟩, -⟩, hwa⟩, -⟩, -⟩, hwd⟩, -⟩ := hw
    have hv := selector.isFine hv hwv
    have harms := fineCode_append.mpr ⟨hv.code, fineCode_cases cases ha hv.value hwa⟩
    exact (fineCode_append.mpr
      ⟨harms, fineCode_statements body (Block.gives_iff.mp hd) hwd⟩).closeBreaks
  | .leave span, _, _, _, hg, _ => by
    obtain ⟨-, rfl⟩ := Statement.gives_leave.mp hg
    exact fineCode_cons.mpr ⟨List.forall_mem_nil _, fineCode_nil⟩
  | .block ⟨body, bodySpan⟩, _, _, _, hg, hw => by
    simp only [Statement.words, fineWords_append] at hw
    exact fineCode_statements body (Block.gives_iff.mp (Statement.gives_block.mp hg)) hw.1.2

theorem fineCode_statements : ∀ (body : List Statement) {c c' : Compilation}
    {code : List Instruction}, (emitStatements body).Gives c code c' →
      FineWords good (statementsWords body) → FineCode good code
  | [], _, _, _, hg, _ => by
    obtain ⟨-, rfl⟩ := gives_statements_nil.mp hg
    exact fineCode_nil
  | first :: rest, _, _, _, hg, hw => by
    obtain ⟨f, c₁, r, hf, hr, rfl⟩ := gives_statements_cons.mp hg
    simp only [statementsWords, fineWords_append] at hw
    exact fineCode_append.mpr ⟨first.fineCode hf hw.1, fineCode_statements rest hr hw.2⟩

theorem fineCode_cases : ∀ (cases : List Case) {selector : Operand} {c c' : Compilation}
    {code : List Instruction}, (emitCases selector cases).Gives c code c' →
      selector.Fine good → FineWords good (casesWords cases) → FineCode good code
  | [], _, _, _, _, hg, _, _ => by
    obtain ⟨-, rfl⟩ := gives_cases_nil.mp hg
    exact fineCode_nil
  | ⟨label, ⟨body, bodySpan⟩, span⟩ :: rest, _, _, _, _, hg, hs, hw => by
    obtain ⟨b, c₁, test, c₂, more, hb, ht, hm, rfl⟩ := gives_cases_cons.mp hg
    simp only [casesWords, fineWords_append] at hw
    obtain ⟨⟨⟨⟨-, hwl⟩, -⟩, hwb⟩, hwr⟩ := hw
    have htest := fineCode_caseTest ht hs (hwl.literal label (List.mem_singleton_self _))
    have hbody := fineCode_statements body (Block.gives_iff.mp hb) hwb
    exact fineCode_append.mpr
      ⟨fineCode_append.mpr ⟨htest, hbody⟩, fineCode_cases rest hm hs hwr⟩

end

end

/-! ## Programs -/

/-- The kinds of operands that a program with the given words can have. -/
inductive Operand.StemsFrom (ws : List Word) : Operand → Prop where
  | declared {name : String} : ⟨.identifier, name⟩ ∈ ws → StemsFrom ws (.name name)
  | temporary (n : Nat) : StemsFrom ws (.name (temporaryName n))
  | literal {l : Literal} : l.word ∈ ws → StemsFrom ws (.literal l)
  | zero : StemsFrom ws (.literal ⟨"0"⟩)
  | one : StemsFrom ws (.literal ⟨"1"⟩)
  | line (number : Nat) : StemsFrom ws (.jump (.line number))

/-- A well-typed instruction has no names but typed ones. -/
theorem Instruction.WellTyped.type? {s : Symbols} {i : Instruction} {slot : String}
    (h : i.WellTyped s) (ho : .name slot ∈ i.operands) : ∃ type, s.type? slot = some type := by
  cases h with
  | jump => cases List.mem_singleton.mp ho
  | halt => cases ho
  | _ => grind [operands, Instruction.jumpIfZero, Operand.hasType_name]

theorem word_mem_furtherWords {ident : Ident} {idents : List Ident} (h : ident ∈ idents) :
    ident.word ∈ furtherWords idents := by
  induction idents with
  | nil => cases h
  | cons first rest ih =>
    simp only [furtherWords, List.mem_append, List.mem_singleton]
    rcases List.mem_cons.mp h with rfl | h
    · exact .inl (.inr rfl)
    · exact .inr (ih h)

theorem Declaration.word_mem_words {d : Declaration} {ident : Ident} (h : ident ∈ d.names) :
    ident.word ∈ d.words := by
  obtain ⟨names, type, span⟩ := d
  simp only [Declaration.words, List.mem_append]
  refine .inl (.inl (.inl ?_))
  cases h with
  | head rest => exact List.mem_append_left _ (List.mem_singleton_self _)
  | tail first h => exact List.mem_append_right _ (word_mem_furtherWords h)

theorem Block.inside_eq (b : Block) : b.inside = statementsWords b.body := by
  cases b
  rw [Block.inside]

theorem declarationsWords_eq (declarations : List Declaration) :
    declarationsWords declarations = declarations.flatMap Declaration.words := by
  induction declarations with
  | nil => rfl
  | cons first rest ih => rw [declarationsWords, ih, List.flatMap_cons]

namespace Program

variable {p : Program} {code : List Instruction} {c : Compilation} {q : Listing}

/-- A declared name is among the words. -/
theorem Declares.word_mem {name : String} (h : p.Declares name) : ⟨.identifier, name⟩ ∈ p.words := by
  obtain ⟨entry, he, rfl⟩ := List.mem_map.mp h
  obtain ⟨d, hd, he⟩ := List.mem_flatMap.mp he
  obtain ⟨ident, hi, rfl⟩ := List.mem_map.mp he
  rw [words, declarationsWords_eq]
  exact List.mem_append_left _ (List.mem_flatMap.mpr ⟨d, hd, Declaration.word_mem_words hi⟩)

/-- The names with a type are the declared ones and those of the temporaries. -/
theorem declares_of_type? (h : p.emit.Gives .start code c) {slot : String} {type : NumType}
    (ht : c.symbols.type? slot = some type) : p.Declares slot ∨ ∃ n, slot = temporaryName n := by
  obtain ⟨c₁, body, hd, hb, -, -⟩ := gives_emit.mp h
  obtain ⟨symbol, hs, -⟩ := Option.map_eq_some_iff.mp ht
  cases hold : c₁.symbols.get? slot with
  | none => exact .inr ((p.body.extends_emit.of_gives hb).symbols.isTemporary hold hs).2
  | some old =>
    left
    rw [← isSome_scope, ← type?_of_declareAll hd, Symbols.type?_of_get? hold]
    rfl

/-- The literals of the code are those of the program and the truth values. -/
theorem fineCode_of_emit (h : p.emit.Gives .start code c) :
    FineCode (fun l => Operand.StemsFrom p.words (.literal l)) code := by
  obtain ⟨c₁, body, -, hb, -, rfl⟩ := gives_emit.mp h
  refine fineCode_append.mpr
    ⟨fineCode_statements _ (Block.gives_iff.mp hb) ⟨fun l hl => .literal ?_, .zero, .one⟩,
      fineCode_quad (List.forall_mem_nil _)⟩
  rw [← Block.inside_eq] at hl
  exact List.mem_append_right _ (List.mem_append_left _ (List.mem_append_right _ hl))

/-- A compiled instruction is an emitted one with its jump resolved. -/
theorem exists_emit_of_compile (hq : p.compile = .ok q) :
    ∃ code c, p.emit.Gives .start code c ∧
      ∀ i ∈ q.instructions, ∃ j ∈ code, ∃ line, i = j.settle line := by
  obtain ⟨code, c, h, hr, -⟩ := compile_eq_ok.mp hq
  obtain ⟨-, he⟩ := Instruction.resolveAll_eq_ok.mp hr
  refine ⟨code, c, h, fun i hi => ?_⟩
  obtain ⟨k, j, hj, rfl⟩ := Instruction.mem_settleFrom (he ▸ hi)
  exact ⟨j, List.mem_of_getElem? hj, _, rfl⟩

theorem exists_wellTyped_of_compile (hq : p.compile = .ok q) :
    ∃ s : Symbols, ∀ i ∈ q.instructions, i.WellTyped s := by
  obtain ⟨code, c, h, hi⟩ := exists_emit_of_compile hq
  refine ⟨c.symbols, fun i hmem => ?_⟩
  obtain ⟨j, hj, line, rfl⟩ := hi i hmem
  exact (typed_of_emit h j hj (openBreak?_of_emit h j hj)).settle line

/-- All operands of a compiled program have their origin in its words. -/
theorem stemsFrom_of_compile (hq : p.compile = .ok q) :
    ∀ i ∈ q.instructions, ∀ o ∈ i.operands, o.StemsFrom p.words := by
  obtain ⟨code, c, h, hi⟩ := exists_emit_of_compile hq
  intro i hmem o ho
  obtain ⟨j, hj, line, rfl⟩ := hi i hmem
  have htyped := typed_of_emit h j hj (openBreak?_of_emit h j hj)
  cases o with
  | name slot =>
    obtain ⟨type, ht⟩ := (htyped.settle line).type? ho
    rcases declares_of_type? h ht with hd | ⟨n, rfl⟩
    · exact .declared hd.word_mem
    · exact .temporary n
  | literal l =>
    rw [Instruction.operands_settle] at ho
    obtain ⟨before, hb, heq⟩ := List.mem_map.mp ho
    -- only jumps are changed when they are resolved
    cases before with
    | name slot => cases heq
    | literal l' =>
      cases heq
      exact fineCode_of_emit h j hj _ hb
    | jump t => cases heq
  | jump t =>
    obtain ⟨number, rfl, -⟩ := (closed_of_compile hq).target _ hmem t ho
    exact .line number

end Program

end Cpl
