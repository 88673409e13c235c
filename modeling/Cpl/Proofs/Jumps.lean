import Cpl.Proofs.Typed

/-!
# Jumps stay inside

Control leaves the code of a statement only at its end: jumps lead to an instruction of that code or to
just past it, and there is no halt in it (`Contained`). This is proved by induction on the tree, with the
code of each part moved to its place in the code around it. A break is no jump yet; when the loop or
switch around it closes, it becomes one to just past that code.

So all jumps of a whole program can be resolved, and lead to one of its lines
(`jumps_lead_inside`).
-/

namespace Cpl

open Emit Instruction

/-! ## Contained code -/

/-- From index `i` of code of the given size, the target leads into the code or to just past it. -/
def Target.Inside (i size : Nat) : Target → Prop
  | .forward offset => 1 ≤ offset ∧ i + offset ≤ size
  | .backward offset => 1 ≤ offset ∧ offset ≤ i
  | .line _ => False

/-- The target of a jump or conditional jump. -/
def Instruction.target? : Instruction → Option Target
  | quad .jump [.jump target] => some target
  | quad .jumpIfZero [.jump target, _] => some target
  | _ => none

/-- At index `i` of code of the given size, the instruction does not leave the code but to just past
it. -/
structure Instruction.Inside (size i : Nat) (x : Instruction) : Prop where
  target {t : Target} : x.target? = some t → t.Inside i size
  opcode : x.opcode? ≠ some .halt

/-- Control leaves the code only at its end. -/
def Contained (code : List Instruction) : Prop :=
  AllFrom (Instruction.Inside code.length) 0 code

section

variable {i size : Nat} {code rest : List Instruction}

theorem inside_jump {target : Target} :
    (jump target).Inside size i ↔ target.Inside i size :=
  ⟨fun h => h.target rfl, fun h => ⟨fun ht => by cases ht; exact h, fun ho => by cases ho⟩⟩

theorem inside_jumpIfZero {target : Target} {condition : Operand} :
    (jumpIfZero target condition).Inside size i ↔ target.Inside i size :=
  ⟨fun h => h.target rfl, fun h => ⟨fun ht => by cases ht; exact h, fun ho => by cases ho⟩⟩

/-- Moved down into longer code, a target leads to the same instruction as before. -/
theorem Target.Inside.shift {t : Target} (h : t.Inside i size) {before size' : Nat}
    (hs : before + size ≤ size') : t.Inside (before + i) size' := by
  cases t with
  | line number => exact h
  | forward offset =>
    obtain ⟨h₁, h₂⟩ := h
    exact ⟨h₁, by omega⟩
  | backward offset =>
    obtain ⟨h₁, h₂⟩ := h
    exact ⟨h₁, by omega⟩

/-- Contained code at its place in longer code. -/
theorem Contained.allFrom (h : Contained code) (hs : i + code.length ≤ size) :
    AllFrom (Instruction.Inside size) i code :=
  AllFrom.shift h i fun _ _ hx => ⟨fun ht => (hx.target ht).shift hs, hx.opcode⟩

theorem contained_nil : Contained [] := trivial

/-- Code after code: what leads past the first leads to the second. -/
theorem Contained.append (h : Contained code) (h' : Contained rest) : Contained (code ++ rest) := by
  rw [Contained, allFrom_append, List.length_append]
  exact ⟨h.allFrom (by omega), h'.allFrom (by omega)⟩

theorem inside_of_target? {x : Instruction} (ht : x.target? = none) (ho : x.opcode? ≠ some .halt) :
    x.Inside size i :=
  ⟨fun h => (nomatch ht.symm.trans h), ho⟩

theorem contained_singleton {x : Instruction} (ht : x.target? = none)
    (ho : x.opcode? ≠ some .halt) : Contained [x] :=
  ⟨inside_of_target? ht ho, trivial⟩

theorem allFrom_closeBreaksFrom (h : AllFrom (Instruction.Inside size) i code)
    (hs : i + code.length = size) :
    AllFrom (Instruction.Inside size) i (closeBreaksFrom code.length code) := by
  induction code generalizing i with
  | nil => trivial
  | cons x code ih =>
    obtain ⟨hx, hcode⟩ := h
    rw [List.length_cons] at hs ⊢
    have hrest := ih hcode (by omega)
    cases x with
    | quad opcode operands => exact ⟨hx, hrest⟩
    | openBreak position =>
      -- the offset counts the break itself and all that comes after it
      exact ⟨inside_jump.mpr ⟨by omega, by omega⟩, hrest⟩

/-- Breaks that are closed lead to just past the code. -/
theorem Contained.closeBreaks (h : Contained code) : Contained (closeBreaks code) := by
  rw [Contained, length_closeBreaks]
  exact allFrom_closeBreaksFrom h (by omega)

/-! ## Operations -/

variable {c c' : Compilation} {result : Emitted}

theorem contained_widenTo {common own : NumType} {value : Operand}
    (hg : (widenTo common own value).Gives c result c') : Contained result.code := by
  rcases gives_widenTo.mp hg with ⟨-, rfl, -⟩ | ⟨-, -, rfl⟩
  · exact contained_nil
  · exact contained_singleton rfl (by simp [Template.convert, opcode?])

theorem contained_widenPair {left right : Operand} {position : Position} {pair : Pair}
    (hg : (widenPair left right position).Gives c pair c') : Contained pair.code := by
  obtain ⟨lt, rt, l, d, r, -, -, hl, hr, rfl⟩ := gives_widenPair.mp hg
  exact (contained_widenTo hl).append (contained_widenTo hr)

/-- The jumps of a comparison lead to its second test or over it, to just past the template. -/
theorem contained_relational {symbol dest : String} {type : NumType} {left right : Operand}
    (h : Template.relational symbol type dest left right = .ok code) : Contained code := by
  unfold Template.relational at h
  split at h <;> cases h
  · exact contained_singleton rfl (by simp [opcode?])
  · refine ⟨inside_of_target? rfl ?_, inside_jumpIfZero.mpr ?_, inside_jump.mpr ?_,
      inside_of_target? rfl ?_, trivial⟩
    all_goals simp [opcode?, Target.Inside]

theorem contained_arithmetic {operator : Operator} {left right : Operand}
    (hg : (arithmetic operator left right).Gives c result c') : Contained result.code := by
  obtain ⟨pair, d, code, hp, ht, -, rfl⟩ := gives_arithmetic.mp hg
  refine (contained_widenPair hp).append ?_
  unfold Template.arithmetic at ht
  split at ht <;> cases ht
  exact contained_singleton rfl (by simp [opcode?])

theorem contained_comparison {operator : Operator} {left right : Operand}
    (hg : (comparison operator left right).Gives c result c') : Contained result.code := by
  obtain ⟨pair, d, code, hp, ht, -, rfl⟩ := gives_comparison.mp hg
  exact (contained_widenPair hp).append (contained_relational ht)

theorem contained_castTo {type : NumType} {value : Operand} {position : Position}
    (hg : (castTo type value position).Gives c result c') : Contained result.code := by
  obtain ⟨own, -, ⟨-, -, rfl⟩ | ⟨-, -, rfl⟩⟩ := gives_castTo.mp hg
  · exact contained_nil
  · exact contained_singleton rfl (by simp [Template.convert, opcode?])

/-- Both tests lead to just past the template. -/
theorem contained_logicalAnd (dest : String) (left right : Operand) :
    Contained (Template.logicalAnd dest left right) := by
  refine ⟨inside_of_target? rfl ?_, inside_jumpIfZero.mpr ?_, inside_jumpIfZero.mpr ?_,
    inside_of_target? rfl ?_, trivial⟩
  all_goals simp [Template.setTruth, Template.logicalAnd, opcode?, Target.Inside]

/-- The last test leads to just past the template. -/
theorem contained_logicalOr (dest : String) (left right : Operand) :
    Contained (Template.logicalOr dest left right) := by
  refine ⟨inside_of_target? rfl ?_, inside_jumpIfZero.mpr ?_, inside_of_target? rfl ?_,
    inside_jumpIfZero.mpr ?_, inside_of_target? rfl ?_, trivial⟩
  all_goals simp [Template.setTruth, Template.logicalOr, opcode?, Target.Inside]

end

/-! ## Expressions and conditions -/

mutual

/-- Expressions have no jumps at all. -/
theorem Expression.contained : ∀ (e : Expression) {c c' : Compilation} {result : Emitted},
    e.emit.Gives c result c' → Contained result.code
  | .term term, _, _, _, hg => term.contained (Expression.gives_term.mp hg)
  | .chain left operator right, _, _, _, hg => by
    obtain ⟨r, c₁, l, c₂, joined, hr, hl, hj, rfl⟩ := Expression.gives_chain.mp hg
    exact ((right.contained hr).append (left.contained hl)).append (contained_arithmetic hj)

theorem Term.contained : ∀ (t : Term) {c c' : Compilation} {result : Emitted},
    t.emit.Gives c result c' → Contained result.code
  | .factor factor, _, _, _, hg => factor.contained (Term.gives_factor.mp hg)
  | .chain left operator right, _, _, _, hg => by
    obtain ⟨r, c₁, l, c₂, joined, hr, hl, hj, rfl⟩ := Term.gives_chain.mp hg
    exact ((right.contained hr).append (left.contained hl)).append (contained_arithmetic hj)

theorem Factor.contained : ∀ (f : Factor) {c c' : Compilation} {result : Emitted},
    f.emit.Gives c result c' → Contained result.code
  | .name ident, _, _, _, hg => by
    obtain ⟨symbol, -, -, rfl⟩ := Factor.gives_name.mp hg
    exact contained_nil
  | .literal l, _, _, _, hg => by
    obtain ⟨-, rfl⟩ := Factor.gives_literal.mp hg
    exact contained_nil
  | .parens inner span, _, _, _, hg => inner.contained (Factor.gives_parens.mp hg)
  | .cast type inner span, _, _, _, hg => by
    obtain ⟨e, c₁, last, he, hl, rfl⟩ := Factor.gives_cast.mp hg
    exact (inner.contained he).append (contained_castTo hl)

end

mutual

/-- All jumps of a condition are within the template of one operator. -/
theorem Condition.contained : ∀ (b : Condition) {c c' : Compilation} {result : Emitted},
    b.emit.Gives c result c' → Contained result.code
  | .clause clause, _, _, _, hg => clause.contained (Condition.gives_clause.mp hg)
  | .or left right, _, _, _, hg => by
    obtain ⟨r, c₁, l, c₂, hr, hl, -, rfl⟩ := Condition.gives_or.mp hg
    exact ((right.contained hr).append (left.contained hl)).append (contained_logicalOr ..)

theorem Clause.contained : ∀ (b : Clause) {c c' : Compilation} {result : Emitted},
    b.emit.Gives c result c' → Contained result.code
  | .test test, _, _, _, hg => test.contained (Clause.gives_test.mp hg)
  | .and left right, _, _, _, hg => by
    obtain ⟨r, c₁, l, c₂, hr, hl, -, rfl⟩ := Clause.gives_and.mp hg
    exact ((right.contained hr).append (left.contained hl)).append (contained_logicalAnd ..)

theorem Test.contained : ∀ (b : Test) {c c' : Compilation} {result : Emitted},
    b.emit.Gives c result c' → Contained result.code
  | .compare left operator right, _, _, _, hg => by
    obtain ⟨l, c₁, r, c₂, joined, hl, hr, hj, rfl⟩ := Test.gives_compare.mp hg
    exact ((left.contained hl).append (right.contained hr)).append (contained_comparison hj)
  | .not inner span, _, _, _, hg => by
    obtain ⟨b, c₁, hb, -, rfl⟩ := Test.gives_not.mp hg
    refine (inner.contained hb).append (contained_singleton rfl ?_)
    simp [Template.logicalNot, opcode?]

end

/-! ## Statements -/

mutual

/-- The jumps of a statement lead over one of its parts, or back to its first instruction. -/
theorem Statement.contained : ∀ (statement : Statement) {c c' : Compilation}
    {code : List Instruction}, statement.emit.Gives c code c' → Contained code
  | .assign target value span, _, _, _, hg => by
    obtain ⟨v, c₁, rest, hv, hr, rfl⟩ := Statement.gives_assign.mp hg
    obtain ⟨symbol, own, wide, -, -, -, hw, rfl⟩ := gives_assignment.mp hr
    refine (value.contained hv).append ((contained_widenTo hw).append (contained_singleton rfl ?_))
    simp [Template.assign, opcode?]
  | .input target span, _, _, _, hg => by
    obtain ⟨symbol, -, -, rfl⟩ := Statement.gives_input.mp hg
    exact contained_singleton rfl (by simp [Template.input, opcode?])
  | .output value span, _, _, _, hg => by
    obtain ⟨v, c₁, rest, hv, hr, rfl⟩ := Statement.gives_output.mp hg
    obtain ⟨own, wide, -, hw, rfl⟩ := gives_printing.mp hr
    refine (value.contained hv).append ((contained_widenTo hw).append (contained_singleton rfl ?_))
    simp [Template.print, opcode?]
  | .ifThen condition body span, _, _, _, hg => by
    obtain ⟨b, c₁, t, hb, ht, rfl⟩ := Statement.gives_ifThen.mp hg
    have hb := condition.contained hb
    have ht := body.contained ht
    simp only [Contained, allFrom_append, List.length_append, List.length_singleton]
    exact ⟨⟨hb.allFrom (by omega), inside_jumpIfZero.mpr ⟨by omega, by omega⟩, trivial⟩,
      ht.allFrom (by omega)⟩
  | .ifElse condition body other span, _, _, _, hg => by
    obtain ⟨b, c₁, t, c₂, e, hb, ht, he, rfl⟩ := Statement.gives_ifElse.mp hg
    have hb := condition.contained hb
    have ht := body.contained ht
    have he := other.contained he
    simp only [Contained, allFrom_append, List.length_append, List.length_singleton]
    exact ⟨⟨⟨⟨hb.allFrom (by omega), inside_jumpIfZero.mpr ⟨by omega, by omega⟩, trivial⟩,
      ht.allFrom (by omega)⟩, inside_jump.mpr ⟨by omega, by omega⟩, trivial⟩,
      he.allFrom (by omega)⟩
  | .loop condition body span, _, _, _, hg => by
    obtain ⟨t, c₁, b, ht, hb, rfl⟩ := Statement.gives_loop.mp hg
    have hb := condition.contained hb
    have ht := body.contained ht
    -- the jump back leads to the first instruction
    refine Contained.closeBreaks ?_
    simp only [Contained, loopCode, allFrom_append, List.length_append, List.length_singleton]
    exact ⟨⟨⟨hb.allFrom (by omega), inside_jumpIfZero.mpr ⟨by omega, by omega⟩, trivial⟩,
      ht.allFrom (by omega)⟩, inside_jump.mpr ⟨by omega, by omega⟩, trivial⟩
  | .switch selector cases ⟨body, bodySpan⟩ span, _, _, _, hg => by
    obtain ⟨v, c₁, arms, c₂, d, hv, ha, hd, rfl⟩ := Statement.gives_switch.mp hg
    have hd := contained_statements body (Block.gives_iff.mp hd)
    exact (((selector.contained hv).append (contained_cases cases ha)).append hd).closeBreaks
  | .leave span, _, _, _, hg => by
    obtain ⟨-, rfl⟩ := Statement.gives_leave.mp hg
    exact contained_singleton rfl (by simp [opcode?])
  | .block ⟨body, bodySpan⟩, _, _, _, hg =>
    contained_statements body (Block.gives_iff.mp (Statement.gives_block.mp hg))

theorem contained_statements : ∀ (body : List Statement) {c c' : Compilation}
    {code : List Instruction}, (emitStatements body).Gives c code c' → Contained code
  | [], _, _, _, hg => by
    obtain ⟨-, rfl⟩ := gives_statements_nil.mp hg
    exact contained_nil
  | first :: rest, _, _, _, hg => by
    obtain ⟨f, c₁, r, hf, hr, rfl⟩ := gives_statements_cons.mp hg
    exact (first.contained hf).append (contained_statements rest hr)

/-- After a case comes the next one. -/
theorem contained_cases : ∀ (cases : List Case) {selector : Operand} {c c' : Compilation}
    {code : List Instruction}, (emitCases selector cases).Gives c code c' → Contained code
  | [], _, _, _, _, hg => by
    obtain ⟨-, rfl⟩ := gives_cases_nil.mp hg
    exact contained_nil
  | ⟨label, ⟨body, bodySpan⟩, span⟩ :: rest, _, c, _, _, hg => by
    obtain ⟨b, c₁, test, c₂, more, hb, ht, hm, rfl⟩ := gives_cases_cons.mp hg
    obtain ⟨pair, hp, rfl⟩ := gives_caseTest.mp ht
    have hb := contained_statements body (Block.gives_iff.mp hb)
    have htest : Contained (pair.code ++
        [.quad (.compare .equal pair.type) [.name c.symbols.fresh, pair.left, pair.right]]) :=
      (contained_widenPair hp).append (contained_singleton rfl (by simp [opcode?]))
    -- after a label that does not match comes the next one, just past the body
    refine Contained.append ?_ (contained_cases rest hm)
    rw [Contained, allFrom_append, allFrom_append]
    refine ⟨⟨htest.allFrom ?_, inside_jumpIfZero.mpr ?_, trivial⟩, hb.allFrom ?_⟩
    all_goals
      simp only [List.length_append, List.length_singleton, Target.Inside]
      omega

end

/-! ## Operands -/

/-- Every jump among the operands of the code leads into the code or to just past it. -/
def JumpsInside (code : List Instruction) : Prop :=
  ∀ (i : Nat) (x : Instruction) (target : Target), code[i]? = some x →
    .jump target ∈ x.operands → target.Inside i code.length

theorem Operand.not_hasType_jump (s : Symbols) (target : Target) (type : NumType) :
    ¬ (Operand.jump target).HasType s type :=
  nofun

/-- A well-typed instruction has a jump as operand only if it is a jump itself. -/
theorem Instruction.WellTyped.target? {s : Symbols} {x : Instruction} {target : Target}
    (h : x.WellTyped s) (ht : .jump target ∈ x.operands) : x.target? = some target := by
  cases h with
  | jump =>
    cases List.mem_singleton.mp ht
    rfl
  | jumpIfZero hc =>
    rcases List.mem_pair.mp ht with ht | ht <;> cases ht
    rfl
  | halt => cases ht
  | input hd => cases List.mem_singleton.mp ht
  | _ => grind [operands, Operand.not_hasType_jump]

theorem Contained.jumpsInside {s : Symbols} {code : List Instruction} (h : Contained code)
    (hs : Typed s code) : JumpsInside code := by
  intro i x target hx ht
  cases x with
  | openBreak position => cases ht
  | quad opcode operands =>
    -- types are needed here: an operand that is a value could otherwise be a target
    have hx' := (allFrom_iff.mp h i _ hx).target ((hs _ (List.mem_of_getElem? hx) rfl).target? ht)
    rwa [Nat.zero_add] at hx'

theorem Statement.jumpsInside {statement : Statement} {c c' : Compilation}
    {code : List Instruction} (h : statement.emit.Gives c code c') : JumpsInside code :=
  (statement.contained h).jumpsInside (statement.typed h)

theorem Block.jumpsInside {block : Block} {c c' : Compilation} {code : List Instruction}
    (h : block.emit.Gives c code c') : JumpsInside code :=
  (contained_statements _ (Block.gives_iff.mp h)).jumpsInside
    (typed_statements _ (Block.gives_iff.mp h))

/-! ## Programs -/

/-- From index `i`, which is on the line after, such a target leads to a line of the code or to the
line after it. -/
theorem Target.Inside.lands {t : Target} {i size : Nat} (h : t.Inside i size) (hi : i < size) :
    ∃ number, t.lands (1 + i) = some number ∧ 1 ≤ number ∧ number ≤ size + 1 := by
  cases t with
  | line number => cases h
  | forward offset =>
    obtain ⟨h₁, h₂⟩ := h
    exact ⟨1 + i + offset, rfl, by omega, by omega⟩
  | backward offset =>
    obtain ⟨h₁, h₂⟩ := h
    exact ⟨1 + i - offset, if_pos (by omega), by omega, by omega⟩

/-- The jumps of a finished program lead to its lines, and it ends with its only halt. -/
structure Listing.Closed (q : Listing) : Prop where
  openBreak? : ∀ i ∈ q.instructions, i.openBreak? = none
  target : ∀ i ∈ q.instructions, ∀ t, Operand.jump t ∈ i.operands →
    ∃ number, t = .line number ∧ 1 ≤ number ∧ number ≤ q.size
  halt : ∃ body, q.instructions = body ++ [.halt] ∧ ∀ i ∈ body, i.opcode? ≠ some .halt

namespace Program

variable {p : Program} {code : List Instruction} {c : Compilation}

/-- The line after the body is that of the halt, so that a jump past the body still leads to a line.
-/
theorem lands_of_emit (h : p.emit.Gives .start code c) {i : Nat} {x : Instruction} {t : Target}
    (hx : code[i]? = some x) (ht : .jump t ∈ x.operands) :
    ∃ number, t.lands (1 + i) = some number ∧ 1 ≤ number ∧ number ≤ code.length := by
  obtain ⟨c₁, body, -, hb, -, rfl⟩ := gives_emit.mp h
  rw [List.length_append, List.length_singleton]
  rw [List.getElem?_append] at hx
  -- the instruction is in the body, or it is the halt, which does not jump
  split at hx
  · exact (Block.jumpsInside hb i x t hx ht).lands (by assumption)
  · obtain rfl := List.mem_singleton.mp (List.mem_of_getElem? hx)
    cases ht

/-- So no target is left that cannot be resolved. -/
theorem resolveAll_of_emit (h : p.emit.Gives .start code c) :
    resolveAll code = .ok (settleFrom 1 code) := by
  refine resolveAll_eq_ok.mpr ⟨allFrom_iff.mpr fun i x hx o ho => ?_, rfl⟩
  cases o with
  | name slot => trivial
  | literal l => trivial
  | jump t =>
    obtain ⟨number, hn, -⟩ := lands_of_emit h hx ho
    exact Option.isSome_of_eq_some hn

/-- The resolved jumps lead to lines of the program. -/
theorem closed_of_compile {q : Listing} (hq : p.compile = .ok q) : q.Closed := by
  obtain ⟨code, c, h, hr, -⟩ := compile_eq_ok.mp hq
  obtain ⟨-, he⟩ := resolveAll_eq_ok.mp hr
  constructor
  · rw [he]
    intro i hi
    obtain ⟨k, j, hj, rfl⟩ := mem_settleFrom hi
    rw [openBreak?_settle]
    exact openBreak?_of_emit h j (List.mem_of_getElem? hj)
  · rw [Listing.size, he, length_settleFrom]
    intro i hi t ht
    obtain ⟨k, j, hj, rfl⟩ := mem_settleFrom hi
    rw [operands_settle] at ht
    obtain ⟨o, ho, hot⟩ := List.mem_map.mp ht
    cases o with
    | name slot => cases hot
    | literal l => cases hot
    | jump t' =>
      cases hot
      obtain ⟨number, hn, hbounds⟩ := lands_of_emit h hj ho
      refine ⟨number, ?_, hbounds⟩
      rw [Target.settle, hn]
      rfl
  · obtain ⟨c₁, body, -, hb, -, rfl⟩ := gives_emit.mp h
    refine ⟨settleFrom 1 body, ?_, ?_⟩
    · rw [he, settleFrom_append]
      rfl
    · intro i hi
      obtain ⟨k, j, hj, rfl⟩ := mem_settleFrom hi
      rw [opcode?_settle]
      have hbody := contained_statements _ (Block.gives_iff.mp hb)
      exact (allFrom_iff.mp hbody k j hj).opcode

theorem failsOnTree_declareNames (type : NumType) (idents : List Ident) :
    (declareNames type idents).FailsOnTree := by
  induction idents with
  | nil => exact failsOnTree_pure _
  | cons first rest ih =>
    refine FailsOnTree.bind (FailsOnTree.bind ⟨fun he => by cases he⟩ fun c => ?_) fun _ => ih
    refine (failsOnTree_located _ fun problem he => ?_).bind fun _ => ⟨fun he => by cases he⟩
    unfold Symbols.declare at he
    split at he <;> cases he
    rfl

theorem failsOnTree_declareAll (declarations : List Declaration) :
    (declareAll declarations).FailsOnTree := by
  induction declarations with
  | nil => exact failsOnTree_pure _
  | cons first rest ih => exact (failsOnTree_declareNames ..).bind fun _ => ih

/-- A program that is not emitted has a problem in its tree. -/
theorem failsOnTree_emit (p : Program) : p.emit.FailsOnTree := by
  refine (failsOnTree_declareAll _).bind fun _ => p.body.extends_emit.toFailsOnTree.bind fun code => ?_
  split
  · exact failsOnTree_throw rfl
  · exact failsOnTree_pure _

/-- Since all jumps can be resolved, only what is wrong in the tree makes compiling fail. -/
theorem ofTree_of_compile {error : Diagnostic} (h : p.compile = .error error) :
    error.problem.ofTree = true := by
  unfold compile at h
  split at h <;> rename_i he
  · cases h
    exact p.failsOnTree_emit.problem he
  · rw [resolveAll_of_emit he] at h
    cases h

end Program

/-- Every jump in the code of a statement or block leads into that code or to just past it, whatever
was compiled before. So no program fails to compile because of a jump, and when it compiles, no break is
open, every jump leads to a line of the program, and the only halt is the last line. -/
theorem jumps_lead_inside :
    (∀ (statement : Statement) (c : Compilation) (code : List Instruction) (c' : Compilation),
      statement.emit.Gives c code c' → JumpsInside code) ∧
    (∀ (block : Block) (c : Compilation) (code : List Instruction) (c' : Compilation),
      block.emit.Gives c code c' → JumpsInside code) ∧
    ∀ p : Program,
      (∀ position line offset, p.compile ≠ .error ⟨.jumpBeforeFirstLine line offset, position⟩) ∧
      ∀ q, p.compile = .ok q → q.Closed := by
  refine ⟨fun _ _ _ _ => Statement.jumpsInside, fun _ _ _ _ => Block.jumpsInside, fun p => ?_⟩
  refine ⟨fun position line offset h => ?_, fun q => Program.closed_of_compile⟩
  cases Program.ofTree_of_compile h

/-- The block `{ while (1 == 1) { if (1 == 1) break; } }`. -/
def leaving : Block :=
  let span : Span := ⟨⟨0, "leaving.ou"⟩, ⟨0, "leaving.ou"⟩⟩
  let one : Expression := .term (.factor (.literal ⟨"1"⟩))
  let always : Condition := .clause (.test (.compare one ⟨"==", span.start⟩ one))
  ⟨[.loop always (.block ⟨[.ifThen always (.leave span) span], span⟩) span], span⟩

theorem leaving_jumps_lead_inside :
    (∃ code c, (Statement.block leaving).emit.Gives .start code c ∧ JumpsInside code) ∧
    (∃ code c, leaving.emit.Gives .start code c ∧ JumpsInside code) ∧
    ∃ q, Program.compile ⟨[], leaving⟩ = .ok q ∧ q.Closed := by
  obtain ⟨ofStatement, ofBlock, ofProgram⟩ := jumps_lead_inside
  refine ⟨?_, ?_, ?_⟩
  · obtain ⟨code, c, h⟩ : ∃ code c, (Statement.block leaving).emit.Gives .start code c :=
      ⟨_, _, rfl⟩
    exact ⟨code, c, h, ofStatement _ _ _ _ h⟩
  · obtain ⟨code, c, h⟩ : ∃ code c, leaving.emit.Gives .start code c := ⟨_, _, rfl⟩
    exact ⟨code, c, h, ofBlock _ _ _ _ h⟩
  · obtain ⟨q, hq⟩ : ∃ q, Program.compile ⟨[], leaving⟩ = .ok q := ⟨_, rfl⟩
    exact ⟨q, hq, (ofProgram _).2 q hq⟩

end Cpl
