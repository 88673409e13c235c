import Cpl.Proofs.Emission
import Cpl.Proofs.Machine

/-!
# Code in its place

`Placed code exit n part` says that the instructions of `part` stand in the program `code` from line `n`
on. A break that is open in `part` has become a jump to the line `exit`. Closing the breaks of a part
means that they lead just past it (`Placed.of_closeBreaks`).

`Stands code exit n next emission c c'` says the same of whatever an emission gives on `c`, with `next`
the line after it. For each form of statement a lemma (`Stands.ifThen` and so on) says where its parts
stand and which jumps lead from one to the other.
-/

namespace Cpl.Machine

open Emit Instruction

/-- The line holds a jump to the other line. -/
def Goes (code : List Instruction) (line line' : Nat) : Prop :=
  ∃ target, fetch code line = some (.jump target) ∧ target.lands line = some line'

theorem Goes.step_eq {A : Arithmetic} {code : List Instruction} {line line' : Nat}
    (h : Goes code line line') (w : World A) : step code ⟨line, w⟩ = some ⟨line', w⟩ := by
  obtain ⟨target, hf, hl⟩ := h
  exact step_jump hf rfl hl

/-- The instructions stand from line `n` on, with the open breaks made jumps to `exit`. -/
def Placed (code : List Instruction) (exit : Nat) : Nat → List Instruction → Prop
  | _, [] => True
  | n, .openBreak _ :: rest => Goes code n exit ∧ Placed code exit (n + 1) rest
  | n, .quad opcode operands :: rest =>
    fetch code n = some (.quad opcode operands) ∧ Placed code exit (n + 1) rest

variable {code part rest : List Instruction} {exit n : Nat}

@[simp] theorem placed_nil : Placed code exit n [] := trivial

@[simp] theorem placed_quad {opcode : Opcode} {operands : List Operand} :
    Placed code exit n (.quad opcode operands :: rest) ↔
      fetch code n = some (.quad opcode operands) ∧ Placed code exit (n + 1) rest := Iff.rfl

/-- The second part stands just after the first. -/
theorem placed_append :
    Placed code exit n (part ++ rest) ↔
      Placed code exit n part ∧ Placed code exit (n + part.length) rest := by
  induction part generalizing n with
  | nil => simp
  | cons i part ih =>
    have e : n + (i :: part).length = n + 1 + part.length := by
      rw [List.length_cons]
      omega
    rw [e, List.cons_append]
    cases i with
    | quad opcode operands => simp only [Placed, ih, and_assoc]
    | openBreak position => simp only [Placed, ih, and_assoc]

/-- Lines are counted from one. -/
theorem Placed.pos (h : Placed code exit n part) (hp : part ≠ []) : 0 < n := by
  rcases part with _ | ⟨i, part⟩
  · exact absurd rfl hp
  · refine Nat.pos_of_ne_zero ?_
    rintro rfl
    cases i with
    | quad opcode operands => cases h.1
    | openBreak position =>
      obtain ⟨⟨target, hf, -⟩, -⟩ := h
      cases hf

theorem Placed.of_closeBreaksFrom
    (h : Placed code exit n (closeBreaksFrom part.length part)) :
    Placed code (n + part.length) n part := by
  induction part generalizing n with
  | nil => trivial
  | cons i part ih =>
    have e : n + (i :: part).length = n + 1 + part.length := by
      rw [List.length_cons]
      omega
    cases i with
    | quad opcode operands =>
      obtain ⟨hf, hr⟩ := h
      exact ⟨hf, e ▸ ih hr⟩
    | openBreak position =>
      obtain ⟨hf, hr⟩ := h
      exact ⟨⟨_, hf, rfl⟩, e ▸ ih hr⟩

/-- Breaks that were closed lead just past the code. -/
theorem Placed.of_closeBreaks (h : Placed code exit n (closeBreaks part)) :
    Placed code (n + part.length) n part := h.of_closeBreaksFrom

theorem fetch_append_length (before : List Instruction) (i : Instruction)
    (after : List Instruction) : fetch (before ++ i :: after) (before.length + 1) = some i := by
  simp [fetch]

/-- Code without open breaks stands where it is, whatever comes before and after it. -/
theorem placed_of_findSome?_eq_none (before after : List Instruction) (exit : Nat)
    (h : part.findSome? openBreak? = none) :
    Placed (before ++ part ++ after) exit (before.length + 1) part := by
  induction part generalizing before with
  | nil => trivial
  | cons i part ih =>
    have hr := ih (before ++ [i]) (by
      rw [List.findSome?_eq_none_iff] at h ⊢
      exact fun j hj => h j (List.mem_cons_of_mem _ hj))
    simp only [List.append_assoc, List.singleton_append, List.length_append,
      List.length_singleton] at hr
    cases i with
    | openBreak position => simp [openBreak?] at h
    | quad opcode operands =>
      refine ⟨?_, ?_⟩
      · rw [List.append_assoc]
        exact fetch_append_length before _ _
      · rw [List.append_assoc]
        exact hr

/-! ## Guards -/

/-- The code of a test and a conditional jump on its value stand from line `n` on. The machine goes on
at the line `yes` if the value is one, and at the line `no` if it is zero. -/
structure Guarded (code : List Instruction) (exit n yes no : Nat) (test : Emitted) : Prop where
  placed : Placed code exit n test.code
  jump : ∃ target, fetch code (n + test.code.length) = some (.jumpIfZero target test.value) ∧
    target.lands (n + test.code.length) = some no
  yes_eq : yes = n + test.code.length + 1

/-- A test, a conditional jump and what comes after them. -/
theorem Placed.guarded (test : Emitted) {target : Target} (no : Nat)
    (h : Placed code exit n (test.code ++ [.jumpIfZero target test.value] ++ rest))
    (hl : target.lands (n + test.code.length) = some no) :
    Guarded code exit n (n + test.code.length + 1) no test ∧
      Placed code exit (n + test.code.length + 1) rest := by
  obtain ⟨ht, hr⟩ := placed_append.mp h
  obtain ⟨ht, hj, -⟩ := placed_append.mp ht
  rw [List.length_append, List.length_singleton, ← Nat.add_assoc] at hr
  exact ⟨⟨ht, ⟨target, hj, hl⟩, rfl⟩, hr⟩

/-! ## Emitted code -/

/-- What the emission gives on `c` stands from line `n` to just before the line `next`. -/
structure Stands (code : List Instruction) (exit n next : Nat) (emission : Emit (List Instruction))
    (c c' : Compilation) : Prop where
  placed : ∃ part, emission.Gives c part c' ∧ Placed code exit n part ∧ next = n + part.length

namespace Stands

variable {next : Nat} {c c' : Compilation} {condition : Condition} {body other : Statement}
  {span : Span}

/-- The condition leads to the body or past it. -/
theorem ifThen (h : Stands code exit n next (Statement.ifThen condition body span).emit c c') :
    ∃ b c₁ m, condition.emit.Gives c b c₁ ∧ Guarded code exit n m next b ∧
      Stands code exit m next body.emit c₁ c' := by
  obtain ⟨part, hg, hp, hn⟩ := h
  obtain ⟨b, c₁, t, hb, ht, rfl⟩ := Statement.gives_ifThen.mp hg
  simp only [List.length_append, List.length_singleton] at hn
  obtain ⟨hb', ht'⟩ := hp.guarded b next (congrArg some (by omega))
  exact ⟨b, c₁, _, hb, hb', ⟨t, ht, ht', by omega⟩⟩

/-- After the first body a jump leads over the other one. -/
theorem ifElse
    (h : Stands code exit n next (Statement.ifElse condition body other span).emit c c') :
    ∃ b c₁ m l k c₂, condition.emit.Gives c b c₁ ∧ Guarded code exit n m l b ∧
      Stands code exit m k body.emit c₁ c₂ ∧ Goes code k next ∧
      Stands code exit l next other.emit c₂ c' := by
  obtain ⟨part, hg, hp, hn⟩ := h
  obtain ⟨b, c₁, t, c₂, e, hb, ht, he, rfl⟩ := Statement.gives_ifElse.mp hg
  obtain ⟨hp, he'⟩ := placed_append.mp hp
  obtain ⟨hp, hj, -⟩ := placed_append.mp hp
  simp only [List.length_append, List.length_singleton] at hn he' hj
  obtain ⟨hb', ht'⟩ := hp.guarded b (n + (b.code.length + 1 + t.length + 1))
    (congrArg some (by omega))
  exact ⟨b, c₁, _, _, _, c₂, hb, hb', ⟨t, ht, ht', by omega⟩, ⟨_, hj, congrArg some (by omega)⟩,
    ⟨e, he, he', by omega⟩⟩

/-- The breaks of the body lead past the loop. -/
theorem loop (h : Stands code exit n next (Statement.loop condition body span).emit c c') :
    ∃ b c₁ m k, condition.emit.Gives c₁ b c' ∧ Guarded code next n m next b ∧
      Stands code next m k body.emit c c₁ ∧ Goes code k n := by
  obtain ⟨part, hg, hp, hn⟩ := h
  obtain ⟨t, c₁, b, ht, hb, rfl⟩ := Statement.gives_loop.mp hg
  rw [length_closeBreaks] at hn
  have hp := hp.of_closeBreaks
  rw [← hn] at hp
  -- the jump back needs a line to go to, and there is no line zero
  have hpos := hp.pos (by simp [loopCode])
  obtain ⟨hp, hj, -⟩ := placed_append.mp hp
  simp only [loopCode, List.length_append, List.length_singleton] at hn hj
  obtain ⟨hb', ht'⟩ := hp.guarded b next (congrArg some (by omega))
  refine ⟨b, c₁, _, _, hb, hb', ⟨t, ht, ht', ?_⟩, ⟨_, hj, ?_⟩⟩
  · omega
  · rw [Target.lands, if_pos (by omega)]
    exact congrArg some (by omega)

/-- So do the breaks of the arms of a switch. -/
theorem switch {selector : Expression} {cases : List Case} {default : Block}
    (h : Stands code exit n next (Statement.switch selector cases default span).emit c c') :
    ∃ v c₁ m c₂, selector.emit.Gives c v c₁ ∧ Placed code next n v.code ∧
      Stands code next (n + v.code.length) m (emitCases v.value cases) c₁ c₂ ∧
      Stands code next m next (emitStatements default.body) c₂ c' := by
  obtain ⟨part, hg, hp, hn⟩ := h
  obtain ⟨v, c₁, arms, c₂, d, hv, ha, hd, rfl⟩ := Statement.gives_switch.mp hg
  rw [length_closeBreaks] at hn
  have hp := hp.of_closeBreaks
  rw [← hn] at hp
  obtain ⟨hp, hd'⟩ := placed_append.mp hp
  obtain ⟨hv', ha'⟩ := placed_append.mp hp
  simp only [List.length_append] at hn hd'
  exact ⟨v, c₁, _, c₂, hv, hv', ⟨arms, ha, ha', by omega⟩,
    ⟨d, Block.gives_iff.mp hd, hd', by omega⟩⟩

theorem leave (h : Stands code exit n next (Statement.leave span).emit c c') :
    Goes code n exit := by
  obtain ⟨part, hg, hp, -⟩ := h
  obtain ⟨-, rfl⟩ := Statement.gives_leave.mp hg
  exact hp.1

theorem block {block : Block} (h : Stands code exit n next (Statement.block block).emit c c') :
    Stands code exit n next (emitStatements block.body) c c' := by
  obtain ⟨part, hg, hp, hn⟩ := h
  exact ⟨part, Block.gives_iff.mp (Statement.gives_block.mp hg), hp, hn⟩

theorem nil (h : Stands code exit n next (emitStatements []) c c') : next = n := by
  obtain ⟨part, hg, -, rfl⟩ := h
  obtain ⟨-, rfl⟩ := gives_statements_nil.mp hg
  rfl

/-- The second statement stands just after the first. -/
theorem cons {first : Statement} {rest : List Statement}
    (h : Stands code exit n next (emitStatements (first :: rest)) c c') :
    ∃ m c₁, Stands code exit n m first.emit c c₁ ∧
      Stands code exit m next (emitStatements rest) c₁ c' := by
  obtain ⟨part, hg, hp, rfl⟩ := h
  obtain ⟨f, c₁, r, hf, hr, rfl⟩ := gives_statements_cons.mp hg
  obtain ⟨hf', hr'⟩ := placed_append.mp hp
  rw [List.length_append, ← Nat.add_assoc]
  exact ⟨_, c₁, ⟨f, hf, hf', rfl⟩, ⟨r, hr, hr', rfl⟩⟩

theorem noCases {operand : Operand} (h : Stands code exit n next (emitCases operand []) c c') :
    next = n ∧ c' = c := by
  obtain ⟨part, hg, -, rfl⟩ := h
  obtain ⟨rfl, rfl⟩ := gives_cases_nil.mp hg
  exact ⟨rfl, rfl⟩

/-- The slot of a test is taken before the body is emitted, the rest of the test comes after it. -/
theorem consCase {operand : Operand} {first : Case} {rest : List Case}
    (h : Stands code exit n next (emitCases operand (first :: rest)) c c') :
    ∃ m l c₁ pair c₂,
      Stands code exit m l (emitStatements first.body.body) (c.withTemporary .int) c₁ ∧
      (widenPair operand (.literal first.label) first.span.start).Gives c₁ pair c₂ ∧
      Guarded code exit n m l
        ⟨pair.code ++
            [.quad (.compare .equal pair.type) [.name c.symbols.fresh, pair.left, pair.right]],
          .name c.symbols.fresh⟩ ∧
      Stands code exit l next (emitCases operand rest) c₂ c' := by
  obtain ⟨part, hg, hp, hn⟩ := h
  obtain ⟨body, c₁, test, c₂, more, hb, ht, hm, rfl⟩ := gives_cases_cons.mp hg
  obtain ⟨pair, hw, rfl⟩ := gives_caseTest.mp ht
  obtain ⟨hp, hm'⟩ := placed_append.mp hp
  simp only [List.length_append, List.length_singleton] at hn hm'
  obtain ⟨ht', hb'⟩ := Placed.guarded ⟨_, _⟩ (n + (pair.code.length + 1 + 1 + body.length)) hp
    (congrArg some (by simp only [List.length_append, List.length_singleton]; omega))
  rw [List.length_append, List.length_singleton] at ht' hb'
  exact ⟨_, _, c₁, pair, c₂, ⟨body, Block.gives_iff.mp hb, hb', by omega⟩, hw, ht',
    ⟨more, hm, hm', by omega⟩⟩

end Stands

end Cpl.Machine
