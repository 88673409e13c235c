import Cpl.Proofs.Machine
import Cpl.Quad.Resolve

/-!
# Resolved jumps

Resolving the jumps of a program says where they go in another way, and nothing else. A target is
settled on its line (`Target.settle`) when it is replaced by the line number to which it leads. Main
statements:

* `Instruction.resolveAll_eq_ok`: resolving succeeds exactly if every target leads to a line, and
  settles every target on its line;
* `Machine.step_settleFrom`: the machine takes the same steps on the resolved program.
-/

namespace Cpl

variable {A : Arithmetic} {line : Nat}

section

variable {ε α β : Type} {x : Except ε α} {b : β}

theorem except_bind_eq_ok {f : α → Except ε β} :
    (x >>= f) = .ok b ↔ ∃ a, x = .ok a ∧ f a = .ok b := by
  cases x <;> simp [bind, Except.bind]

theorem except_map_eq_ok {f : α → β} : x.map f = .ok b ↔ ∃ a, x = .ok a ∧ f a = b := by
  cases x <;> simp [Except.map]

end

/-! ## Targets, operands and instructions -/

/-- The target as a line number, if it leads to a line. -/
def Target.settle (line : Nat) (t : Target) : Target :=
  ((t.lands line).map Target.line).getD t

/-- A settled target leads where it did before. -/
theorem Target.lands_settle (line : Nat) (t : Target) : (t.settle line).lands line = t.lands line := by
  unfold Target.settle
  cases h : t.lands line with
  | none => exact h
  | some number => rfl

theorem Target.resolve_eq_ok {t t' : Target} :
    t.resolve line = .ok t' ↔ (t.lands line).isSome ∧ t' = t.settle line := by
  cases t with
  | line number => simp [resolve, settle, lands, eq_comm]
  | forward offset => simp [resolve, settle, lands, eq_comm]
  | backward offset =>
    by_cases h : offset < line <;> simp [resolve, settle, lands, h, eq_comm]

namespace Operand

/-- With its target settled, if it is one. -/
def settle (line : Nat) : Operand → Operand
  | .jump target => .jump (target.settle line)
  | operand => operand

@[simp] theorem settle_name (slot : String) : (name slot).settle line = name slot := rfl

@[simp] theorem settle_jump (target : Target) :
    (jump target).settle line = jump (target.settle line) := rfl

/-- If it is a target, it leads to a line. -/
def Lands (line : Nat) : Operand → Prop
  | .jump target => (target.lands line).isSome
  | _ => True

theorem resolve_eq_ok {o o' : Operand} :
    o.resolve line = .ok o' ↔ o.Lands line ∧ o' = o.settle line := by
  cases o with
  | name slot => simp [resolve, settle, Lands, eq_comm]
  | literal l => simp [resolve, settle, Lands, eq_comm]
  | jump target =>
    simp only [resolve, settle, Lands, except_map_eq_ok, Target.resolve_eq_ok]
    constructor
    · rintro ⟨_, ⟨hl, rfl⟩, rfl⟩
      exact ⟨hl, rfl⟩
    · rintro ⟨hl, rfl⟩
      exact ⟨_, ⟨hl, rfl⟩, rfl⟩

/-- Of several operands each is resolved by itself. -/
theorem mapM_resolve_eq_ok {os os' : List Operand} :
    os.mapM (resolve line) = .ok os' ↔ (∀ o ∈ os, o.Lands line) ∧ os' = os.map (settle line) := by
  induction os generalizing os' with
  | nil => simp [pure, Except.pure, eq_comm]
  | cons o os ih =>
    simp only [List.mapM_cons, except_bind_eq_ok, resolve_eq_ok, ih, List.forall_mem_cons,
      List.map_cons]
    constructor
    · rintro ⟨_, ⟨ho, rfl⟩, _, ⟨hos, rfl⟩, ⟨⟩⟩
      exact ⟨⟨ho, hos⟩, rfl⟩
    · rintro ⟨⟨ho, hos⟩, rfl⟩
      exact ⟨_, ⟨ho, rfl⟩, _, ⟨hos, rfl⟩, rfl⟩

end Operand

namespace Instruction

/-- With its targets settled. -/
def settle (line : Nat) : Instruction → Instruction
  | quad opcode operands => quad opcode (operands.map (Operand.settle line))
  | openBreak position => openBreak position

/-- Its targets lead to lines. -/
def Lands (line : Nat) (i : Instruction) : Prop :=
  ∀ o ∈ i.operands, o.Lands line

theorem resolve_eq_ok {i i' : Instruction} :
    i.resolve line = .ok i' ↔ i.Lands line ∧ i' = i.settle line := by
  cases i with
  | openBreak position => simp [resolve, settle, Lands, operands, eq_comm]
  | quad opcode os =>
    simp only [resolve, settle, Lands, operands, except_map_eq_ok, Operand.mapM_resolve_eq_ok]
    constructor
    · rintro ⟨_, ⟨hl, rfl⟩, rfl⟩
      exact ⟨hl, rfl⟩
    · rintro ⟨hl, rfl⟩
      exact ⟨_, ⟨hl, rfl⟩, rfl⟩

/-! ## Whole programs -/

/-- With all targets settled; the first instruction is on the given line. -/
def settleFrom : Nat → List Instruction → List Instruction
  | _, [] => []
  | line, i :: is => i.settle line :: settleFrom (line + 1) is

/-- The property holds of all instructions on their lines; the first is on the given line. -/
def AllFrom (P : Nat → Instruction → Prop) : Nat → List Instruction → Prop
  | _, [] => True
  | line, i :: is => P line i ∧ AllFrom P (line + 1) is

section

variable {P Q : Nat → Instruction → Prop} {is is' : List Instruction}

theorem allFrom_iff : AllFrom P line is ↔ ∀ k i, is[k]? = some i → P (line + k) i := by
  induction is generalizing line with
  | nil => simp [AllFrom]
  | cons i is ih =>
    rw [AllFrom, ih]
    constructor
    · rintro ⟨hi, his⟩ k j hj
      cases k with
      | zero =>
        cases hj
        exact hi
      | succ k =>
        rw [show line + (k + 1) = line + 1 + k by omega]
        exact his k j hj
    · intro h
      refine ⟨h 0 i rfl, fun k j hj => ?_⟩
      rw [show line + 1 + k = line + (k + 1) by omega]
      exact h (k + 1) j hj

theorem allFrom_append :
    AllFrom P line (is ++ is') ↔ AllFrom P line is ∧ AllFrom P (line + is.length) is' := by
  induction is generalizing line with
  | nil => simp [AllFrom]
  | cons i is ih =>
    rw [List.cons_append, AllFrom, AllFrom, ih, and_assoc, List.length_cons,
      show line + 1 + is.length = line + (is.length + 1) by omega]

/-- Moves the instructions down by so many lines. -/
theorem AllFrom.shift (h : AllFrom P line is) (offset : Nat)
    (himp : ∀ n i, P n i → Q (offset + n) i) : AllFrom Q (offset + line) is := by
  rw [allFrom_iff] at h ⊢
  intro k i hi
  rw [Nat.add_assoc]
  exact himp _ _ (h k i hi)

end

/-- Each instruction is resolved on its own line. -/
theorem resolveFrom_eq_ok {is is' : List Instruction} :
    resolveFrom line is = .ok is' ↔ AllFrom Instruction.Lands line is ∧ is' = settleFrom line is := by
  induction is generalizing line is' with
  | nil => simp [resolveFrom, AllFrom, settleFrom, eq_comm]
  | cons i is ih =>
    simp only [resolveFrom, AllFrom, settleFrom, except_bind_eq_ok, resolve_eq_ok, ih]
    constructor
    · rintro ⟨_, ⟨hi, rfl⟩, _, ⟨his, rfl⟩, ⟨⟩⟩
      exact ⟨⟨hi, his⟩, rfl⟩
    · rintro ⟨⟨hi, his⟩, rfl⟩
      exact ⟨_, ⟨hi, rfl⟩, _, ⟨his, rfl⟩, rfl⟩

theorem resolveAll_eq_ok {is is' : List Instruction} :
    resolveAll is = .ok is' ↔ AllFrom Instruction.Lands 1 is ∧ is' = settleFrom 1 is :=
  resolveFrom_eq_ok

theorem getElem?_settleFrom (is : List Instruction) (line k : Nat) :
    (settleFrom line is)[k]? = is[k]?.map (settle (line + k)) := by
  induction is generalizing line k with
  | nil => rfl
  | cons i is ih =>
    cases k with
    | zero => rfl
    | succ k =>
      rw [settleFrom, List.getElem?_cons_succ, List.getElem?_cons_succ, ih,
        show line + 1 + k = line + (k + 1) by omega]

/-- A settled instruction comes from the one in the same place. -/
theorem mem_settleFrom {i : Instruction} {is : List Instruction} (h : i ∈ settleFrom line is) :
    ∃ k, ∃ j : Instruction, is[k]? = some j ∧ i = j.settle (line + k) := by
  obtain ⟨k, hk⟩ := List.mem_iff_getElem?.mp h
  rw [getElem?_settleFrom, Option.map_eq_some_iff] at hk
  obtain ⟨j, hj, rfl⟩ := hk
  exact ⟨k, j, hj, rfl⟩

theorem settleFrom_append (is is' : List Instruction) :
    settleFrom line (is ++ is') = settleFrom line is ++ settleFrom (line + is.length) is' := by
  induction is generalizing line with
  | nil => rfl
  | cons i is ih =>
    rw [List.cons_append, settleFrom, settleFrom, List.cons_append, ih, List.length_cons,
      show line + 1 + is.length = line + (is.length + 1) by omega]

theorem length_settleFrom (is : List Instruction) : (settleFrom line is).length = is.length := by
  induction is generalizing line with
  | nil => rfl
  | cons i is ih => rw [settleFrom, List.length_cons, List.length_cons, ih]

/-- Settling keeps all but the operands. -/
@[simp] theorem opcode?_settle (i : Instruction) : (i.settle line).opcode? = i.opcode? := by
  cases i <;> rfl

@[simp] theorem openBreak?_settle (i : Instruction) :
    (i.settle line).openBreak? = i.openBreak? := by
  cases i <;> rfl

@[simp] theorem operands_settle (i : Instruction) :
    (i.settle line).operands = i.operands.map (Operand.settle line) := by
  cases i <;> rfl

end Instruction

/-! ## Steps -/

/-- With the target of a jump settled. -/
def Next.settle (line : Nat) : Next A → Next A
  | .jump target => .jump (target.settle line)
  | next => next

theorem Arithmetic.value_settle (σ : A.Store) (type : NumType) (o : Operand) :
    A.value σ type (o.settle line) = A.value σ type o := by
  cases o <;> rfl

/-- Only the first operand is looked at by its form, all others by their values. -/
theorem Opcode.exec_settle (w : World A) (op : Opcode) (os : List Operand) :
    op.exec w (os.map (Operand.settle line)) = (op.exec w os).map (Next.settle line) := by
  -- no opcode takes more than three operands
  rcases os with _ | ⟨a, _ | ⟨b, _ | ⟨d, _ | ⟨e, os⟩⟩⟩⟩ <;>
    simp only [List.map_cons, List.map_nil]
  · cases op <;> rfl
  · cases op <;> cases a <;> try rfl
    case input.name type slot =>
      simp only [exec, Operand.settle_name]
      cases w.input <;> rfl
  · cases op <;> cases a <;> try rfl
    case assign.name type slot =>
      simp only [exec, Operand.settle_name, Arithmetic.value_settle]
      cases A.value w.store type b <;> rfl
    case convert.name goal slot =>
      cases goal <;> simp only [exec, Operand.settle_name, Arithmetic.value_settle]
      · cases A.value w.store .float b <;> rfl
      · cases A.value w.store .int b <;> rfl
    case jumpIfZero.jump target =>
      simp only [exec, Operand.settle_jump, Arithmetic.value_settle]
      cases A.value w.store .int b with
      | none => rfl
      | some v => cases hz : A.isZero v <;> simp [hz, Next.settle]
  · cases op <;> cases a <;> try rfl
    case arith.name operation type slot =>
      simp only [exec, Operand.settle_name, Arithmetic.value_settle]
      cases A.value w.store type b with
      | none => rfl
      | some l =>
        cases A.value w.store type d with
        | none => rfl
        | some r => cases h : A.arith operation type l r <;> simp [h, Next.settle]
    case compare.name comparison type slot =>
      simp only [exec, Operand.settle_name, Arithmetic.value_settle]
      cases A.value w.store type b <;> cases A.value w.store type d <;> rfl
  · cases op <;> cases a <;> rfl

namespace Machine

open Instruction

theorem fetch_settleFrom (code : List Instruction) (n : Nat) :
    fetch (settleFrom 1 code) n = (fetch code n).map (settle n) := by
  cases n with
  | zero => rfl
  | succ n => rw [fetch, fetch, getElem?_settleFrom, Nat.add_comm 1 n]

/-- The machine takes the same steps with settled targets. -/
theorem step_settleFrom (code : List Instruction) (s : State A) :
    step (settleFrom 1 code) s = step code s := by
  unfold step
  rw [fetch_settleFrom]
  cases hf : fetch code s.line with
  | none => rfl
  | some i =>
    cases i with
    | openBreak position => rfl
    | quad op os =>
      simp only [Option.map_some, settle, Opcode.exec_settle]
      cases op.exec s.world os with
      | none => rfl
      | some next =>
        cases next with
        | on w => rfl
        | stop => rfl
        | jump target => simp only [Option.map_some, Next.settle, Target.lands_settle]

theorem run_settleFrom (code : List Instruction) (n : Nat) (s : State A) :
    run (settleFrom 1 code) n s = run code n s := by
  induction n generalizing s with
  | zero => rfl
  | succ n ih =>
    simp only [run, step_settleFrom]
    cases step code s with
    | none => rfl
    | some s' => exact ih s'

theorem fetch_settleFrom_eq_halt {code : List Instruction} {n : Nat} :
    fetch (settleFrom 1 code) n = some .halt ↔ fetch code n = some .halt := by
  rw [fetch_settleFrom]
  constructor
  · intro h
    obtain ⟨i, hi, he⟩ := Option.map_eq_some_iff.mp h
    cases i with
    | openBreak position => cases he
    | quad op os =>
      simp only [settle, Instruction.halt, quad.injEq, List.map_eq_nil_iff] at he
      rw [hi, he.1, he.2]
      rfl
  · intro h
    rw [h]
    rfl

/-- The resolved program halts as the relative one does. -/
theorem halts_settleFrom {code : List Instruction} {s : State A} {w : World A} :
    Halts (settleFrom 1 code) s w ↔ Halts code s w := by
  simp only [Halts, Reaches, run_settleFrom, fetch_settleFrom_eq_halt]

end Machine

end Cpl
