import Cpl.Quad

/-!
# The quad machine

A machine that executes quads, over any arithmetic. An `Arithmetic` gives the values of the two number
types and what the instructions compute on them; arithmetic operations may be undefined on some
values. A slot holds a cell, in which a value of either type is stored and from which it is loaded
again; what comes out of a cell at the other type is left open.

The machine is at a line, counted from one, in a `World` of slots, input still to be read and output
made so far. `step` executes the instruction on its line. A jump target may be a line number or relative
to its own line. Nothing comes after a halt, and nothing comes after an instruction that cannot be
executed: one with the wrong operands, an undefined operation, reading without input, a break that was
left open, or a line that does not exist.

`Reaches` is a run of any length, and `Halts` a run to a halt.
-/

namespace Cpl

/-- The values of the number types and what the machine computes on them. -/
structure Arithmetic where
  Val : NumType → Type
  /-- What a slot holds. -/
  Cell : Type
  /-- An item of the input. -/
  Item : Type
  literal (type : NumType) : Literal → Val type
  arith (operation : Arith) (type : NumType) : Val type → Val type → Option (Val type)
  holds (comparison : Compare) (type : NumType) : Val type → Val type → Bool
  toReal : Val .int → Val .float
  toInt : Val .float → Val .int
  /-- What a conditional jump tests. -/
  isZero : Val .int → Bool
  /-- An item read as a value of the type. -/
  read (type : NumType) : Item → Val type
  store (type : NumType) : Val type → Cell
  load (type : NumType) : Cell → Val type
  load_store (type : NumType) (v : Val type) : load type (store type v) = v
  isZero_zero : isZero (literal .int ⟨"0"⟩) = true
  isZero_one : isZero (literal .int ⟨"1"⟩) = false
  zero_equal : holds .equal .int (literal .int ⟨"0"⟩) (literal .int ⟨"0"⟩) = true
  one_unequal : holds .equal .int (literal .int ⟨"1"⟩) (literal .int ⟨"0"⟩) = false

namespace Arithmetic

attribute [simp] load_store isZero_zero isZero_one zero_equal one_unequal

variable (A : Arithmetic)

/-- A value of either type. -/
abbrev Value : Type :=
  (type : NumType) × A.Val type

/-- One for true, zero for false. -/
def truth (b : Bool) : A.Val .int :=
  A.literal .int ⟨if b then "1" else "0"⟩

@[simp] theorem isZero_truth (b : Bool) : A.isZero (A.truth b) = !b := by
  cases b <;> simp [truth]

@[simp] theorem holds_truth_zero (b : Bool) :
    A.holds .equal .int (A.truth b) (A.literal .int ⟨"0"⟩) = !b := by
  cases b <;> simp [truth]

/-- The contents of the slots. -/
abbrev Store : Type :=
  String → A.Cell

/-- The value of an operand, taken at the given type. -/
def value (σ : A.Store) (type : NumType) : Operand → Option (A.Val type)
  | .name slot => some (A.load type (σ slot))
  | .literal l => some (A.literal type l)
  | .jump _ => none

end Arithmetic

variable {A : Arithmetic}

/-! ## Worlds -/

/-- The slots, the input that was not read yet and the output so far. -/
@[ext] structure World (A : Arithmetic) where
  store : A.Store
  input : List A.Item
  output : List A.Value

namespace World

/-- With a value stored in a slot. -/
def set (w : World A) (slot : String) (type : NumType) (v : A.Val type) : World A :=
  { w with store := fun x => if x = slot then A.store type v else w.store x }

/-- With a value added to the output. -/
def print (w : World A) (v : A.Value) : World A :=
  { w with output := w.output ++ [v] }

section

variable (w : World A) (slot : String) (type : NumType) (v : A.Val type)

@[simp] theorem set_store_self : (w.set slot type v).store slot = A.store type v := by
  simp [set]

theorem set_store_of_ne {x : String} (h : x ≠ slot) : (w.set slot type v).store x = w.store x := by
  simp [set, h]

@[simp] theorem set_set (type' : NumType) (v' : A.Val type') :
    (w.set slot type v).set slot type' v' = w.set slot type' v' := by
  ext1
  · funext x
    by_cases h : x = slot <;> simp [set, h]
  · rfl
  · rfl

end

end World

/-! ## Instructions -/

/-- What happens after an instruction. -/
inductive Next (A : Arithmetic) where
  /-- The next line. -/
  | on (w : World A)
  | jump (target : Target)
  | stop

/-- Executes an instruction with the given operands; `none` if that is not possible. -/
def Opcode.exec (w : World A) : Opcode → List Operand → Option (Next A)
  | .assign type, [.name dest, value] => do
    let v ← A.value w.store type value
    return .on (w.set dest type v)
  | .input type, [.name dest] =>
    match w.input with
    | [] => none
    | item :: rest => some (.on ({ w with input := rest }.set dest type (A.read type item)))
  | .print type, [value] => do
    let v ← A.value w.store type value
    return .on (w.print ⟨type, v⟩)
  | .arith operation type, [.name dest, left, right] => do
    let l ← A.value w.store type left
    let r ← A.value w.store type right
    let v ← A.arith operation type l r
    return .on (w.set dest type v)
  | .compare comparison type, [.name dest, left, right] => do
    let l ← A.value w.store type left
    let r ← A.value w.store type right
    return .on (w.set dest .int (A.truth (A.holds comparison type l r)))
  | .convert goal, [.name dest, value] =>
    match goal with
    | .float => do
      let v ← A.value w.store .int value
      return .on (w.set dest .float (A.toReal v))
    | .int => do
      let v ← A.value w.store .float value
      return .on (w.set dest .int (A.toInt v))
  | .jump, [.jump target] => some (.jump target)
  | .jumpIfZero, [.jump target, condition] => do
    let v ← A.value w.store .int condition
    return if A.isZero v then .jump target else .on w
  | .halt, [] => some .stop
  | _, _ => none

/-- Only the two jumps jump, and to their first operand. -/
theorem Opcode.eq_of_exec_jump {w : World A} {opcode : Opcode} {operands : List Operand}
    {target : Target} (h : opcode.exec w operands = some (.jump target)) :
    opcode = .jump ∧ operands = [.jump target] ∨
      opcode = .jumpIfZero ∧ ∃ condition, operands = [.jump target, condition] := by
  unfold exec at h
  split at h
  case h_7 =>
    cases h
    exact .inl ⟨rfl, rfl⟩
  case h_8 =>
    obtain ⟨v, -, hv⟩ := Option.bind_eq_some_iff.mp h
    split at hv <;> cases hv
    exact .inr ⟨rfl, _, rfl⟩
  case h_2 => split at h <;> cases h
  case h_6 => split at h <;> simp [Option.bind_eq_some_iff] at h
  all_goals simp [Option.bind_eq_some_iff] at h

/-- The line to which a target on the given line leads. -/
def Target.lands (line : Nat) : Target → Option Nat
  | .line number => some number
  | .forward offset => some (line + offset)
  | .backward offset => if offset < line then some (line - offset) else none

/-! ## Runs -/

namespace Machine

/-- The instruction on a line, counted from one. -/
def fetch (code : List Instruction) : Nat → Option Instruction
  | 0 => none
  | n + 1 => code[n]?

/-- The machine at a line. -/
@[ext] structure State (A : Arithmetic) where
  line : Nat
  world : World A

/-- Executes the instruction on the current line. -/
def step (code : List Instruction) (s : State A) : Option (State A) :=
  match fetch code s.line with
  | some (.quad opcode operands) =>
    match opcode.exec s.world operands with
    | some (.on w) => some ⟨s.line + 1, w⟩
    | some (.jump target) => (target.lands s.line).map (⟨·, s.world⟩)
    | some .stop => none
    | none => none
  | some (.openBreak _) => none
  | none => none

/-- So many steps. -/
def run (code : List Instruction) : Nat → State A → Option (State A)
  | 0, s => some s
  | n + 1, s => (step code s).bind (run code n)

/-- The machine stands at a halt. -/
def AtHalt (code : List Instruction) (s : State A) : Prop :=
  fetch code s.line = some .halt

def Reaches (code : List Instruction) (s s' : State A) : Prop :=
  ∃ n, run code n s = some s'

/-- The machine cannot go on, and does not stand at a halt. -/
def Stuck (code : List Instruction) (s : State A) : Prop :=
  step code s = none ∧ ¬ AtHalt code s

/-- The machine comes to a halt in the world. -/
def Halts (code : List Instruction) (s : State A) (w : World A) : Prop :=
  ∃ line, Reaches code s ⟨line, w⟩ ∧ fetch code line = some .halt

section

variable {code : List Instruction} {s s' s'' : State A}

/-- A run in two parts. -/
theorem run_add (m n : Nat) (s : State A) :
    run code (m + n) s = (run code m s).bind (run code n) := by
  induction m generalizing s with
  | zero => rw [Nat.zero_add]; rfl
  | succ m ih =>
    rw [Nat.succ_add]
    simp only [run]
    cases step code s with
    | none => rfl
    | some s₁ => exact ih s₁

theorem Reaches.refl (code : List Instruction) (s : State A) : Reaches code s s :=
  ⟨0, rfl⟩

theorem Reaches.trans (h : Reaches code s s') (h' : Reaches code s' s'') : Reaches code s s'' := by
  obtain ⟨m, hm⟩ := h
  obtain ⟨n, hn⟩ := h'
  exact ⟨m + n, by rw [run_add, hm]; exact hn⟩

theorem Reaches.head (h : step code s = some s') (h' : Reaches code s' s'') :
    Reaches code s s'' := by
  obtain ⟨n, hn⟩ := h'
  exact ⟨n + 1, by rw [run, h]; exact hn⟩

theorem Reaches.single (h : step code s = some s') : Reaches code s s' :=
  .head h (.refl code s')

/-! ## Single steps -/

variable {n : Nat} {w w' : World A} {opcode : Opcode} {operands : List Operand}

theorem step_on (hf : fetch code n = some (.quad opcode operands))
    (he : opcode.exec w operands = some (.on w')) : step code ⟨n, w⟩ = some ⟨n + 1, w'⟩ := by
  simp only [step, hf, he]

theorem step_jump {target : Target} {m : Nat} (hf : fetch code n = some (.quad opcode operands))
    (he : opcode.exec w operands = some (.jump target)) (hl : target.lands n = some m) :
    step code ⟨n, w⟩ = some ⟨m, w⟩ := by
  simp only [step, hf, he, hl, Option.map_some]

/-- An instruction that cannot be executed is no halt. -/
theorem stuck_of_exec (hf : fetch code n = some (.quad opcode operands))
    (he : opcode.exec w operands = none) : Stuck code ⟨n, w⟩ := by
  refine ⟨by simp only [step, hf, he], fun h => ?_⟩
  rw [AtHalt, hf] at h
  cases h
  cases he

/-- Nothing comes after a halt. -/
theorem AtHalt.step_eq_none (h : AtHalt code s) : step code s = none := by
  simp only [AtHalt, Instruction.halt] at h
  simp only [step, h, Opcode.exec]

/-! ## Runs to a halt -/

/-- The machine comes to a halt in so many steps. -/
def HaltsIn (code : List Instruction) (s : State A) (k : Nat) : Prop :=
  ∃ s', run code k s = some s' ∧ AtHalt code s'

/-- A run to a halt goes through every state that is reached from its start. -/
theorem HaltsIn.of_run {k m : Nat} (h : HaltsIn code s k) (hm : run code m s = some s') :
    m ≤ k ∧ HaltsIn code s' (k - m) := by
  obtain ⟨last, hk, hh⟩ := h
  rcases Nat.lt_or_ge k m with hlt | hge
  · obtain ⟨d, rfl⟩ : ∃ d, m = k + (d + 1) := ⟨m - k - 1, by omega⟩
    rw [run_add, hk, Option.bind_some, run, hh.step_eq_none] at hm
    cases hm
  · obtain ⟨d, rfl⟩ : ∃ d, k = m + d := ⟨k - m, by omega⟩
    rw [run_add, hm, Option.bind_some] at hk
    exact ⟨hge, last, by rwa [Nat.add_sub_cancel_left], hh⟩

theorem HaltsIn.of_reaches {k : Nat} (h : HaltsIn code s k) (hr : Reaches code s s') :
    ∃ k' ≤ k, HaltsIn code s' k' := by
  obtain ⟨m, hm⟩ := hr
  exact ⟨k - m, Nat.sub_le k m, (h.of_run hm).2⟩

/-- A step takes one off the run. -/
theorem HaltsIn.of_step {k : Nat} (h : HaltsIn code s k) (hs : step code s = some s') :
    ∃ k' < k, HaltsIn code s' k' := by
  have hr : run code 1 s = some s' := by rw [run, hs]; rfl
  obtain ⟨hle, hk⟩ := h.of_run hr
  exact ⟨k - 1, by omega, hk⟩

theorem HaltsIn.not_stuck {k : Nat} (h : HaltsIn code s k) : ¬ Stuck code s := by
  rintro ⟨hs, hn⟩
  obtain ⟨last, hk, hh⟩ := h
  cases k with
  | zero =>
    cases hk
    exact hn hh
  | succ k =>
    rw [run, hs] at hk
    cases hk

theorem Halts.haltsIn (h : Halts code s w) : ∃ k, HaltsIn code s k := by
  obtain ⟨line, ⟨k, hk⟩, hl⟩ := h
  exact ⟨k, _, hk, hl⟩

/-- A run that has come to a halt ends in one world only. -/
theorem Halts.unique (h : Halts code s w) (h' : Halts code s w') : w = w' := by
  obtain ⟨l, ⟨m, hm⟩, hl⟩ := h
  obtain ⟨l', ⟨n, hn⟩, hl'⟩ := h'
  obtain ⟨hle, -⟩ := HaltsIn.of_run ⟨_, hn, hl'⟩ hm
  obtain ⟨hge, -⟩ := HaltsIn.of_run ⟨_, hm, hl⟩ hn
  obtain rfl : m = n := by omega
  rw [hm] at hn
  cases hn
  rfl

end

/-! ## Runs with a result -/

/-- Running from line `n` in the world `w` comes to a line and a world that are right for the result. If
there is no result it gets stuck. -/
inductive Yields {α : Type} (code : List Instruction) (n : Nat) (w : World A)
    (right : α → Nat → World A → Prop) : Option α → Prop where
  | value {a : α} {m : Nat} {w' : World A} : Reaches code ⟨n, w⟩ ⟨m, w'⟩ → right a m w' →
      Yields code n w right (some a)
  | stuck {s : State A} : Reaches code ⟨n, w⟩ s → Stuck code s → Yields code n w right none

section

variable {α : Type} {code : List Instruction} {n : Nat} {w : World A}
  {right : α → Nat → World A → Prop}

theorem Yields.mono {right' : α → Nat → World A → Prop} {r : Option α}
    (h : Yields code n w right r) (himp : ∀ {a m w'}, right a m w' → right' a m w') :
    Yields code n w right' r := by
  cases h with
  | value hr ha => exact .value hr (himp ha)
  | stuck hr hs => exact .stuck hr hs

theorem Yields.of_reaches {m : Nat} {w' : World A} {r : Option α}
    (hr : Reaches code ⟨n, w⟩ ⟨m, w'⟩) (h : Yields code m w' right r) :
    Yields code n w right r := by
  cases h with
  | value hr' ha => exact .value (hr.trans hr') ha
  | stuck hr' hs => exact .stuck (hr.trans hr') hs

/-- A second run continues with the result of the first. -/
theorem Yields.bind {β : Type} {right' : β → Nat → World A → Prop} {r : Option α}
    {f : α → Option β} (h : Yields code n w right r)
    (k : ∀ {a m w'}, right a m w' → Yields code m w' right' (f a)) :
    Yields code n w right' (r.bind f) := by
  cases h with
  | value hr ha => exact .of_reaches hr (k ha)
  | stuck hr hs => exact .stuck hr hs

theorem Yields.reaches {a : α} (h : Yields code n w right (some a)) :
    ∃ m w', Reaches code ⟨n, w⟩ ⟨m, w'⟩ ∧ right a m w' := by
  cases h with
  | value hr ha => exact ⟨_, _, hr, ha⟩

/-- A run that comes to a halt does not get stuck on its way. -/
theorem Yields.of_haltsIn {r : Option α} {k : Nat} (h : Yields code n w right r)
    (hk : HaltsIn code ⟨n, w⟩ k) :
    ∃ a m w', r = some a ∧ right a m w' ∧ ∃ k' ≤ k, HaltsIn code ⟨m, w'⟩ k' := by
  cases h with
  | value hr ha => exact ⟨_, _, _, rfl, ha, hk.of_reaches hr⟩
  | stuck hr hs =>
    obtain ⟨k', -, hk'⟩ := hk.of_reaches hr
    exact absurd hs hk'.not_stuck

end

end Machine

end Cpl
