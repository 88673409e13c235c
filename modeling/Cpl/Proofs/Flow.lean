import Mathlib.Data.List.Chain
import Mathlib.Data.Set.Insert
import Cpl.Proofs.Resolution

/-!
# The flow of control

Which slots an instruction reads and which one it writes, and the ways that control can take through a
program if nothing is known of the data: a conditional jump may go to its target or to the next line.

* `Machine.Follows`: one line may come after another. Every step of the machine is of this kind,
  depends on the slots read only and changes no slot but the one written (`follows_of_step`);
* `Machine.IsWay`: lines from line one on, each of which may follow the one before;
* `Machine.Supplied`: for so many steps from a line, on whichever way, no slot is read that was not
  filled before or written on the way. `filled_or_written` says the same of whole ways, and `run_refill`
  that no run then depends on the other slots.
-/

namespace Cpl

variable {A : Arithmetic}

/-! ## Reading and writing -/

/-- Stores a result in the slot that is its first operand. -/
def Opcode.stores : Opcode → Bool
  | .assign _ | .input _ | .arith _ _ | .compare _ _ | .convert _ => true
  | .print _ | .jump | .jumpIfZero | .halt => false

def Operand.slot? : Operand → Option String
  | .name slot => some slot
  | _ => none

namespace Instruction

/-- The slot that is written. -/
def written? : Instruction → Option String
  | quad opcode (first :: _) => if opcode.stores then first.slot? else none
  | _ => none

/-- The slots that are read, which are all but the one written. -/
def reads : Instruction → List String
  | quad opcode operands =>
    (if opcode.stores then operands.tail else operands).filterMap Operand.slot?
  | openBreak _ => []

/-- The lines at which control may go on after the instruction on the given line. -/
def successors (line : Nat) : Instruction → List Nat
  | quad .jump [.jump target] => (target.lands line).toList
  | quad .jumpIfZero [.jump target, _] => (line + 1) :: (target.lands line).toList
  | quad .jump _ | quad .jumpIfZero _ | quad .halt _ | openBreak _ => []
  | quad _ _ => [line + 1]

section

variable {line : Nat}

theorem slot?_settle (o : Operand) : (o.settle line).slot? = o.slot? := by
  cases o <;> rfl

/-- Settling the targets changes nothing of what is read, written or done next. -/
@[simp] theorem written?_settle (i : Instruction) : (i.settle line).written? = i.written? := by
  rcases i with ⟨opcode, _ | ⟨first, rest⟩⟩ | position
  · rfl
  · simp only [settle, written?, List.map_cons, slot?_settle]
  · rfl

@[simp] theorem reads_settle (i : Instruction) : (i.settle line).reads = i.reads := by
  cases i with
  | openBreak position => rfl
  | quad opcode operands =>
    have h (os : List Operand) :
        (os.map (Operand.settle line)).filterMap Operand.slot? = os.filterMap Operand.slot? := by
      rw [List.filterMap_map]
      exact List.filterMap_congr fun o _ => slot?_settle o
    rw [settle, reads, reads]
    split
    · rw [← List.map_tail, h]
    · exact h operands

@[simp] theorem successors_settle (i : Instruction) :
    (i.settle line).successors line = i.successors line := by
  rcases i with ⟨opcode, operands⟩ | position
  · rcases operands with _ | ⟨a, _ | ⟨b, _ | ⟨d, rest⟩⟩⟩
    · cases opcode <;> rfl
    all_goals
      cases opcode <;> cases a <;> simp [settle, successors, Operand.settle, Target.lands_settle]
  · rfl

end

end Instruction

/-! ## What an instruction depends on -/

/-- With the other contents in all slots but the given one. -/
def World.refill (w : World A) (σ : A.Store) (kept : Option String) : World A :=
  { w with store := fun slot => if kept = some slot then w.store slot else σ slot }

/-- The same for the world that an instruction leaves. -/
def Next.refill (σ : A.Store) (kept : Option String) : Next A → Next A
  | on w => on (w.refill σ kept)
  | jump target => jump target
  | stop => stop

theorem Next.bind_refill {β : Type} {σ : A.Store} {kept : Option String} {value : Option β}
    {next next' : β → Option (Next A)} (h : ∀ v, next v = (next' v).map (refill σ kept)) :
    value >>= next = (value >>= next').map (refill σ kept) := by
  cases value with
  | none => rfl
  | some v => exact h v

theorem World.set_refill (w : World A) (σ : A.Store) (dest : String) (type : NumType)
    (v : A.Val type) :
    (w.set dest type v).refill σ (some dest) = { w with store := σ }.set dest type v := by
  ext1
  · funext slot
    by_cases h : slot = dest
    · subst h
      simp [refill]
    · have hne : some dest ≠ some slot := fun he => h (Option.some.inj he).symm
      rw [set_store_of_ne _ _ _ _ h]
      exact if_neg hne
  · rfl
  · rfl

theorem Arithmetic.value_congr {σ τ : A.Store} {type : NumType} {operand : Operand}
    (h : ∀ slot, operand.slot? = some slot → σ slot = τ slot) :
    A.value σ type operand = A.value τ type operand := by
  cases operand with
  | name slot => rw [value, value, h slot rfl]
  | literal l => rfl
  | jump target => rfl

/-- What an instruction does depends on the slots it reads, and it changes no slot but the one it
writes: with other contents in the slots that are not read, it does the same. -/
theorem Opcode.exec_refill {w : World A} {opcode : Opcode} {operands : List Operand} {σ : A.Store}
    (h : ∀ slot ∈ (Instruction.quad opcode operands).reads, σ slot = w.store slot) :
    opcode.exec { w with store := σ } operands =
      (opcode.exec w operands).map (Next.refill σ (Instruction.quad opcode operands).written?) := by
  have hvalue (type : NumType) {operand : Operand}
      (hm : operand ∈ if opcode.stores then operands.tail else operands) :
      A.value σ type operand = A.value w.store type operand :=
    Arithmetic.value_congr fun slot hs => h slot (List.mem_filterMap.mpr ⟨operand, hm, hs⟩)
  have hset (u : World A) (dest : String) (type : NumType) (v : A.Val type) :
      some (Next.on ({ u with store := σ }.set dest type v)) =
        (some (Next.on (u.set dest type v))).map (Next.refill σ (some dest)) :=
    congrArg (fun u => some (Next.on u)) (u.set_refill σ dest type v).symm
  unfold Opcode.exec
  split
  · rw [hvalue _ (by simp [stores])]
    exact Next.bind_refill fun v => hset w _ _ v
  · cases w.input with
    | nil => rfl
    | cons item rest => exact hset { w with input := rest } _ _ _
  · rw [hvalue _ (by simp [stores])]
    exact Next.bind_refill fun v => rfl
  · rename_i left right
    rw [hvalue _ (by simp [stores] : left ∈ _), hvalue _ (by simp [stores] : right ∈ _)]
    exact Next.bind_refill fun l => Next.bind_refill fun r => Next.bind_refill fun v => hset w _ _ v
  · rename_i left right
    rw [hvalue _ (by simp [stores] : left ∈ _), hvalue _ (by simp [stores] : right ∈ _)]
    exact Next.bind_refill fun l => Next.bind_refill fun r => hset w _ _ _
  · split
    all_goals
      rw [hvalue _ (by simp [stores])]
      exact Next.bind_refill fun v => hset w _ _ _
  · rfl
  · rw [hvalue _ (by simp [stores])]
    refine Next.bind_refill fun v => ?_
    cases A.isZero v <;> rfl
  · rfl
  · rfl

/-- After an instruction that is no jump the next line follows. -/
theorem Opcode.exec_on {w w' : World A} {opcode : Opcode} {operands : List Operand} (line : Nat)
    (h : opcode.exec w operands = some (.on w')) :
    line + 1 ∈ (Instruction.quad opcode operands).successors line := by
  unfold Opcode.exec at h
  split at h
  case h_7 | h_9 | h_10 => cases h
  all_goals exact List.mem_cons_self

/-- A jump leads to one of the successors and writes nothing. -/
theorem Opcode.exec_jump {w : World A} {opcode : Opcode} {operands : List Operand} {target : Target}
    {line number : Nat} (h : opcode.exec w operands = some (.jump target))
    (hl : target.lands line = some number) :
    number ∈ (Instruction.quad opcode operands).successors line ∧
      (Instruction.quad opcode operands).written? = none := by
  obtain ⟨rfl, rfl⟩ | ⟨rfl, condition, rfl⟩ := Opcode.eq_of_exec_jump h
  · exact ⟨by simp [Instruction.successors, hl], rfl⟩
  · exact ⟨by simp [Instruction.successors, hl], rfl⟩

namespace Machine

/-! ## Ways -/

/-- Control may go from the line to the other one, whatever the data. -/
def Follows (code : List Instruction) (n m : Nat) : Prop :=
  ∃ i ∈ fetch code n, m ∈ i.successors n

instance (code : List Instruction) : DecidableRel (Follows code) := fun n m =>
  inferInstanceAs (Decidable (∃ i ∈ fetch code n, m ∈ i.successors n))

/-- A way through the program from line one on. -/
def IsWay (code : List Instruction) (lines : List Nat) : Prop :=
  lines.head? = some 1 ∧ lines.IsChain (Follows code)

instance (code : List Instruction) (lines : List Nat) : Decidable (IsWay code lines) :=
  inferInstanceAs (Decidable (_ ∧ _))

variable {code : List Instruction} {k n m : Nat} {D D' : Set String}

/-- The machine goes along such ways. A step depends on the slots that the instruction reads, and
changes only the one that it writes. -/
theorem follows_of_step {s s' : State A} (h : step code s = some s') :
    ∃ i, fetch code s.line = some i ∧ s'.line ∈ i.successors s.line ∧
      ∀ σ : A.Store, (∀ slot ∈ i.reads, σ slot = s.world.store slot) →
        step code ⟨s.line, { s.world with store := σ }⟩ =
          some ⟨s'.line, s'.world.refill σ i.written?⟩ := by
  unfold step at h
  split at h
  · rename_i opcode operands hf
    refine ⟨_, hf, ?_⟩
    split at h
    · rename_i w he
      cases h
      refine ⟨opcode.exec_on s.line he, fun σ hσ => ?_⟩
      simp only [step, hf, Opcode.exec_refill hσ, he, Option.map_some, Next.refill]
    · rename_i target he
      obtain ⟨number, hl, rfl⟩ := Option.map_eq_some_iff.mp h
      obtain ⟨hm, hw⟩ := Opcode.exec_jump he hl
      refine ⟨hm, fun σ hσ => ?_⟩
      simp only [step, hf, Opcode.exec_refill hσ, he, Option.map_some, Next.refill, hl, hw]
      rfl
    · cases h
    · cases h
  · cases h
  · cases h

/-! ## Supply -/

/-- For so many steps from the line, with the slots of the set filled before, every slot that is read
is filled, whichever way control takes. -/
def Supplied (code : List Instruction) : Nat → Nat → Set String → Prop
  | 0, _, _ => True
  | k + 1, n, D => ∀ i, fetch code n = some i → (∀ slot ∈ i.reads, slot ∈ D) ∧
      ∀ m ∈ i.successors n, Supplied code k m (D ∪ {slot | i.written? = some slot})

namespace Supplied

/-- With more slots filled. -/
theorem mono (h : Supplied code k n D) (hD : D ⊆ D') : Supplied code k n D' := by
  induction k generalizing n D D' with
  | zero => trivial
  | succ k ih =>
    intro i hi
    obtain ⟨hr, hs⟩ := h i hi
    exact ⟨fun slot hslot => hD (hr slot hslot),
      fun m hm => ih (hs m hm) (Set.union_subset_union_left _ hD)⟩

/-- For fewer steps. -/
theorem pred (h : Supplied code (k + 1) n D) : Supplied code k n D := by
  induction k generalizing n D with
  | zero => trivial
  | succ k ih =>
    intro i hi
    obtain ⟨hr, hs⟩ := h i hi
    exact ⟨hr, fun m hm => ih (hs m hm)⟩

/-- One instruction, and then what comes next on each way. -/
theorem step {i : Instruction} (hf : fetch code n = some i) (hr : ∀ slot ∈ i.reads, slot ∈ D)
    (hs : ∀ m ∈ i.successors n, Supplied code k m (D ∪ {slot | i.written? = some slot})) :
    Supplied code (k + 1) n D := by
  intro j hj
  cases hf.symm.trans hj
  exact ⟨hr, hs⟩

/-- A slot that is read on a way was filled before, or is written on the way before it is read. -/
theorem filled_or_written {before after : List Nat} {start : Nat}
    (h : ∀ k, Supplied code k start D) (hway : (before ++ n :: after).IsChain (Follows code))
    (hstart : (before ++ n :: after).head? = some start) {i : Instruction}
    (hf : fetch code n = some i) {slot : String} (hr : slot ∈ i.reads) :
    slot ∈ D ∨ ∃ m ∈ before, ∃ j, fetch code m = some j ∧ j.written? = some slot := by
  induction before generalizing start D with
  | nil =>
    cases hstart
    exact .inl ((h 1 i hf).1 slot hr)
  | cons first before ih =>
    cases hstart
    -- the rest of the way starts at a line that follows, with the first slot written
    obtain ⟨second, rest, hrest⟩ : ∃ second rest, before ++ n :: after = second :: rest := by
      cases before <;> exact ⟨_, _, rfl⟩
    rw [List.cons_append, hrest, List.isChain_cons_cons] at hway
    obtain ⟨⟨j, hj, hm⟩, hrestway⟩ := hway
    have hsecond (k : Nat) : Supplied code k second (D ∪ {slot | j.written? = some slot}) :=
      (h (k + 1) j hj).2 second hm
    rcases ih hsecond (hrest ▸ hrestway) (hrest ▸ rfl) with (hD | hw) | ⟨m, hmem, hw⟩
    · exact .inl hD
    · exact .inr ⟨first, List.mem_cons_self, j, hj, hw⟩
    · exact .inr ⟨m, List.mem_cons_of_mem _ hmem, hw⟩

/-- What the slots hold that were not filled makes no difference to a run: it goes along the same lines,
with the same input and output. -/
theorem run_refill {s s' : State A} {σ : A.Store} (h : Supplied code k s.line D)
    (hσ : ∀ slot ∈ D, σ slot = s.world.store slot) (hrun : run code k s = some s') :
    ∃ τ, run code k ⟨s.line, { s.world with store := σ }⟩ =
      some ⟨s'.line, { s'.world with store := τ }⟩ := by
  induction k generalizing s σ D with
  | zero =>
    cases hrun
    exact ⟨σ, rfl⟩
  | succ k ih =>
    obtain ⟨s₁, hstep, hrun⟩ := Option.bind_eq_some_iff.mp hrun
    obtain ⟨i, hf, hm, hrefill⟩ := follows_of_step hstep
    obtain ⟨hr, hs⟩ := h i hf
    have hstep' := hrefill σ fun slot hslot => hσ slot (hr slot hslot)
    -- with the slots as they are the same holds, which says that no other slot is changed
    have hframe : s₁ = ⟨s₁.line, s₁.world.refill s.world.store i.written?⟩ :=
      Option.some.inj (hstep.symm.trans (hrefill s.world.store fun _ _ => rfl))
    have hagree : ∀ slot ∈ D ∪ {slot | i.written? = some slot},
        (s₁.world.refill σ i.written?).store slot = s₁.world.store slot := by
      intro slot hslot
      by_cases hw : i.written? = some slot
      · exact if_pos hw
      · have hD : slot ∈ D := hslot.resolve_right hw
        rw [hframe]
        simp only [World.refill, if_neg hw]
        exact hσ slot hD
    obtain ⟨τ, hτ⟩ := ih (hs s₁.line hm) hagree hrun
    exact ⟨τ, Option.bind_eq_some_iff.mpr ⟨_, hstep', hτ⟩⟩

end Supplied

theorem supplied_settleFrom :
    Supplied (Instruction.settleFrom 1 code) k n D ↔ Supplied code k n D := by
  induction k generalizing n D with
  | zero => exact Iff.rfl
  | succ k ih =>
    simp only [Supplied, fetch_settleFrom, Option.map_eq_some_iff, forall_exists_index, and_imp,
      forall_apply_eq_imp_iff₂, Instruction.reads_settle, Instruction.successors_settle,
      Instruction.written?_settle, ih]

end Machine

end Cpl
