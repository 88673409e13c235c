import Mathlib.Data.List.Forall2
import Cpl.Proofs.Resolution

/-!
# Line numbers for offsets

What resolving does to the program operand by operand. An operand is seen from the index of its instruction,
counted from zero, which is on the line after that index.

* `Instruction.Overshoots`: an operand leads back beyond the first line. Resolving fails exactly if there is
  one, and names the first (`resolveAll_eq_error`);
* `Instruction.ResolvesTo`: what an instruction becomes, target by target;
* `Machine.lineStep`: a step of a machine that goes by line numbers only. On the resolved program it takes the
  steps that `Machine.step` takes on the relative one (`Machine.lineStep_of_resolveAll`).

They are put together in `Instruction.resolveAll_exact`.
-/

namespace Cpl

variable {A : Arithmetic} {line index : Nat}

/-- The error of a list is that of its first element with one. -/
theorem except_mapM_eq_error {ε α β : Type} {f : α → Except ε β} {e : ε} {as : List α} :
    as.mapM f = .error e ↔ ∃ (k : Nat) (a : α), as[k]? = some a ∧ f a = .error e ∧
      ∀ j < k, ∀ a', as[j]? = some a' → ∃ b, f a' = .ok b := by
  induction as with
  | nil => simp [pure, Except.pure]
  | cons a as ih =>
    rw [List.mapM_cons]
    cases ha : f a with
    | error e' =>
      constructor
      · rintro ⟨⟩
        exact ⟨0, a, rfl, ha, fun j hj => absurd hj (Nat.not_lt_zero j)⟩
      · rintro ⟨k, a', hk, he, hbefore⟩
        cases k with
        | zero =>
          cases hk
          rw [ha] at he
          cases he
          rfl
        | succ k =>
          obtain ⟨b, hb⟩ := hbefore 0 (Nat.succ_pos k) a rfl
          rw [ha] at hb
          cases hb
    | ok b =>
      have htail : (do let bs ← as.mapM f; pure (b :: bs)) = Except.error e ↔
          as.mapM f = .error e := by
        cases as.mapM f <;> simp [bind, Except.bind, pure, Except.pure]
      refine htail.trans (ih.trans ⟨?_, ?_⟩)
      · rintro ⟨k, a', hk, he, hbefore⟩
        refine ⟨k + 1, a', hk, he, fun j hj x hx => ?_⟩
        cases j with
        | zero =>
          cases hx
          exact ⟨b, ha⟩
        | succ j => exact hbefore j (Nat.lt_of_succ_lt_succ hj) x hx
      · rintro ⟨k, a', hk, he, hbefore⟩
        cases k with
        | zero =>
          cases hk
          rw [ha] at he
          cases he
        | succ k =>
          exact ⟨k, a', hk, he, fun j hj x hx => hbefore (j + 1) (Nat.succ_lt_succ hj) x hx⟩

/-! ## Failures -/

theorem Operand.resolve_eq_error {o : Operand} {p : Problem} :
    o.resolve line = .error p ↔
      ∃ offset, o = .jump (.backward offset) ∧ line ≤ offset ∧
        p = .jumpBeforeFirstLine line offset := by
  cases o with
  | name slot => simp [resolve]
  | literal value => simp [resolve]
  | jump target =>
    cases target with
    | line number => simp [resolve, Target.resolve, Except.map]
    | forward offset => simp [resolve, Target.resolve, Except.map]
    | backward offset =>
      by_cases h : offset < line
      · simp [resolve, Target.resolve, Except.map, h, Nat.not_le.mpr h]
      · simp [resolve, Target.resolve, Except.map, h, Nat.le_of_not_lt h, eq_comm]

namespace Instruction

/-- Operand `m` of instruction `k` is a jump up by so many lines, which leads beyond the first line. -/
def Overshoots (is : List Instruction) (k m offset : Nat) : Prop :=
  ∃ i, is[k]? = some i ∧ i.operands[m]? = some (.jump (.backward offset)) ∧ k + 1 ≤ offset

theorem resolve_eq_error {i : Instruction} {p : Problem} :
    i.resolve line = .error p ↔
      ∃ m offset : Nat, i.operands[m]? = some (.jump (.backward offset)) ∧ line ≤ offset ∧
        p = .jumpBeforeFirstLine line offset ∧
        ∀ m' < m, ∀ o, i.operands[m']? = some o → o.Lands line := by
  cases i with
  | openBreak position => simp [resolve, operands]
  | quad opcode os =>
    have hmap : resolve line (quad opcode os) = .error p ↔
        os.mapM (Operand.resolve line) = .error p := by
      rw [resolve]
      cases os.mapM (Operand.resolve line) <;> simp [Except.map]
    simp only [hmap, except_mapM_eq_error, Operand.resolve_eq_error, Operand.resolve_eq_ok, operands,
      exists_eq_right]
    constructor
    · rintro ⟨m, _, hm, ⟨offset, rfl, hle, hp⟩, hbefore⟩
      exact ⟨m, offset, hm, hle, hp, hbefore⟩
    · rintro ⟨m, offset, hm, hle, hp, hbefore⟩
      exact ⟨m, _, hm, ⟨offset, rfl, hle, hp⟩, hbefore⟩

theorem resolveFrom_eq_mapM (is : List Instruction) :
    resolveFrom line is = (is.zipIdx line).mapM fun entry => entry.1.resolve entry.2 := by
  induction is generalizing line with
  | nil => rfl
  | cons i is ih =>
    rw [resolveFrom, List.zipIdx_cons, List.mapM_cons, ih]

/-- The error is that of the first instruction with one. -/
theorem resolveAll_eq_error {is : List Instruction} {p : Problem} :
    resolveAll is = .error p ↔
      ∃ (k : Nat) (i : Instruction), is[k]? = some i ∧ i.resolve (k + 1) = .error p ∧
        ∀ j < k, ∀ i', is[j]? = some i' → i'.Lands (j + 1) := by
  simp only [resolveAll, resolveFrom_eq_mapM, except_mapM_eq_error, List.getElem?_zipIdx,
    Option.map_eq_some_iff]
  constructor
  · rintro ⟨k, _, ⟨i, hi, rfl⟩, he, hbefore⟩
    rw [Nat.add_comm 1 k] at he
    refine ⟨k, i, hi, he, fun j hj i' hi' => ?_⟩
    obtain ⟨r, hr⟩ := hbefore j hj _ ⟨i', hi', rfl⟩
    rw [Nat.add_comm 1 j] at hr
    exact (resolve_eq_ok.mp hr).1
  · rintro ⟨k, i, hi, he, hbefore⟩
    refine ⟨k, _, ⟨i, hi, rfl⟩, by rwa [Nat.add_comm 1 k], ?_⟩
    rintro j hj _ ⟨i', hi', rfl⟩
    refine ⟨_, resolve_eq_ok.mpr ⟨?_, rfl⟩⟩
    rw [Nat.add_comm 1 j]
    exact hbefore j hj i' hi'

/-- An operand that overshoots leads nowhere. -/
theorem Overshoots.not_lands {is : List Instruction} {i : Instruction} {o : Operand} {k m offset : Nat}
    (h : Overshoots is k m offset) (hi : is[k]? = some i) (ho : i.operands[m]? = some o) :
    ¬ o.Lands (k + 1) := by
  obtain ⟨j, hj, hm, hle⟩ := h
  cases hi.symm.trans hj
  cases ho.symm.trans hm
  simp [Operand.Lands, Target.lands, Nat.not_lt.mpr hle]

/-- The operand reported is the first one that overshoots, by instructions and then by operands. -/
theorem first_overshoot_of_resolveAll {is : List Instruction} {p : Problem}
    (h : resolveAll is = .error p) :
    ∃ k m offset, p = .jumpBeforeFirstLine (k + 1) offset ∧ Overshoots is k m offset ∧
      ∀ k' m' offset', Overshoots is k' m' offset' → k < k' ∨ k = k' ∧ m ≤ m' := by
  obtain ⟨k, i, hi, he, hearlier⟩ := resolveAll_eq_error.mp h
  obtain ⟨m, offset, hm, hle, hp, hbefore⟩ := resolve_eq_error.mp he
  refine ⟨k, m, offset, hp, ⟨i, hi, hm, hle⟩, fun k' m' offset' h' => ?_⟩
  obtain ⟨i', hi', hm', -⟩ := id h'
  rcases Nat.lt_trichotomy k k' with hlt | rfl | hgt
  · exact .inl hlt
  · refine .inr ⟨rfl, Nat.le_of_not_lt fun hlt => ?_⟩
    cases hi.symm.trans hi'
    exact h'.not_lands hi hm' (hbefore m' hlt _ hm')
  · exact absurd (hearlier k' hgt i' hi' _ (List.mem_of_getElem? hm')) (h'.not_lands hi' hm')

theorem resolveAll_fails_iff {is : List Instruction} :
    (∃ p, resolveAll is = .error p) ↔ ∃ k m offset, Overshoots is k m offset := by
  constructor
  · rintro ⟨p, h⟩
    obtain ⟨k, m, offset, -, hover, -⟩ := first_overshoot_of_resolveAll h
    exact ⟨k, m, offset, hover⟩
  · rintro ⟨k, m, offset, hover⟩
    cases h : resolveAll is with
    | error p => exact ⟨p, rfl⟩
    | ok js =>
      -- in a program that is resolved every operand leads to a line
      obtain ⟨i, hi, hm, -⟩ := id hover
      have hlands := allFrom_iff.mp (resolveAll_eq_ok.mp h).1 k i hi
      rw [Nat.add_comm] at hlands
      exact absurd (hlands _ (List.mem_of_getElem? hm)) (hover.not_lands hi hm)

end Instruction

/-! ## Resolved programs -/

/-- What becomes of an operand of the instruction at the given index. -/
inductive Operand.ResolvesTo (index : Nat) : Operand → Operand → Prop
  | name (slot : String) : ResolvesTo index (.name slot) (.name slot)
  | literal (value : Literal) : ResolvesTo index (.literal value) (.literal value)
  | line (number : Nat) : ResolvesTo index (.jump (.line number)) (.jump (.line number))
  | forward (offset : Nat) :
      ResolvesTo index (.jump (.forward offset)) (.jump (.line (index + 1 + offset)))
  | backward {offset : Nat} : offset < index + 1 →
      ResolvesTo index (.jump (.backward offset)) (.jump (.line (index + 1 - offset)))

/-- What becomes of the instruction at the given index. -/
inductive Instruction.ResolvesTo (index : Nat) : Instruction → Instruction → Prop
  | quad {opcode : Opcode} {os os' : List Operand} : List.Forall₂ (Operand.ResolvesTo index) os os' →
      ResolvesTo index (.quad opcode os) (.quad opcode os')
  | openBreak (position : Position) : ResolvesTo index (.openBreak position) (.openBreak position)

theorem Operand.resolvesTo_settle {o : Operand} (h : o.Lands (index + 1)) :
    o.ResolvesTo index (o.settle (index + 1)) := by
  cases o with
  | name slot => exact .name slot
  | literal value => exact .literal value
  | jump target =>
    cases target with
    | line number => exact .line number
    | forward offset => exact .forward offset
    | backward offset =>
      by_cases hlt : offset < index + 1
      · simp only [settle, Target.settle, Target.lands, hlt, if_true, Option.map_some, Option.getD_some]
        exact .backward hlt
      · simp [Lands, Target.lands, hlt] at h

theorem Operand.isRelative_settle {o : Operand} (h : o.Lands line) :
    (o.settle line).isRelative = false := by
  cases o with
  | name slot => rfl
  | literal value => rfl
  | jump target =>
    obtain ⟨number, hnumber⟩ := Option.isSome_iff_exists.mp h
    simp [settle, Target.settle, hnumber, isRelative, Target.isResolved]

theorem Operand.settle_of_isRelative {o : Operand} (h : o.isRelative = false) :
    o.Lands line ∧ o.settle line = o := by
  cases o with
  | name slot => exact ⟨trivial, rfl⟩
  | literal value => exact ⟨trivial, rfl⟩
  | jump target =>
    cases target with
    | line number => exact ⟨rfl, rfl⟩
    | forward offset => cases h
    | backward offset => cases h

namespace Instruction

theorem resolvesTo_settle {i : Instruction} (h : i.Lands (index + 1)) :
    i.ResolvesTo index (i.settle (index + 1)) := by
  cases i with
  | openBreak position => exact .openBreak position
  | quad opcode os =>
    refine .quad (List.forall₂_map_right_iff.mpr (List.forall₂_same.mpr fun o ho => ?_))
    exact Operand.resolvesTo_settle (h o ho)

theorem hasRelativeJump_eq_false {i : Instruction} :
    i.hasRelativeJump = false ↔ ∀ o ∈ i.operands, o.isRelative = false := by
  simp [hasRelativeJump]

/-- A settled program has line numbers only. -/
theorem hasRelativeJump_settleFrom {is : List Instruction} (h : AllFrom Instruction.Lands line is) :
    ∀ i ∈ settleFrom line is, i.hasRelativeJump = false := by
  intro i hi
  obtain ⟨k, j, hj, rfl⟩ := mem_settleFrom hi
  rw [hasRelativeJump_eq_false, operands_settle]
  intro o ho
  obtain ⟨o', ho', rfl⟩ := List.mem_map.mp ho
  exact Operand.isRelative_settle (allFrom_iff.mp h k j hj o' ho')

theorem settle_of_hasRelativeJump {i : Instruction} (h : i.hasRelativeJump = false) :
    i.Lands line ∧ i.settle line = i := by
  rw [hasRelativeJump_eq_false] at h
  refine ⟨fun o ho => (Operand.settle_of_isRelative (h o ho)).1, ?_⟩
  cases i with
  | openBreak position => rfl
  | quad opcode os =>
    have hos : os.map (Operand.settle line) = os :=
      List.map_congr_left (g := id) (fun o ho => (Operand.settle_of_isRelative (h o ho)).2) |>.trans
        (List.map_id os)
    rw [settle, hos]

/-- A program with line numbers only is left as it is. -/
theorem resolveAll_of_hasRelativeJump {is : List Instruction}
    (h : ∀ i ∈ is, i.hasRelativeJump = false) : resolveAll is = .ok is := by
  refine resolveAll_eq_ok.mpr ⟨allFrom_iff.mpr fun k i hi => ?_, List.ext_getElem? fun k => ?_⟩
  · exact (settle_of_hasRelativeJump (h i (List.mem_of_getElem? hi))).1
  · rw [getElem?_settleFrom]
    cases hi : is[k]? with
    | none => rfl
    | some i => rw [Option.map_some, (settle_of_hasRelativeJump (h i (List.mem_of_getElem? hi))).2]

end Instruction

/-! ## Steps by line numbers -/

/-- The line that a target names, if it names one. -/
def Target.number? : Target → Option Nat
  | .line number => some number
  | _ => none

theorem Target.number?_of_isRelative (line : Nat) {t : Target} (h : (Operand.jump t).isRelative = false) :
    t.number? = t.lands line := by
  cases t with
  | line number => rfl
  | forward offset => cases h
  | backward offset => cases h

namespace Machine

open Instruction

/-- Executes the instruction on the current line. Jumps go by line numbers, and a relative jump cannot be
executed. -/
def lineStep (code : List Instruction) (s : State A) : Option (State A) :=
  match fetch code s.line with
  | some (.quad opcode operands) =>
    match opcode.exec s.world operands with
    | some (.on w) => some ⟨s.line + 1, w⟩
    | some (.jump target) => target.number?.map (⟨·, s.world⟩)
    | some .stop => none
    | none => none
  | some (.openBreak _) => none
  | none => none

/-- So many steps by line numbers. -/
def lineRun (code : List Instruction) : Nat → State A → Option (State A)
  | 0, s => some s
  | n + 1, s => (lineStep code s).bind (lineRun code n)

theorem mem_of_fetch {code : List Instruction} {n : Nat} {i : Instruction}
    (h : fetch code n = some i) : i ∈ code := by
  cases n with
  | zero => cases h
  | succ n => exact List.mem_of_getElem? h

/-- Where there are only line numbers, offsets play no part. -/
theorem lineStep_of_hasRelativeJump {code : List Instruction}
    (h : ∀ i ∈ code, i.hasRelativeJump = false) (s : State A) : lineStep code s = step code s := by
  unfold lineStep step
  cases hf : fetch code s.line with
  | none => rfl
  | some i =>
    cases i with
    | openBreak position => rfl
    | quad op os =>
      cases he : op.exec s.world os with
      | none => simp only [he]
      | some next =>
        cases next with
        | on w => simp only [he]
        | stop => simp only [he]
        | jump target =>
          have hmem : Operand.jump target ∈ os := by
            obtain ⟨-, rfl⟩ | ⟨-, condition, rfl⟩ := Opcode.eq_of_exec_jump he <;>
              exact List.mem_cons_self
          have hline := Target.number?_of_isRelative s.line
            (hasRelativeJump_eq_false.mp (h _ (mem_of_fetch hf)) _ hmem)
          simp only [he, hline]

/-- The two machines take the same steps, one on the relative program and one on the resolved one. -/
theorem lineStep_of_resolveAll {is js : List Instruction} (h : resolveAll is = .ok js) (s : State A) :
    lineStep js s = step is s := by
  obtain ⟨hlands, rfl⟩ := resolveAll_eq_ok.mp h
  rw [lineStep_of_hasRelativeJump (hasRelativeJump_settleFrom hlands), step_settleFrom]

theorem lineRun_of_resolveAll {is js : List Instruction} (h : resolveAll is = .ok js) (n : Nat)
    (s : State A) : lineRun js n s = run is n s := by
  induction n generalizing s with
  | zero => rfl
  | succ n ih =>
    rw [lineRun, run, lineStep_of_resolveAll h]
    exact Option.bind_congr fun s' _ => ih s'

end Machine

/-! ## The whole of it -/

/-- Resolving fails exactly if some operand leads back beyond the first line, and names the first one that
does. Otherwise each instruction becomes what it should at its index, no relative jump is left, a second
time changes nothing, and the machine that goes by line numbers runs on the result as the machine that
counts from the current line runs on the program itself. -/
theorem Instruction.resolveAll_exact (is : List Instruction) :
    ((∃ p, resolveAll is = .error p) ↔ ∃ k m offset, Overshoots is k m offset) ∧
    (∀ p, resolveAll is = .error p →
      ∃ k m offset, p = .jumpBeforeFirstLine (k + 1) offset ∧ Overshoots is k m offset ∧
        ∀ k' m' offset', Overshoots is k' m' offset' → k < k' ∨ k = k' ∧ m ≤ m') ∧
    ∀ js, resolveAll is = .ok js →
      js.length = is.length ∧
      (∀ (k : Nat) (i j : Instruction), is[k]? = some i → js[k]? = some j → i.ResolvesTo k j) ∧
      (∀ j ∈ js, j.hasRelativeJump = false) ∧
      resolveAll js = .ok js ∧
      ∀ (A : Arithmetic) (s : Machine.State A),
        Machine.lineStep js s = Machine.step is s ∧
          ∀ n, Machine.lineRun js n s = Machine.run is n s := by
  refine ⟨resolveAll_fails_iff, fun p => first_overshoot_of_resolveAll, fun js h => ?_⟩
  obtain ⟨hlands, hjs⟩ := resolveAll_eq_ok.mp h
  have hrelative : ∀ j ∈ js, j.hasRelativeJump = false := hjs ▸ hasRelativeJump_settleFrom hlands
  refine ⟨hjs ▸ length_settleFrom is, fun k i j hi hj => ?_, hrelative,
    resolveAll_of_hasRelativeJump hrelative, fun A s => ?_⟩
  · rw [hjs, getElem?_settleFrom, hi, Option.map_some, Nat.add_comm 1 k] at hj
    cases hj
    have hk := allFrom_iff.mp hlands k i hi
    rw [Nat.add_comm 1 k] at hk
    exact resolvesTo_settle hk
  · exact ⟨Machine.lineStep_of_resolveAll h s, fun n => Machine.lineRun_of_resolveAll h n s⟩

namespace Instruction

/-- Two jumps by offsets, one of them over a break that is still open, and one by its line. -/
def mixedJumps : List Instruction :=
  [.jumpIfZero (.forward 3) (.name "a"), .openBreak ⟨7, "prog.ou"⟩, .jump (.backward 2), .jump (.line 1)]

/-- The same jumps by their lines. -/
def mixedLines : List Instruction :=
  [.jumpIfZero (.line 4) (.name "a"), .openBreak ⟨7, "prog.ou"⟩, .jump (.line 1), .jump (.line 1)]

/-- Of two jumps beyond the first line, in one instruction, the first is at fault. -/
def farJumps : List Instruction :=
  [.quad .jump [.jump (.backward 0), .jump (.backward 1), .jump (.backward 4)], .jump (.backward 2)]

theorem mixedJumps_resolved_exactly :
    resolveAll mixedJumps = .ok mixedLines ∧ resolveAll mixedLines = .ok mixedLines ∧
      resolveAll farJumps = .error (.jumpBeforeFirstLine 1 1) ∧
      ∃ k m offset, Overshoots farJumps k m offset := by
  have hmixed : resolveAll mixedJumps = .ok mixedLines := rfl
  have hfar : resolveAll farJumps = .error (.jumpBeforeFirstLine 1 1) := rfl
  obtain ⟨-, -, -, hagain, -⟩ := (resolveAll_exact mixedJumps).2.2 _ hmixed
  exact ⟨hmixed, hagain, hfar, (resolveAll_exact farJumps).1.mp ⟨_, hfar⟩⟩

end Instruction

end Cpl
