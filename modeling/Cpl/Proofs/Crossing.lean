import Cpl.Proofs.Flow
import Cpl.Proofs.Jumps
import Cpl.Proofs.Simulation.Placement

/-!
# Runs within a part of a program

`Within code first past s s'` is a run that executes only the lines from `first` up to, and without, `past`.

* `Within.congr`: such a run depends on these lines only;
* `Reaches.within`, `Within.leaves`: any run is within a part until it leaves it;
* `Placed.leaves`: emitted code is left to just past it, or by a break;
* `Within.store_eq`: slots that the lines of the part do not write are kept;
* `Placed.exists_within_iff`, `Placed.of_within`: what is known of the code of an expression at every place, and
  of whole runs, is true of the runs within it.
-/

namespace Cpl

/-- From its index, a target inside the code leads to a line of the code or to the one just past it. -/
theorem Target.Inside.line_mem {size n k m : Nat} {t : Target} (h : t.Inside k size)
    (hk : k < size) (hm : t.lands (n + k) = some m) : n ≤ m ∧ m ≤ n + size := by
  cases t with
  | line number => exact h.elim
  | forward offset =>
    obtain ⟨h₁, h₂⟩ := h
    cases hm
    omega
  | backward offset =>
    obtain ⟨h₁, h₂⟩ := h
    rw [Target.lands] at hm
    split at hm
    · cases hm
      omega
    · cases hm

namespace Instruction

theorem successors_jump (line : Nat) (target : Target) :
    (jump target).successors line = (target.lands line).toList := rfl

/-- After an instruction of contained code comes a line of the code, or the one just past it. -/
theorem Inside.mem_successors {size n k m : Nat} {i : Instruction} (h : i.Inside size k)
    (hk : k < size) (hm : m ∈ i.successors (n + k)) : n ≤ m ∧ m ≤ n + size := by
  unfold successors at hm
  split at hm
  · exact (h.target rfl).line_mem hk (Option.mem_toList.mp hm)
  · rcases List.mem_cons.mp hm with rfl | hm
    · omega
    · exact (h.target rfl).line_mem hk (Option.mem_toList.mp hm)
  case h_7 =>
    rw [List.mem_singleton.mp hm]
    omega
  all_goals cases hm

end Instruction

namespace Machine

open Instruction

variable {A : Arithmetic} {code code' part : List Instruction} {first past exit n : Nat}
  {s s' s'' : State A}

/-- The machine goes from the one state to the other and executes only lines from `first` up to, and
without, `past`. -/
inductive Within (code : List Instruction) (first past : Nat) : State A → State A → Prop
  | refl (s : State A) : Within code first past s s
  | head {s s' s'' : State A} : first ≤ s.line → s.line < past → step code s = some s' →
      Within code first past s' s'' → Within code first past s s''

namespace Within

theorem single (hf : first ≤ s.line) (hp : s.line < past) (h : step code s = some s') :
    Within code first past s s' :=
  .head hf hp h (.refl s')

theorem trans (h : Within code first past s s') (h' : Within code first past s' s'') :
    Within code first past s s'' := by
  induction h with
  | refl => exact h'
  | head hf hp hs _ ih => exact .head hf hp hs (ih h')

theorem reaches (h : Within code first past s s') : Reaches code s s' := by
  induction h with
  | refl s => exact .refl code s
  | head _ _ hs _ ih => exact .head hs ih

/-- Within a larger part. -/
theorem mono {first' past' : Nat} (h : Within code first past s s') (hf : first' ≤ first)
    (hp : past ≤ past') : Within code first' past' s s' := by
  induction h with
  | refl s => exact .refl s
  | head hf' hp' hs _ ih => exact .head (by omega) (by omega) hs ih

/-- The other lines of the program do not matter. -/
theorem congr (h : Within code first past s s')
    (hsame : ∀ line, first ≤ line → line < past → fetch code' line = fetch code line) :
    Within code' first past s s' := by
  induction h with
  | refl s => exact .refl s
  | @head s s' s'' hf hp hs _ ih =>
    refine .head hf hp ?_ ih
    rw [step, hsame s.line hf hp]
    exact hs

/-- From outside the part no line is executed. -/
theorem eq_of_outside (h : Within code first past s s') (hs : ¬ (first ≤ s.line ∧ s.line < past)) :
    s' = s := by
  cases h with
  | refl => rfl
  | head hf hp => exact absurd ⟨hf, hp⟩ hs

/-- The run is also within another part until it leaves that. -/
theorem leaves (first' past' : Nat) (h : Within code first past s s') :
    ∃ t, Within code first' past' s t ∧ Within code first past t s' ∧
      (t = s' ∨ ¬ (first' ≤ t.line ∧ t.line < past')) := by
  induction h with
  | refl s => exact ⟨s, .refl s, .refl s, .inl rfl⟩
  | @head s s₁ s' hf hp hs h ih =>
    by_cases hin : first' ≤ s.line ∧ s.line < past'
    · obtain ⟨t, hst, hts, ht⟩ := ih
      exact ⟨t, .head hin.1 hin.2 hs hst, hts, ht⟩
    · exact ⟨s, .refl s, .head hf hp hs h, .inr hin⟩

end Within

/-- The resolved program has the same runs. -/
theorem within_settleFrom :
    Within (settleFrom 1 code) first past s s' ↔ Within code first past s s' := by
  constructor
  · intro h
    induction h with
    | refl s => exact .refl s
    | head hf hp hs _ ih => exact .head hf hp (step_settleFrom code _ ▸ hs) ih
  · intro h
    induction h with
    | refl s => exact .refl s
    | head hf hp hs _ ih => exact .head hf hp ((step_settleFrom code _).trans hs) ih

/-- A run is within the part until it leaves it. -/
theorem Reaches.within (first past : Nat) (h : Reaches code s s') :
    ∃ t, Within code first past s t ∧ Reaches code t s' ∧
      (t = s' ∨ ¬ (first ≤ t.line ∧ t.line < past)) := by
  obtain ⟨n, hn⟩ := h
  induction n generalizing s with
  | zero =>
    cases hn
    exact ⟨s', .refl s', .refl code s', .inl rfl⟩
  | succ n ih =>
    by_cases hin : first ≤ s.line ∧ s.line < past
    · obtain ⟨s₁, hs, hn'⟩ := Option.bind_eq_some_iff.mp hn
      obtain ⟨t, hst, hts, ht⟩ := ih hn'
      exact ⟨t, .head hin.1 hin.2 hs hst, hts, ht⟩
    · exact ⟨s, .refl s, ⟨n + 1, hn⟩, .inr hin⟩

/-! ## The lines of placed code -/

/-- A line of placed code holds the instruction of the part, or a jump in the place of a break. -/
theorem Placed.line_cases (h : Placed code exit n part) {k : Nat} {i : Instruction}
    (hi : part[k]? = some i) :
    fetch code (n + k) = some i ∨ Goes code (n + k) exit := by
  induction part generalizing n k with
  | nil => cases hi
  | cons j part ih =>
    cases k with
    | zero =>
      cases hi
      cases i with
      | quad opcode operands => exact .inl h.1
      | openBreak position => exact .inr h.1
    | succ k =>
      rw [List.getElem?_cons_succ] at hi
      rw [show n + (k + 1) = n + 1 + k by omega]
      cases j with
      | quad opcode operands => exact ih h.2 hi
      | openBreak position => exact ih h.2 hi

/-- Without open breaks the lines are those of the part. -/
theorem Placed.fetch_eq (h : Placed code exit n part) (hopen : part.findSome? openBreak? = none)
    {line : Nat} (hf : n ≤ line) (hl : line < n + part.length) :
    fetch code line = part[line - n]? := by
  obtain ⟨k, rfl⟩ := Nat.exists_eq_add_of_le hf
  rw [Nat.add_sub_cancel_left]
  clear hf
  induction part generalizing n k with
  | nil =>
    rw [List.length_nil] at hl
    omega
  | cons j part ih =>
    rw [List.length_cons] at hl
    rw [List.findSome?_cons] at hopen
    cases j with
    | openBreak position => cases hopen
    | quad opcode operands =>
      cases k with
      | zero => exact h.1
      | succ k =>
        rw [show n + (k + 1) = n + 1 + k by omega, List.getElem?_cons_succ]
        exact ih h.2 hopen k (by omega)

/-- Control goes on in the part, at the line just past it, or where the breaks lead. -/
theorem Placed.line_of_step (hp : Placed code exit n part) (hc : Contained part)
    (hf : n ≤ s.line) (hl : s.line < n + part.length) (hs : step code s = some s') :
    n ≤ s'.line ∧ s'.line ≤ n + part.length ∨ s'.line = exit := by
  obtain ⟨i, hfetch, hm, -⟩ := follows_of_step hs
  obtain ⟨k, hk⟩ := Nat.exists_eq_add_of_le hf
  rw [hk] at hfetch hm hl
  have hk' : k < part.length := by omega
  obtain ⟨x, hx⟩ : ∃ x, part[k]? = some x := ⟨_, List.getElem?_eq_getElem hk'⟩
  rcases hp.line_cases hx with h | ⟨target, h, hlands⟩
  · rw [hfetch] at h
    cases h
    have hinside : i.Inside part.length k := by
      have := allFrom_iff.mp hc k i hx
      rwa [Nat.zero_add] at this
    exact .inl (hinside.mem_successors hk' hm)
  · rw [hfetch] at h
    cases h
    rw [successors_jump, hlands] at hm
    exact .inr (List.mem_singleton.mp hm)

/-- So contained code is left to just past it, or by a break. -/
theorem Placed.line_of_within (hp : Placed code exit n part) (hc : Contained part)
    (h : Within code n (n + part.length) s s')
    (hs : n ≤ s.line ∧ s.line ≤ n + part.length ∨ s.line = exit) :
    n ≤ s'.line ∧ s'.line ≤ n + part.length ∨ s'.line = exit := by
  induction h with
  | refl => exact hs
  | head hf hl hstep _ ih => exact ih (hp.line_of_step hc hf hl hstep)

/-- A run that comes to placed code is still in it, or has left it to just past it or by a break. -/
theorem Placed.leaves (hp : Placed code exit n part) (hc : Contained part) {w : World A}
    (h : Within code first past ⟨n, w⟩ s') :
    (n ≤ s'.line ∧ s'.line < n + part.length) ∨
      ∃ m w', (m = n + part.length ∨ m = exit) ∧ Within code n (n + part.length) ⟨n, w⟩ ⟨m, w'⟩ ∧
        Within code first past ⟨m, w'⟩ s' := by
  obtain ⟨⟨m, w'⟩, hst, hts, ht⟩ := h.leaves n (n + part.length)
  have hline := hp.line_of_within hc hst (.inl ⟨Nat.le_refl n, Nat.le_add_right n _⟩)
  by_cases hin : n ≤ m ∧ m < n + part.length
  · rcases ht with rfl | hout
    · exact .inl hin
    · exact absurd hin hout
  · refine .inr ⟨m, w', ?_, hst, hts⟩
    rcases hline with ⟨hm, hm'⟩ | hm
    · left
      have hm : n ≤ m := hm
      have hm' : m ≤ n + part.length := hm'
      omega
    · exact .inr hm

/-- A run that comes to placed code and stays before the end of that code stays in it, if breaks lead there
too. -/
theorem Placed.stays (hp : Placed code (n + part.length) n part) (hc : Contained part) {w : World A}
    (h : Within code first (n + part.length) ⟨n, w⟩ s') :
    Within code n (n + part.length) ⟨n, w⟩ s' := by
  obtain ⟨t, hst, hts, rfl | hout⟩ := h.leaves n (n + part.length)
  · exact hst
  · have hline := hp.line_of_within hc hst (.inl ⟨Nat.le_refl n, Nat.le_add_right n _⟩)
    rw [hts.eq_of_outside (by omega)]
    exact hst

/-! ## Slots that are kept -/

/-- A step changes no slot but the one that is written. -/
theorem store_of_step {slot : String} (h : step code s = some s')
    (hw : ∀ i, fetch code s.line = some i → i.written? ≠ some slot) :
    s'.world.store slot = s.world.store slot := by
  obtain ⟨i, hi, -, hrefill⟩ := follows_of_step h
  have heq := hrefill s.world.store fun _ _ => rfl
  have hsame : step code ⟨s.line, { s.world with store := s.world.store }⟩ = some s' := h
  rw [hsame] at heq
  have hworld : s'.world = s'.world.refill s.world.store i.written? :=
    congrArg State.world (Option.some.inj heq)
  calc s'.world.store slot = (s'.world.refill s.world.store i.written?).store slot := by rw [← hworld]
    _ = s.world.store slot := if_neg (hw i hi)

/-- Neither does a run within lines that do not write it. -/
theorem Within.store_eq {slot : String} (h : Within code first past s s')
    (hw : ∀ line, first ≤ line → line < past →
      ∀ i, fetch code line = some i → i.written? ≠ some slot) :
    s'.world.store slot = s.world.store slot := by
  induction h with
  | refl => rfl
  | head hf hp hs _ ih => exact ih.trans (store_of_step hs (hw _ hf hp))

/-- A run within placed code keeps the slots that the part does not write. -/
theorem Placed.store_eq (hp : Placed code exit n part) {slot : String}
    (hw : ∀ i ∈ part, i.written? ≠ some slot) (h : Within code n (n + part.length) s s') :
    s'.world.store slot = s.world.store slot := by
  refine h.store_eq fun line hf hl i hi => ?_
  obtain ⟨k, rfl⟩ := Nat.exists_eq_add_of_le hf
  have hk : k < part.length := by omega
  obtain ⟨x, hx⟩ : ∃ x, part[k]? = some x := ⟨_, List.getElem?_eq_getElem hk⟩
  rcases hp.line_cases hx with h | ⟨target, h, -⟩
  · rw [hi] at h
    cases h
    exact hw i (List.mem_of_getElem? hx)
  · rw [hi] at h
    cases h
    exact nofun

/-! ## A part on its own -/

/-- The part after so many lines, with a halt on every other line up to the one after it. -/
def framed (before : Nat) (part : List Instruction) : List Instruction :=
  List.replicate before .halt ++ part ++ [.halt]

section

variable {k : Nat}

theorem placed_framed (hopen : part.findSome? openBreak? = none) :
    Placed (framed k part) 0 (k + 1) part := by
  have hp := placed_of_findSome?_eq_none (List.replicate k .halt) [.halt] 0 hopen
  rwa [List.length_replicate] at hp

theorem fetch_framed_past (part : List Instruction) :
    fetch (framed k part) (k + 1 + part.length) = some .halt := by
  have hf := fetch_append_length (List.replicate k .halt ++ part) .halt []
  rw [List.length_append, List.length_replicate, Nat.add_right_comm] at hf
  exact hf

theorem fetch_framed_outside {line : Nat} {i : Instruction}
    (h : ¬ (k + 1 ≤ line ∧ line < k + 1 + part.length))
    (hi : fetch (framed k part) line = some i) : i = .halt := by
  cases line with
  | zero => cases hi
  | succ n =>
    rw [fetch, framed, List.append_assoc] at hi
    have hlength : (List.replicate k Instruction.halt).length = k := List.length_replicate
    by_cases hn : n < k
    · rw [List.getElem?_append_left (by omega)] at hi
      exact List.eq_of_mem_replicate (List.mem_of_getElem? hi)
    · rw [List.getElem?_append_right (by omega), List.getElem?_append_right (by omega)] at hi
      exact List.mem_singleton.mp (List.mem_of_getElem? hi)

/-- Outside the part nothing comes after a line. -/
theorem step_framed (h : ¬ (k + 1 ≤ s.line ∧ s.line < k + 1 + part.length)) :
    step (framed k part) s = none := by
  cases hi : fetch (framed k part) s.line with
  | none => simp only [step, hi]
  | some i =>
    obtain rfl := fetch_framed_outside h hi
    exact AtHalt.step_eq_none hi

theorem Reaches.eq_of_step_eq_none (h : Reaches code s s') (hs : step code s = none) : s' = s := by
  obtain ⟨n, hn⟩ := h
  cases n with
  | zero =>
    cases hn
    rfl
  | succ n =>
    rw [run, hs] at hn
    cases hn

variable {w w' : World A}

/-- The code around the part does not matter. -/
theorem Placed.within_iff_reaches_framed (hp : Placed code exit (k + 1) part)
    (hopen : part.findSome? openBreak? = none) :
    Within code (k + 1) (k + 1 + part.length) ⟨k + 1, w⟩ ⟨k + 1 + part.length, w'⟩ ↔
      Reaches (framed k part) ⟨k + 1, w⟩ ⟨k + 1 + part.length, w'⟩ := by
  have hsame (line : Nat) (hf : k + 1 ≤ line) (hl : line < k + 1 + part.length) :
      fetch (framed k part) line = fetch code line := by
    rw [hp.fetch_eq hopen hf hl, (placed_framed hopen).fetch_eq hopen hf hl]
  constructor
  · intro h
    exact (h.congr hsame).reaches
  · intro h
    obtain ⟨t, hst, hts, ht⟩ := h.within (k + 1) (k + 1 + part.length)
    have heq : t = ⟨k + 1 + part.length, w'⟩ := by
      rcases ht with ht | hout
      · exact ht
      · exact (hts.eq_of_step_eq_none (step_framed hout)).symm
    subst heq
    exact hst.congr fun line hf hl => (hsame line hf hl).symm

variable {α : Type} {right : α → World A → Prop} {result : Option α}

/-- Code that, wherever it stands, yields a result at its end: a run through it has the result. -/
theorem Placed.of_within (hp : Placed code exit (k + 1) part)
    (hopen : part.findSome? openBreak? = none)
    (h : ∀ {code : List Instruction} {exit n : Nat}, Placed code exit n part →
      Yields code n w (fun a m w' => m = n + part.length ∧ right a w') result)
    (hw : Within code (k + 1) (k + 1 + part.length) ⟨k + 1, w⟩ ⟨k + 1 + part.length, w'⟩) :
    ∃ a, result = some a ∧ right a w' := by
  have hhalts : Halts (framed k part) ⟨k + 1, w⟩ w' :=
    ⟨_, (hp.within_iff_reaches_framed hopen).mp hw, fetch_framed_past part⟩
  obtain ⟨j, hj⟩ := hhalts.haltsIn
  have hyields := h (placed_framed (k := k) hopen)
  obtain ⟨a, -, -, ha, -⟩ := hyields.of_haltsIn hj
  rw [ha] at hyields
  obtain ⟨_, w₁, hr, rfl, hright⟩ := hyields.reaches
  obtain rfl := hhalts.unique ⟨_, hr, fetch_framed_past part⟩
  exact ⟨a, ha, hright⟩

/-- It is run through exactly if there is a result. -/
theorem Placed.exists_within_iff (hp : Placed code exit (k + 1) part)
    (hopen : part.findSome? openBreak? = none)
    (h : ∀ {code : List Instruction} {exit n : Nat}, Placed code exit n part →
      Yields code n w (fun a m w' => m = n + part.length ∧ right a w') result) :
    (∃ w', Within code (k + 1) (k + 1 + part.length) ⟨k + 1, w⟩ ⟨k + 1 + part.length, w'⟩) ↔
      result ≠ none := by
  constructor
  · rintro ⟨w', hw⟩
    obtain ⟨a, ha, -⟩ := hp.of_within hopen h hw
    rw [ha]
    exact Option.some_ne_none a
  · intro hresult
    obtain ⟨a, ha⟩ := Option.ne_none_iff_exists'.mp hresult
    have hyields := h (placed_framed (k := k) hopen)
    rw [ha] at hyields
    obtain ⟨_, w', hr, rfl, -⟩ := hyields.reaches
    exact ⟨w', (hp.within_iff_reaches_framed hopen).mpr hr⟩

end

end Machine

end Cpl
