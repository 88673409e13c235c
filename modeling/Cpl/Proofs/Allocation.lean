import Mathlib.Order.Bounds.Basic
import Cpl.Proofs.Declared

/-!
# Symbols over whole runs

What holds of the symbols after any sequence of calls that may add one.

* `Symbols.call`: a call, with its answer and the symbols it leaves; `Symbols.after` is a run of calls;
* `Symbols.call_cases`: all that a call can do, from which every invariant follows;
* `Symbols.Finds`: the search for a free number as a loop without a bound, which always ends;
* `Symbols.Sound`: the names are distinct, both counts are right, and every number below the counter
  is taken. A call keeps this (`Sound.call`), hence a run does (`Sound.after`);
* `Symbols.sound_after_calls`: all of it, and what the next call does, for every run from no symbols.
-/

namespace Cpl.Symbols

variable {s s' : Symbols} {declared : Nat}

/-! ## Calls -/

/-- A call that may add a symbol. -/
inductive Call where
  | declare (name : String) (type : NumType)
  | temporary (type : NumType)
  | temporaryLike (name : String)
deriving DecidableEq, Repr

/-- The answer to a call, which is a name if a temporary is asked for, and the symbols after it. -/
def call (s : Symbols) : Call → Except Problem (Option String) × Symbols
  | .declare name type =>
    match s.declare name type with
    | .ok s' => (.ok none, s')
    | .error problem => (.error problem, s)
  | .temporary type =>
    let (name, s') := s.temporary type
    (.ok (some name), s')
  | .temporaryLike name =>
    match s.temporaryLike name with
    | .ok (fresh, s') => (.ok (some fresh), s')
    | .error problem => (.error problem, s)

/-- The symbols after a run of calls. -/
def after (s : Symbols) : List Call → Symbols
  | [] => s
  | first :: rest => (s.call first).2.after rest

/-- The call fails. -/
def Refuses (s : Symbols) (call : Call) : Prop :=
  ∃ problem, (s.call call).1 = .error problem

/-- How many variables a call declares: one, or none if it fails or asks for a temporary. -/
def declaredBy (s : Symbols) : Call → Nat
  | .declare name type => if (s.declare name type).isOk then 1 else 0
  | .temporary _ => 0
  | .temporaryLike _ => 0

/-- How many of a run of calls are successful declarations. -/
def declaredAfter (s : Symbols) : List Call → Nat
  | [] => 0
  | first :: rest => s.declaredBy first + (s.call first).2.declaredAfter rest

theorem call_declare (s : Symbols) (name : String) (type : NumType) :
    s.call (.declare name type) =
      if s.contains name then (.error (.alreadyDeclared name), s)
      else (.ok none, s.withDeclared name type) := by
  rw [call, declare]
  by_cases h : s.contains name = true <;> simp [h, withDeclared]

theorem call_temporary (s : Symbols) (type : NumType) :
    s.call (.temporary type) = (.ok (some s.fresh), (s.temporary type).2) := rfl

/-- A temporary like a symbol is one of the symbol's type. -/
theorem call_temporaryLike (s : Symbols) (name : String) :
    s.call (.temporaryLike name) =
      match s.get? name with
      | some symbol => s.call (.temporary symbol.type)
      | none => (.error (.unknownVariable name), s) := by
  rw [call, temporaryLike, lookup]
  cases s.get? name <;> rfl

/-- All that a call can do. -/
theorem call_cases (s : Symbols) (call : Call) :
    (∃ problem, s.call call = (.error problem, s) ∧ s.declaredBy call = 0) ∨
    (∃ name type, s.contains name = false ∧
      s.call call = (.ok none, s.withDeclared name type) ∧ s.declaredBy call = 1) ∨
    (∃ type, s.call call = (.ok (some s.fresh), (s.temporary type).2) ∧
      s.declaredBy call = 0) := by
  cases call with
  | declare name type =>
    rw [call_declare, declaredBy, declare]
    by_cases h : s.contains name = true
    · exact .inl ⟨_, by rw [if_pos h], by rw [if_pos h]; rfl⟩
    · refine .inr (.inl ⟨name, type, Bool.not_eq_true _ ▸ h, by rw [if_neg h], ?_⟩)
      rw [if_neg h]
      rfl
  | temporary type => exact .inr (.inr ⟨type, call_temporary s type, rfl⟩)
  | temporaryLike name =>
    rw [call_temporaryLike]
    cases s.get? name with
    | none => exact .inl ⟨_, rfl, rfl⟩
    | some symbol => exact .inr (.inr ⟨symbol.type, call_temporary s symbol.type, rfl⟩)

/-- A call that fails changes nothing. -/
theorem call_snd_of_refuses {call : Call} (h : s.Refuses call) : (s.call call).2 = s := by
  obtain ⟨problem, hp⟩ := h
  rcases s.call_cases call with ⟨_, hc, _⟩ | ⟨_, _, _, hc, _⟩ | ⟨_, hc, _⟩ <;> rw [hc] at hp ⊢ <;>
    cases hp

theorem refuses_declare {name : String} {type : NumType} :
    s.Refuses (.declare name type) ↔ s.contains name = true := by
  rw [Refuses, call_declare]
  by_cases h : s.contains name = true <;> simp [h]

theorem refuses_temporaryLike {name : String} :
    s.Refuses (.temporaryLike name) ↔ s.contains name = false := by
  rw [Refuses, call_temporaryLike, ← get?_eq_none]
  cases s.get? name <;> simp [call_temporary]

/-! ## Symbols are kept -/

/-- A declared variable takes a name that no symbol has. -/
theorem get?_call (s : Symbols) (call : Call) {name : String} {symbol : Symbol}
    (h : s.get? name = some symbol) : (s.call call).2.get? name = some symbol := by
  rcases s.call_cases call with ⟨_, hc, _⟩ | ⟨_, type, hd, hc, _⟩ | ⟨type, hc, _⟩ <;> rw [hc]
  · exact h
  · rw [get?_withDeclared, if_neg, h]
    rintro rfl
    rw [get?_eq_none.mpr hd] at h
    cases h
  · exact (s.grows_temporary type).get? h

theorem get?_after (calls : List Call) {name : String} {symbol : Symbol}
    (h : s.get? name = some symbol) : (s.after calls).get? name = some symbol := by
  induction calls generalizing s with
  | nil => exact h
  | cons first rest ih => exact ih (s.get?_call first h)

/-! ## The search for a free number -/

/-- The search for a number whose name is free: it passes every number whose name is in use. -/
inductive Finds (s : Symbols) : Nat → Nat → Prop
  | here {n : Nat} : s.contains (temporaryName n) = false → s.Finds n n
  | next {n m : Nat} : s.contains (temporaryName n) = true → s.Finds (n + 1) m → s.Finds n m

namespace Finds

variable {n m : Nat}

theorem free (h : s.Finds n m) : s.contains (temporaryName m) = false := by
  induction h with
  | here h => exact h
  | next _ _ ih => exact ih

theorem taken (h : s.Finds n m) : ∀ k, n ≤ k → k < m → s.contains (temporaryName k) = true := by
  induction h with
  | here => omega
  | @next n m hn _ ih =>
    intro k hk hm
    rcases Nat.eq_or_lt_of_le hk with rfl | hlt
    · exact hn
    · exact ih k hlt hm

theorem le (h : s.Finds n m) : n ≤ m := by
  induction h with
  | here => exact Nat.le_refl _
  | next _ _ ih => omega

/-- The search ends at one number only. -/
theorem unique {m' : Nat} (h : s.Finds n m) (h' : s.Finds n m') : m = m' := by
  rcases Nat.lt_trichotomy m m' with hlt | heq | hgt
  · have := h'.taken m h.le hlt
    rw [h.free] at this
    cases this
  · exact heq
  · have := h.taken m' h'.le hgt
    rw [h'.free] at this
    cases this

end Finds

/-- If the number settled for is free, it is the one that the search ends at. -/
theorem finds_freeFrom {bound n : Nat}
    (h : s.contains (temporaryName (s.freeFrom bound n)) = false) :
    s.Finds n (s.freeFrom bound n) := by
  induction bound generalizing n with
  | zero => exact .here h
  | succ bound ih =>
    rw [freeFrom] at h ⊢
    split <;> rename_i hn
    · rw [if_pos hn] at h
      exact .next hn (ih h)
    · exact .here (Bool.not_eq_true _ ▸ hn)

/-- The search always ends, at the number of the next temporary. -/
theorem finds_free (s : Symbols) : s.Finds s.counter s.free :=
  finds_freeFrom s.contains_free

/-! ## Soundness -/

/-- The symbols are in order, `declared` of them being declared variables. -/
structure Sound (s : Symbols) (declared : Nat) : Prop where
  /-- No symbol is hidden by another one of its name. -/
  get?_name : ∀ symbol ∈ s.entries, s.get? symbol.name = some symbol
  temporaries : s.temporaries = s.entries.countP Symbol.isTemporary
  size : s.size = s.temporaries + declared
  /-- Every number below the counter is taken. -/
  taken : ∀ n < s.counter, s.contains (temporaryName n) = true

theorem sound_empty : empty.Sound 0 :=
  ⟨by simp [empty], rfl, rfl, by simp [empty]⟩

theorem name_ne_of_mem {name : String} (hn : s.contains name = false) {symbol : Symbol}
    (hs : symbol ∈ s.entries) : name ≠ symbol.name := by
  rintro rfl
  rw [contains_iff_mem.mpr (List.mem_map_of_mem hs)] at hn
  cases hn

theorem Sound.withDeclared (h : s.Sound declared) {name : String} (type : NumType)
    (hn : s.contains name = false) : (s.withDeclared name type).Sound (declared + 1) where
  get?_name := by
    intro symbol hs
    rw [get?_withDeclared]
    rcases List.mem_cons.mp hs with rfl | hs
    · exact if_pos rfl
    · rw [if_neg (name_ne_of_mem hn hs), h.get?_name symbol hs]
  temporaries := by simp [Symbols.withDeclared, h.temporaries]
  size := by
    have := h.size
    simp only [Symbols.size, Symbols.withDeclared, List.length_cons] at this ⊢
    omega
  taken := by
    intro n hlt
    have := h.taken n hlt
    simp only [contains, Symbols.withDeclared, List.any_cons] at this ⊢
    rw [this, Bool.or_true]

/-- The numbers up to the counter are taken, and so are those that the search has passed. -/
theorem Sound.taken_of_lt_free (h : s.Sound declared) {n : Nat} (hn : n < s.free) :
    s.contains (temporaryName n) = true := by
  rcases Nat.lt_or_ge n s.counter with hc | hc
  · exact h.taken n hc
  · exact s.finds_free.taken n hc hn

theorem Sound.temporary (h : s.Sound declared) (type : NumType) :
    (s.temporary type).2.Sound declared where
  get?_name := by
    intro symbol hs
    rw [get?_temporary]
    rcases List.mem_cons.mp hs with rfl | hs
    · exact if_pos rfl
    · rw [if_neg (name_ne_of_mem (get?_eq_none.mp s.get?_fresh) hs), h.get?_name symbol hs]
  temporaries := by simp [Symbols.temporary, h.temporaries]
  size := by
    have := h.size
    simp only [Symbols.size, Symbols.temporary, List.length_cons] at this ⊢
    omega
  taken := by
    intro n hlt
    rw [← isSome_get?, get?_temporary]
    split
    · rfl
    · rename_i hne
      have hfree : n ≠ s.free := fun heq => hne (heq ▸ rfl)
      have hle : n ≤ s.free := Nat.le_of_lt_succ hlt
      rw [isSome_get?]
      exact h.taken_of_lt_free (by omega)

/-- What one call keeps. -/
theorem Sound.call (h : s.Sound declared) (call : Call) :
    (s.call call).2.Sound (declared + s.declaredBy call) := by
  rcases s.call_cases call with ⟨_, hc, hd⟩ | ⟨name, type, hn, hc, hd⟩ | ⟨type, hc, hd⟩ <;>
    rw [hc, hd]
  · exact h
  · exact h.withDeclared type hn
  · exact h.temporary type

/-- What a run of calls keeps. -/
theorem Sound.after (h : s.Sound declared) (calls : List Call) :
    (s.after calls).Sound (declared + s.declaredAfter calls) := by
  induction calls generalizing s declared with
  | nil => exact h
  | cons first rest ih =>
    rw [declaredAfter, ← Nat.add_assoc]
    exact ih (h.call first)

/-- The next temporary has the least number whose name is free. -/
theorem Sound.isLeast_free (h : s.Sound declared) :
    IsLeast {n | s.contains (temporaryName n) = false} s.free := by
  refine ⟨s.contains_free, fun n hn => ?_⟩
  by_contra hlt
  have htaken := h.taken_of_lt_free (Nat.lt_of_not_le hlt)
  rw [hn] at htaken
  cases htaken

/-! ## Whole runs -/

/-- After any run of calls from no symbols: the symbols are in order; each remains as it is whatever
calls follow; the search for a free number ends, at the least one, whose name the next temporary takes
with the type asked for; a name that is not in use can be declared, and then has a symbol of the given type; and
a call fails exactly if it declares a name in use or asks for a temporary like a name not in use, and then
changes nothing. -/
theorem sound_after_calls (calls : List Call) :
    let s := empty.after calls
    s.Sound (empty.declaredAfter calls) ∧
    (∀ name symbol, s.get? name = some symbol →
      symbol.name = name ∧ ∀ more, (s.after more).get? name = some symbol) ∧
    (∀ type, ∃ n, (∀ m, s.Finds s.counter m ↔ m = n) ∧
      IsLeast {m | s.contains (temporaryName m) = false} n ∧
      (s.call (.temporary type)).1 = .ok (some (temporaryName n)) ∧
      (s.call (.temporary type)).2.get? (temporaryName n) = some ⟨temporaryName n, type, true⟩) ∧
    (∀ name type, s.contains name = false →
      (s.call (.declare name type)).1 = .ok none ∧
      (s.call (.declare name type)).2.get? name = some ⟨name, type, false⟩) ∧
    (∀ name type, s.Refuses (.declare name type) ↔ s.contains name = true) ∧
    (∀ name, s.Refuses (.temporaryLike name) ↔ s.contains name = false) ∧
    (∀ name symbol, s.get? name = some symbol →
      s.call (.temporaryLike name) = s.call (.temporary symbol.type)) ∧
    (∀ call, s.Refuses call → (s.call call).2 = s) := by
  intro s
  have sound : s.Sound (empty.declaredAfter calls) := by
    simpa using sound_empty.after calls
  refine ⟨sound, fun name symbol h => ⟨name_of_get? h, fun more => get?_after more h⟩,
    fun type => ⟨s.free, fun m => ?_, sound.isLeast_free, rfl, ?_⟩, fun name type h => ?_,
    fun _ _ => refuses_declare, fun _ => refuses_temporaryLike, fun name symbol h => ?_,
    fun _ => call_snd_of_refuses⟩
  · exact ⟨fun h => h.unique s.finds_free, fun h => h ▸ s.finds_free⟩
  · rw [call_temporary, get?_temporary]
    exact if_pos rfl
  · rw [call_declare, if_neg (Bool.not_eq_true _ ▸ h)]
    exact ⟨rfl, by rw [get?_withDeclared, if_pos rfl]⟩
  · rw [call_temporaryLike, h]

end Cpl.Symbols
