import Mathlib.Logic.Equiv.Basic
import Cpl.Proofs.TwoRuns.Correspondence
import Cpl.Proofs.Typed

/-!
# Compilation under other names

A program and the same program with its declared names changed compile alike, whatever the new names are.
They may be names of the form `t0`, `t1` and so on, which temporaries then have to give way to, so the
temporaries of the two compilations differ. The tables of symbols are related by a permutation of all names
that is corrected with each temporary: where it sent the new temporary elsewhere, two of its values are
swapped, and neither of them was in use (`Renames.temporary`).

`Program.compile_rename` is the result, with a program whose variables take the names of temporaries.
-/

namespace Cpl

/-! ## Permutations of names -/

/-- The permutation with its values at two places exchanged, so that `a` goes to `b`. -/
def redirect (π : Equiv.Perm String) (a b : String) : Equiv.Perm String :=
  π.trans (Equiv.swap (π a) b)

theorem redirect_self (π : Equiv.Perm String) (a b : String) : redirect π a b a = b :=
  Equiv.swap_apply_left (π a) b

theorem redirect_of_ne {π : Equiv.Perm String} {a b name : String} (ha : name ≠ a)
    (hb : π name ≠ b) : redirect π a b name = π name :=
  Equiv.swap_apply_of_ne_of_ne (fun h => ha (π.injective h)) hb

/-- A renaming that tells some names apart does to them what a permutation of all names does. -/
theorem exists_perm_eq {r : String → String} (names : List String)
    (hr : ∀ a ∈ names, ∀ b ∈ names, r a = r b → a = b) :
    ∃ π : Equiv.Perm String, ∀ name ∈ names, π name = r name := by
  induction names with
  | nil => exact ⟨Equiv.refl String, fun _ h => (List.not_mem_nil h).elim⟩
  | cons first rest ih =>
    obtain ⟨π, hπ⟩ := ih fun a ha b hb =>
      hr a (List.mem_cons_of_mem first ha) b (List.mem_cons_of_mem first hb)
    refine ⟨redirect π first (r first), fun name hname => ?_⟩
    by_cases hf : name = first
    · rw [hf, redirect_self]
    · have hm : name ∈ rest := (List.mem_cons.mp hname).resolve_left hf
      rw [redirect_of_ne hf, hπ name hm]
      rw [hπ name hm]
      exact fun h => hf (hr name hname first List.mem_cons_self h)

/-! ## Tables -/

def Symbol.withName (symbol : Symbol) (name : String) : Symbol :=
  { symbol with name }

theorem declaredSymbol_map {r : String → String} (π : Equiv.Perm String)
    {declared : List (String × NumType)} (h : ∀ entry ∈ declared, π entry.1 = r entry.1)
    (name : String) :
    declaredSymbol (declared.map fun entry => (r entry.1, entry.2)) (π name) =
      (declaredSymbol declared name).map (Symbol.withName · (π name)) := by
  induction declared with
  | nil => rfl
  | cons first rest ih =>
    obtain ⟨hf, hr⟩ := List.forall_mem_cons.mp h
    rw [List.map_cons, declaredSymbol_cons, declaredSymbol_cons, ih hr, ← hf]
    by_cases hn : first.1 = name
    · rw [if_pos hn, if_pos (congrArg π hn)]
      rfl
    · rw [if_neg hn, if_neg fun hp => hn (π.injective hp)]

/-- The second table is the first one under other names. The declared names are there, and have become what
the renaming makes of them. -/
structure Renames (r : String → String) (declared : String → Prop) (π : Equiv.Perm String)
    (s s' : Symbols) : Prop where
  get? (name : String) : s'.get? (π name) = (s.get? name).map (Symbol.withName · (π name))
  ne_none {name : String} : declared name → s.get? name ≠ none
  eq {name : String} : declared name → π name = r name

namespace Renames

variable {r : String → String} {declared : String → Prop} {π : Equiv.Perm String} {s s' : Symbols}

theorem eq_none_iff (h : Renames r declared π s s') {name : String} :
    s'.get? (π name) = none ↔ s.get? name = none := by
  rw [h.get?, Option.map_eq_none_iff]

theorem type? (h : Renames r declared π s s') (name : String) :
    s'.type? (π name) = s.type? name := by
  rw [Symbols.type?, h.get?, Option.map_map]
  rfl

theorem hasTemporary (h : Renames r declared π s s') (name : String) :
    s.hasTemporary name = s'.hasTemporary (π name) := by
  rw [Symbols.hasTemporary, Symbols.hasTemporary, h.get?, Option.any_map]
  rfl

/-- A name in use is neither of the two whose values are exchanged. -/
theorem redirect_fresh (h : Renames r declared π s s') {name : String} (hn : s.get? name ≠ none) :
    redirect π s.fresh s'.fresh name = π name := by
  apply redirect_of_ne
  · rintro rfl
    exact hn s.get?_fresh
  · intro hp
    exact hn (h.eq_none_iff.mp (by rw [hp, s'.get?_fresh]))

theorem temporary (h : Renames r declared π s s') (type : NumType) :
    Renames r declared (redirect π s.fresh s'.fresh) (s.temporary type).2 (s'.temporary type).2 := by
  refine ⟨fun name => ?_, fun hd => ?_, fun hd => ?_⟩
  · by_cases hf : s.fresh = name
    · subst hf
      rw [redirect_self, Symbols.get?_temporary, Symbols.get?_temporary, if_pos rfl, if_pos rfl]
      rfl
    -- only the first fresh name goes to the second one
    have hf' : s'.fresh ≠ redirect π s.fresh s'.fresh name := by
      intro he
      exact hf ((redirect π s.fresh s'.fresh).injective ((redirect_self π _ _).trans he))
    rw [Symbols.get?_temporary, Symbols.get?_temporary, if_neg hf, if_neg hf']
    by_cases hn : s.get? name = none
    · -- the name goes to where it went or to where the fresh name did, and neither was in use
      rw [hn, Option.map_none]
      by_cases hp : π name = s'.fresh
      · have hs : redirect π s.fresh s'.fresh name = π s.fresh := by
          rw [redirect, Equiv.trans_apply, hp, Equiv.swap_apply_right]
        rw [hs]
        exact h.eq_none_iff.mpr s.get?_fresh
      · rw [redirect_of_ne (Ne.symm hf) hp]
        exact h.eq_none_iff.mpr hn
    · rw [h.redirect_fresh hn, h.get?]
  · exact (s.grows_temporary type).get?_ne_none (h.ne_none hd)
  · rw [h.redirect_fresh (h.ne_none hd), h.eq hd]

end Renames

/-- All names in the table are in use, and the tables are related by a permutation. -/
def Correspondence.renamed (r : String → String) (declared : String → Prop) : Correspondence r declared where
  InUse s name := s.get? name ≠ none
  Holds f s s' := ∃ π : Equiv.Perm String, f = π ∧ Renames r declared π s s'
  lookup := by
    rintro _ s s' name ⟨π, rfl, h⟩ hd
    exact .inr ⟨h.ne_none hd, h.eq hd⟩
  type? := by
    rintro _ s s' name ⟨π, rfl, h⟩ hn
    obtain ⟨symbol, hs⟩ := Option.ne_none_iff_exists'.mp hn
    have ht := Symbols.type?_of_get? hs
    exact ⟨symbol.type, ht, (h.type? name).trans ht⟩
  inUse_temporary type hn := (Symbols.grows_temporary _ type).get?_ne_none hn
  inUse_fresh s type := by
    rw [Symbols.get?_temporary, if_pos rfl]
    exact Option.some_ne_none _
  temporary := by
    rintro _ s s' type ⟨π, rfl, h⟩
    exact ⟨_, ⟨_, rfl, h.temporary type⟩, redirect_self .., fun name hn => h.redirect_fresh hn⟩

/-! ## Programs -/

namespace Program

open Emit

variable {p : Program} {r : String → String}

theorem map_fst_declared (p : Program) :
    p.declared.map Prod.fst = p.declaredIdents.map Ident.name := by
  simp [declared, declaredIdents, List.map_flatMap, Function.comp_def]

theorem nodup_declaredIdents_rename (hd : (p.declaredIdents.map Ident.name).Nodup)
    (hr : ∀ a b, p.Declares a → p.Declares b → r a = r b → a = b) :
    ((p.rename r).declaredIdents.map Ident.name).Nodup := by
  rw [← map_fst_declared] at hd
  rw [declaredIdents_rename, ← map_fst_declared]
  exact hd.map_on fun a ha b hb => hr a b ha hb

/-- The declarations of the two programs leave tables that are the same up to names. -/
theorem exists_renames (hr : ∀ a b, p.Declares a → p.Declares b → r a = r b → a = b)
    {c c' : Compilation} (h : (declareAll p.declarations).Gives .start () c)
    (h' : (declareAll (p.rename r).declarations).Gives .start () c') :
    ∃ π, Renames r p.Declares π c.symbols c'.symbols := by
  obtain ⟨π, hπ⟩ := exists_perm_eq (p.declared.map Prod.fst) fun a ha b hb => hr a b ha hb
  refine ⟨π, fun name => ?_, fun {name} hd hn => ?_, fun hd => hπ _ hd⟩
  · rw [get?_of_declareAll h, get?_of_declareAll h', declared_rename]
    exact declaredSymbol_map π (fun entry he => hπ entry.1 (List.mem_map_of_mem he)) name
  · have hs := type?_of_declareAll h name
    rw [Symbols.type?, hn] at hs
    have hd := isSome_scope.mpr hd
    rw [← hs] at hd
    cases hd

/-- Compilation commutes with a renaming that keeps the declared names apart: both programs are rejected, at
the same place and for the same reason up to names, or the code of the second is that of the first under a
permutation of names, which does to the declared names what the renaming does and takes temporaries to
temporaries. -/
theorem compile_rename (hd : (p.declaredIdents.map Ident.name).Nodup) (hp : p.UsesDeclared)
    (hr : ∀ a b, p.Declares a → p.Declares b → r a = r b → a = b) :
    (∃ error, p.compile = .error error ∧ (p.rename r).compile = .error (error.rename r)) ∨
    ∃ q q', p.compile = .ok q ∧ (p.rename r).compile = .ok q' ∧
      ∃ π : Equiv.Perm String, (∀ name, p.Declares name → π name = r name) ∧
        (∀ name, p.finalSymbols.hasTemporary name =
          (p.rename r).finalSymbols.hasTemporary (π name)) ∧
        q'.instructions = q.instructions.map (Instruction.rename π) ∧
        q'.warnings = q.warnings := by
  obtain ⟨c, hc⟩ := exists_gives_declareAll hd
  obtain ⟨c', hc'⟩ := exists_gives_declareAll (nodup_declaredIdents_rename hd hr)
  obtain ⟨π, hπ⟩ := exists_renames hr hc hc'
  have hw : (Correspondence.renamed r p.Declares).InStep ⟨π, c, c'⟩ :=
    ⟨⟨π, rfl, hπ⟩, (frame_declareAll hc').1.trans (frame_declareAll hc).1.symm⟩
  rcases compile_twins rfl hp hw hc hc' with herror | ⟨q, q', _, hq, hq', ⟨σ, rfl, hσ⟩, hi, hwarn⟩
  · exact .inl herror
  · exact .inr ⟨q, q', hq, hq', σ, fun name hn => hσ.eq hn, hσ.hasTemporary, hi, hwarn⟩

/-- Sends `x` and `y` to names that temporaries have while they are still called so. -/
def crossing (name : String) : String :=
  if name = "x" then "t1" else "t0"

/-- The variable `t0` of the second program stands for `y`, and the temporary `t0` of the first one has become
another. -/
theorem mixed_compile_rename :
    (mixed.declaredIdents.map Ident.name).Nodup ∧ mixed.UsesDeclared ∧
    (∀ a b, mixed.Declares a → mixed.Declares b → crossing a = crossing b → a = b) ∧
    (mixed.finalSymbols.hasTemporary "t0" ∧
      ¬ (mixed.rename crossing).finalSymbols.hasTemporary "t0") ∧
    ∃ q q', mixed.compile = .ok q ∧ (mixed.rename crossing).compile = .ok q' ∧
      ∃ π : Equiv.Perm String, (∀ name, mixed.Declares name → π name = crossing name) ∧
        (∀ name, mixed.finalSymbols.hasTemporary name =
          (mixed.rename crossing).finalSymbols.hasTemporary (π name)) ∧
        q'.instructions = q.instructions.map (Instruction.rename π) ∧
        q'.warnings = q.warnings := by
  have hd : (mixed.declaredIdents.map Ident.name).Nodup := by decide
  have hp : mixed.UsesDeclared := by decide
  have hr : ∀ a b, mixed.Declares a → mixed.Declares b → crossing a = crossing b → a = b := by
    have hlist : ∀ a ∈ ["x", "y"], ∀ b ∈ ["x", "y"], crossing a = crossing b → a = b := by decide
    exact fun a b ha hb => hlist a ha b hb
  refine ⟨hd, hp, hr, ⟨by decide, by decide⟩, ?_⟩
  rcases compile_rename hd hp hr with ⟨error, he, -⟩ | h
  · obtain ⟨q, hq⟩ : ∃ q, mixed.compile = .ok q := ⟨_, rfl⟩
    rw [hq] at he
    cases he
  · exact h

end Program

end Cpl
