import Cpl.Proofs.Allocation
import Cpl.Proofs.TwoRuns.Correspondence
import Cpl.Proofs.Typed

/-!
# Declarations that matter

What a program compiles to depends on its declarations only through the types of the names in its body and of
the names that temporaries could have. Two tables that agree on these names, and have the same counter, are
asked for the same temporaries (`Agrees.fresh`) and so agree ever after (`Agrees.temporary`).

`Program.compile_eq_of_scope` is the result. The order of the declarations, how they are grouped, and
declarations of names that are not used do not matter, then.
-/

namespace Cpl

/-- A name that the compilation of a body with the given names may ask for. -/
def Relevant (names : List String) (name : String) : Prop :=
  name ∈ names ∨ ∃ n, name = temporaryName n

namespace Symbols

variable {names : List String} {s s' : Symbols}

/-- The tables give the same answers on all that is relevant. -/
structure Agrees (names : List String) (s s' : Symbols) : Prop where
  counter : s'.counter = s.counter
  type? {name : String} : Relevant names name → s'.type? name = s.type? name

namespace Agrees

theorem get?_eq_none (h : Agrees names s s') {name : String} (hn : Relevant names name) :
    s'.get? name = none ↔ s.get? name = none := by
  have ht := h.type? hn
  rw [Symbols.type?, Symbols.type?] at ht
  rw [← Option.map_eq_none_iff, ht, Option.map_eq_none_iff]

theorem contains_temporaryName (h : Agrees names s s') (n : Nat) :
    s'.contains (temporaryName n) = s.contains (temporaryName n) := by
  rw [← isSome_get?, ← isSome_get?, Bool.eq_iff_iff, ← Option.ne_none_iff_isSome,
    ← Option.ne_none_iff_isSome, Ne, Ne, h.get?_eq_none (.inr ⟨n, rfl⟩)]

theorem finds (h : Agrees names s s') {n m : Nat} (hf : s.Finds n m) : s'.Finds n m := by
  induction hf with
  | here hn => exact .here ((h.contains_temporaryName _).trans hn)
  | next hn _ ih => exact .next ((h.contains_temporaryName _).trans hn) ih

/-- The search for a free number looks at names of temporaries only, and starts at the same one. -/
theorem free (h : Agrees names s s') : s'.free = s.free := by
  have hfinds := h.finds s.finds_free
  rw [← h.counter] at hfinds
  exact s'.finds_free.unique hfinds

theorem fresh (h : Agrees names s s') : s'.fresh = s.fresh :=
  congrArg temporaryName h.free

theorem temporary (h : Agrees names s s') (type : NumType) :
    Agrees names (s.temporary type).2 (s'.temporary type).2 := by
  refine ⟨congrArg (· + 1) h.free, fun {name} hn => ?_⟩
  rw [type?_temporary, type?_temporary, h.fresh, h.type? hn]

end Agrees

end Symbols

/-- The relevant names in the table are in use, and stand for themselves. -/
def Correspondence.unchanged (names : List String) : Correspondence id (· ∈ names) where
  InUse s name := Relevant names name ∧ s.get? name ≠ none
  Holds f s s' := f = id ∧ s.Agrees names s'
  lookup := by
    rintro _ s s' name ⟨rfl, h⟩ hn
    by_cases hs : s.get? name = none
    · exact .inl ⟨hs, (h.get?_eq_none (.inl hn)).mpr hs⟩
    · exact .inr ⟨⟨.inl hn, hs⟩, rfl⟩
  type? := by
    rintro _ s s' name ⟨rfl, h⟩ ⟨hn, hs⟩
    obtain ⟨symbol, hs⟩ := Option.ne_none_iff_exists'.mp hs
    have ht := Symbols.type?_of_get? hs
    exact ⟨symbol.type, ht, (h.type? hn).trans ht⟩
  inUse_temporary type h := ⟨h.1, (Symbols.grows_temporary _ type).get?_ne_none h.2⟩
  inUse_fresh s type := by
    rw [Symbols.get?_temporary, if_pos rfl]
    exact ⟨.inr ⟨s.free, rfl⟩, Option.some_ne_none _⟩
  temporary := by
    rintro _ s s' type ⟨rfl, h⟩
    exact ⟨id, ⟨rfl, h.temporary type⟩, h.fresh.symm, fun _ _ => rfl⟩

namespace Program

open Emit

variable {p p' : Program}

theorem agrees_of_declareAll {names : List String} {c c' : Compilation}
    (h : (declareAll p.declarations).Gives .start () c)
    (h' : (declareAll p'.declarations).Gives .start () c')
    (hscope : ∀ name, Relevant names name → p.scope name = p'.scope name) :
    c.symbols.Agrees names c'.symbols := by
  refine ⟨(frame_declareAll h').2.trans (frame_declareAll h).2.symm, fun {name} hn => ?_⟩
  rw [type?_of_declareAll h, type?_of_declareAll h', hscope name hn]

/-- Two programs with the same body, each without a name declared twice, whose declarations give the same
types to the names in the body and to the names of temporaries, and leave the same of these undeclared:
they compile to the same code with the same warnings, or are rejected alike. -/
theorem compile_eq_of_scope (hbody : p.body = p'.body)
    (hd : (p.declaredIdents.map Ident.name).Nodup) (hd' : (p'.declaredIdents.map Ident.name).Nodup)
    (hnames : ∀ name ∈ p.body.names, p.scope name = p'.scope name)
    (htemporaries : ∀ n, p.scope (temporaryName n) = p'.scope (temporaryName n)) :
    p.compile = p'.compile := by
  obtain ⟨c, hc⟩ := exists_gives_declareAll hd
  obtain ⟨c', hc'⟩ := exists_gives_declareAll hd'
  have hscope : ∀ name, Relevant p.body.names name → p.scope name = p'.scope name := by
    rintro name (hn | ⟨n, rfl⟩)
    · exact hnames name hn
    · exact htemporaries n
  have hw : (Correspondence.unchanged p.body.names).InStep ⟨id, c, c'⟩ :=
    ⟨⟨rfl, agrees_of_declareAll hc hc' hscope⟩,
      (frame_declareAll hc').1.trans (frame_declareAll hc).1.symm⟩
  have hrename : p'.body = p.body.rename id := by rw [Block.rename_id, hbody]
  rcases compile_twins hrename (fun _ hn => hn) hw hc hc' with
    ⟨error, he, he'⟩ | ⟨q, q', _, hq, hq', ⟨rfl, -⟩, hi, hwarn⟩
  · rw [he, he', Diagnostic.rename_id]
  · rw [funext Instruction.rename_id, List.map_id'] at hi
    obtain ⟨is, ws⟩ := q
    obtain ⟨is', ws'⟩ := q'
    obtain rfl : is' = is := hi
    obtain rfl : ws' = ws := hwarn
    rw [hq, hq']

/-- The program `x: int; y: float; t0: int;` with the body of `mixed`. -/
def plain : Program :=
  let span : Span := ⟨⟨0, "plain.ou"⟩, ⟨0, "plain.ou"⟩⟩
  ⟨[⟨[⟨"x", span⟩], .int, span⟩, ⟨[⟨"y", span⟩], .float, span⟩, ⟨[⟨"t0", span⟩], .int, span⟩],
    mixed.body⟩

/-- The program `spare, y: float; t0, x: int;` with the body of `mixed`. -/
def regrouped : Program :=
  let span : Span := ⟨⟨0, "regrouped.ou"⟩, ⟨0, "regrouped.ou"⟩⟩
  ⟨[⟨[⟨"spare", span⟩, ⟨"y", span⟩], .float, span⟩, ⟨[⟨"t0", span⟩, ⟨"x", span⟩], .int, span⟩],
    mixed.body⟩

/-- The only name of a temporary among these is `t0`, to which both give the same type. -/
theorem plain_compile_eq_regrouped :
    plain.body = regrouped.body ∧
    (plain.declaredIdents.map Ident.name).Nodup ∧ (regrouped.declaredIdents.map Ident.name).Nodup ∧
    (∀ name ∈ plain.body.names, plain.scope name = regrouped.scope name) ∧
    (∀ n, plain.scope (temporaryName n) = regrouped.scope (temporaryName n)) ∧
    plain.compile = regrouped.compile ∧ ∃ q, plain.compile = .ok q := by
  have hd : (plain.declaredIdents.map Ident.name).Nodup := by decide
  have hd' : (regrouped.declaredIdents.map Ident.name).Nodup := by decide
  have hnames : ∀ name ∈ plain.body.names, plain.scope name = regrouped.scope name := by decide
  have htemporaries : ∀ n, plain.scope (temporaryName n) = regrouped.scope (temporaryName n) := by
    intro n
    have hne : ∀ name ∈ ["x", "y", "spare"], (temporaryName n == name) = false := by
      intro name hname
      have hhead : name.toList.head? ≠ some 't' := by revert name; decide
      refine beq_eq_false_iff_ne.mpr fun h => hhead ?_
      rw [← h, toList_temporaryName, List.head?_cons]
    show List.lookup _ [("x", NumType.int), ("y", .float), ("t0", .int)] =
      List.lookup _ [("spare", .float), ("y", .float), ("t0", .int), ("x", .int)]
    simp only [List.lookup_cons, hne "x" (by decide), hne "y" (by decide), hne "spare" (by decide)]
  exact ⟨rfl, hd, hd', hnames, htemporaries, compile_eq_of_scope rfl hd hd' hnames htemporaries,
    _, rfl⟩

end Program

end Cpl
