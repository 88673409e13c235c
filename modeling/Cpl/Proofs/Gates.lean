import Cpl.Proofs.Crossing
import Cpl.Proofs.Preservation
import Cpl.Proofs.Writes

/-!
# The gates of a switch

The cases of a switch are tested one after the other, also after the body of one has been run. Each test ends with
a conditional jump over the body, the gate of the case (`Gates`). For a selector of type INT, every gate that is
reached tests the selector as it is then (`Arms.atGate`). This is proved by induction on the cases: from the test of
a case, control is in the test, in the body, past the switch, or comes to the next test with only the targets of the
body changed (`Arms.within_cases`).
-/

namespace Cpl

open Emit Machine Arithmetic

variable {A : Arithmetic} {Γ : Scope} {code : List Instruction}

/-- The label of a case, the line of the conditional jump that leads over its body, and the line just past the
body. -/
structure Gate where
  label : Literal
  line : Nat
  stop : Nat

/-- The gates of the cases, which are emitted on `c` and whose code starts on line `a`. -/
inductive Gates (operand : Operand) : List Case → Compilation → Nat → List Gate → Prop
  | nil {c : Compilation} {a : Nat} : Gates operand [] c a []
  | cons {first : Case} {rest : List Case} {c c₁ c₂ : Compilation} {a : Nat}
      {body test : List Instruction} {gates : List Gate} :
      first.body.emit.Gives (c.withTemporary .int) body c₁ →
      (caseTest operand first.label c.symbols.fresh body.length first.span.start).Gives c₁ test c₂ →
      Gates operand rest c₂ (a + test.length + body.length) gates →
      Gates operand (first :: rest) c a
        (⟨first.label, a + test.length - 1, a + test.length + body.length⟩ :: gates)

section

variable {operand : Operand} {cases : List Case} {c c' : Compilation} {part : List Instruction}
  {gates : List Gate}

theorem exists_gates (h : (emitCases operand cases).Gives c part c') (a : Nat) :
    ∃ gates, Gates operand cases c a gates := by
  induction cases generalizing c part a with
  | nil => exact ⟨[], .nil⟩
  | cons first rest ih =>
    obtain ⟨body, c₁, test, c₂, more, hb, ht, hm, rfl⟩ := gives_cases_cons.mp h
    obtain ⟨gates, hg⟩ := ih hm (a + test.length + body.length)
    exact ⟨_, .cons hb ht hg⟩

theorem Gates.labels {a : Nat} (h : Gates operand cases c a gates) :
    gates.map Gate.label = cases.map Case.label := by
  induction h with
  | nil => rfl
  | cons _ _ _ ih => rw [List.map_cons, List.map_cons, ih]

/-- The gates and the bodies are in the code, behind its first line. -/
theorem Gates.line_mem {a : Nat} (h : Gates operand cases c a gates)
    (he : (emitCases operand cases).Gives c part c') {gate : Gate} (hg : gate ∈ gates) :
    a < gate.line ∧ gate.line < gate.stop ∧ gate.stop ≤ a + part.length := by
  induction h generalizing part with
  | nil => cases hg
  | @cons first rest c c₁ c₂ a body test gates hb ht _ ih =>
    obtain ⟨body', _, test', _, more, hb', ht', hm, rfl⟩ := gives_cases_cons.mp he
    obtain ⟨rfl, rfl⟩ := hb.unique hb'
    obtain ⟨rfl, rfl⟩ := ht.unique ht'
    obtain ⟨pair, -, rfl⟩ := gives_caseTest.mp ht
    simp only [List.length_append, List.length_singleton] at ih hg ⊢
    rcases List.mem_cons.mp hg with rfl | hg
    · refine ⟨?_, ?_, ?_⟩
      all_goals
        simp only
        omega
    · have := ih hm hg
      exact ⟨by omega, by omega, by omega⟩

end

/-- The machine is at a conditional jump and does not take it. -/
def Machine.PassesOn (code : List Instruction) (s : State A) : Prop :=
  ∃ operands, fetch code s.line = some (.quad .jumpIfZero operands) ∧
    Opcode.jumpIfZero.exec s.world operands = some (.on s.world)

/-! ## One case -/

/-- Two INT operands are compared as they are. -/
theorem gives_widenPair_int {operand : Operand} {label : Literal} {position : Position} {pair : Pair}
    {c c' : Compilation} (h : (widenPair operand (.literal label) position).Gives c pair c')
    (ho : c.symbols.typeOf operand = .ok .int) (hl : label.type = .int) :
    c' = c ∧ pair = ⟨[], operand, .literal label, .int⟩ := by
  obtain ⟨lt, rt, l, d, r, hlt, hrt, hgl, hgr, rfl⟩ := gives_widenPair.mp h
  obtain rfl : lt = .int := Except.ok.inj (hlt.symm.trans ho)
  obtain rfl : rt = .int := (Except.ok.inj hrt).symm.trans hl
  rcases gives_widenTo.mp hgl with ⟨-, rfl, rfl⟩ | ⟨hne, -⟩
  · rcases gives_widenTo.mp hgr with ⟨-, rfl, rfl⟩ | ⟨hne, -⟩
    · exact ⟨rfl, rfl⟩
    · exact absurd rfl hne
  · exact absurd rfl hne

namespace Selector

variable {selector : Selector A}

/-- The variable that is read anew, if the selector is one. -/
def name? : Selector A → Option String
  | .named name => some name
  | .value _ => none

/-- What is read depends on that variable only. -/
theorem read_congr {σ τ : A.Store} (h : ∀ name, selector.name? = some name → τ name = σ name) :
    selector.read Γ τ = selector.read Γ σ := by
  cases selector with
  | value v => rfl
  | named name => rw [read, read, lookup?, lookup?, h name rfl]

end Selector

/-- The symbols keep their contents, the targets apart. -/
structure KeepsBut (s : Symbols) (targets : List String) (w w' : World A) : Prop where
  store {name : String} : s.get? name ≠ none → name ∉ targets → w'.store name = w.store name

theorem KeepsBut.spares {s : Symbols} {targets : List String} {w w' : World A}
    (h : KeepsBut s targets w w') (ht : Γ.Has targets) : Spares Γ s w w' := by
  refine ⟨fun {name} hs hn => h.store hs fun hm => ?_⟩
  have := ht name hm
  rw [hn] at this
  cases this

section

variable {selector : Selector A} {operand : Operand} {label : Literal} {s : Symbols} {a : Nat}
  {μ : World A}

/-- The world after a test that compares the selector with the label and finds them equal or not. -/
def tested (s : Symbols) (μ : World A) (x y : A.Val .int) : World A :=
  μ.set s.fresh .int (A.truth (A.holds .equal .int x y))

theorem keepsBut_tested (targets : List String) (x y : A.Val .int) :
    KeepsBut s targets μ (tested s μ x y) :=
  ⟨fun hs _ => (Keeps.set μ s.get?_fresh .int _).store hs⟩

/-- The selector is of type INT, and the test compares it with the label. -/
theorem step_test (hh : selector.HeldBy Γ s μ operand) (hc : s.Covers Γ)
    (ho : s.typeOf operand = .ok .int)
    (hf : fetch code a =
      some (.quad (.compare .equal .int) [.name s.fresh, operand, .literal label])) :
    ∃ x, selector.read Γ μ.store = some ⟨.int, x⟩ ∧
      step code ⟨a, μ⟩ = some ⟨a + 1, tested s μ x (A.literal .int label)⟩ := by
  obtain ⟨⟨type, x⟩, hr, hv⟩ := hh.read hc (.refl Γ μ)
  obtain rfl : type = .int := Except.ok.inj (hv.typeOf.symm.trans ho)
  exact ⟨x, hr, step_compare hf hv.value rfl⟩

end

/-! ## All cases -/

/-- The cases of a switch of type INT, emitted on `c`, and its default stand from line `a` up to, and without,
the line `next`, and these are their gates. -/
structure Arms (Γ : Scope) (code : List Instruction) (operand : Operand) (cases : List Case)
    (c : Compilation) (a next : Nat) (gates : List Gate) : Prop where
  placed : ∃ part c' d, (emitCases operand cases).Gives c part c' ∧ Contained d ∧
    Placed code next a (part ++ d) ∧ next = a + (part ++ d).length
  gates : Gates operand cases c a gates
  covers : c.symbols.Covers Γ
  names : Γ.Has (casesNames cases)
  operand : c.symbols.typeOf operand = .ok .int
  labels : ∀ first ∈ cases, first.label.type = .int

namespace Arms

variable {operand : Operand} {first : Case} {rest cases : List Case} {c : Compilation} {a next : Nat}
  {gates : List Gate} {selector : Selector A} {μ : World A} {t : State A}

/-- The gates are before the end. -/
theorem line_mem (h : Arms Γ code operand cases c a next gates) {gate : Gate}
    (hg : gate ∈ gates) : a < gate.line ∧ gate.line < gate.stop ∧ gate.stop ≤ next := by
  obtain ⟨part, c', d, he, -, -, hnext⟩ := h.placed
  have := h.gates.line_mem he hg
  rw [List.length_append] at hnext
  omega

theorem pos (h : Arms Γ code operand cases c a next gates) (hg : gates ≠ []) : 0 < a := by
  obtain ⟨gate, gates, rfl⟩ := List.exists_cons_of_ne_nil hg
  have hline := h.line_mem List.mem_cons_self
  obtain ⟨part, c', d, -, -, hp, hnext⟩ := h.placed
  refine hp.pos fun hnil => ?_
  rw [hnil, List.length_nil] at hnext
  omega

theorem le (h : Arms Γ code operand cases c a next gates) : a ≤ next := by
  obtain ⟨part, c', d, -, -, -, rfl⟩ := h.placed
  exact Nat.le_add_right a _

/-- Control does not go back from the cases that are left. -/
theorem stays (h : Arms Γ code operand cases c a next gates) {n : Nat}
    (hw : Within code n next ⟨a, μ⟩ t) : a ≤ t.line ∧ Within code a next ⟨a, μ⟩ t := by
  obtain ⟨part, c', d, he, hd, hp, rfl⟩ := h.placed
  have hc := (contained_cases cases he).append hd
  have hstays := hp.stays hc hw
  have hline := hp.line_of_within hc hstays (.inl ⟨Nat.le_refl a, Nat.le_add_right a _⟩)
  exact ⟨by omega, hstays⟩

/-- A test of two instructions, the body, and the other cases. -/
theorem cons_cases (h : Arms Γ code operand (first :: rest) c a next gates) :
    ∃ body c₁ gates', first.body.emit.Gives (c.withTemporary .int) body c₁ ∧
      fetch code a = some (.quad (.compare .equal .int)
        [.name c.symbols.fresh, operand, .literal first.label]) ∧
      fetch code (a + 1) =
        some (.jumpIfZero (.forward (body.length + 1)) (.name c.symbols.fresh)) ∧
      Placed code next (a + 2) body ∧
      gates = ⟨first.label, a + 1, a + 2 + body.length⟩ :: gates' ∧
      Arms Γ code operand rest c₁ (a + 2 + body.length) next gates' := by
  obtain ⟨part, c', d, he, hd, hp, hnext⟩ := h.placed
  obtain ⟨body, c₁, test, c₂, more, hb, ht, hm, rfl⟩ := gives_cases_cons.mp he
  have hgrows := (first.body.extends_emit.of_gives hb).symbols
  have htemp : c.symbols.Grows (c.withTemporary .int).symbols := c.symbols.grows_temporary .int
  have hoperand := (htemp.trans hgrows).typeOf h.operand
  obtain ⟨pair, hpair, rfl⟩ := gives_caseTest.mp ht
  obtain ⟨rfl, rfl⟩ := gives_widenPair_int hpair hoperand (h.labels first List.mem_cons_self)
  have hnames := h.names
  rw [casesNames_cons, Scope.has_append] at hnames
  obtain ⟨hcompare, hjump, hrest⟩ : _ ∧ _ ∧ Placed code next (a + 1 + 1) (body ++ more ++ d) := hp
  rw [List.append_assoc, placed_append] at hrest
  cases h.gates with
  | cons hb' ht' hmore =>
    obtain ⟨rfl, rfl⟩ := hb'.unique hb
    obtain ⟨rfl, rfl⟩ := ht'.unique ht
    refine ⟨body, _, _, hb, hcompare, hjump, hrest.1, rfl, ⟨more, c', d, hm, hd, hrest.2, ?_⟩, hmore,
      h.covers.grows (htemp.trans hgrows), hnames.2, hoperand,
      fun other ho => h.labels other (List.mem_cons_of_mem _ ho)⟩
    rw [hnext]
    simp only [List.length_append, List.length_cons, List.length_nil]
    omega

/-- Where a run can be that starts at the test of a case: in the test, in the body, past the switch, or, with the
body run or skipped, in what is left. -/
theorem within_cases {body : List Instruction} {targets : List String} {s : Symbols} {c₁ : Compilation}
    {x y : A.Val .int} (hs : step code ⟨a, μ⟩ = some ⟨a + 1, tested c.symbols μ x y⟩)
    (hjump : fetch code (a + 1) =
      some (.jumpIfZero (.forward (body.length + 1)) (.name c.symbols.fresh)))
    (hbody : Placed code next (a + 2) body) (hcontained : Contained body)
    (hwriting : Writing (c.withTemporary .int).symbols body targets s)
    (hrest : Arms Γ code operand rest c₁ (a + 2 + body.length) next gates)
    (hw : Within code a next ⟨a, μ⟩ t) :
    t = ⟨a, μ⟩ ∨ t = ⟨a + 1, tested c.symbols μ x y⟩ ∨
      (a + 2 ≤ t.line ∧ t.line < a + 2 + body.length ∧
        PassesOn code ⟨a + 1, tested c.symbols μ x y⟩) ∨
      t.line = next ∨
      ∃ μ', KeepsBut c.symbols targets μ μ' ∧
        Within code a next ⟨a, μ⟩ ⟨a + 2 + body.length, μ'⟩ ∧ a + 2 + body.length ≤ t.line ∧
        Within code (a + 2 + body.length) next ⟨a + 2 + body.length, μ'⟩ t := by
  have hvalue : A.value (tested c.symbols μ x y).store .int (.name c.symbols.fresh) =
      some (A.truth (A.holds .equal .int x y)) := by
    simp [tested, Arithmetic.value]
  have hkeeps : KeepsBut c.symbols targets μ (tested c.symbols μ x y) := keepsBut_tested targets x y
  have hjumps := step_jumpIfZero hjump rfl hvalue
  have hl : a + 1 + (body.length + 1) = a + 2 + body.length := by omega
  rw [hl] at hjumps
  cases hw with
  | refl => exact .inl rfl
  | head hf hp hs' hw =>
    cases hs.symm.trans hs'
    cases hw with
    | refl => exact .inr (.inl rfl)
    | head hf' hp' hs' hw =>
      right; right
      cases hjumps.symm.trans hs'
      have htests := Within.head hf hp hs (.single hf' hp' hjumps)
      cases hb : A.holds .equal .int x y with
      | true =>
        rw [hb, if_pos rfl] at hw htests
        rcases hbody.leaves hcontained hw with hin | ⟨m, μ', rfl | rfl, hst, hts⟩
        · exact .inl ⟨hin.1, hin.2, _, hjump, by simp [Opcode.exec, hvalue, hb]⟩
        · refine .inr (.inr ⟨μ', ⟨fun {name} hn ht => ?_⟩,
            htests.trans (hst.mono (by omega) hrest.le), hrest.stays hts⟩)
          have htemp : c.symbols.Grows (c.withTemporary .int).symbols :=
            c.symbols.grows_temporary .int
          rw [hbody.store_eq (hwriting.written?_ne (htemp.get?_ne_none hn) ht) hst]
          exact hkeeps.store hn ht
        · rw [hts.eq_of_outside (by simp)]
          exact .inr (.inl rfl)
      | false =>
        rw [hb, if_neg Bool.false_ne_true] at hw htests
        exact .inr (.inr ⟨_, hkeeps, htests, hrest.stays hw⟩)

end Arms

/-! ## At the gates -/

/-- The machine is at a conditional jump that tests whether the selector, as it is now, equals the label. -/
structure AtGate (Γ : Scope) (code : List Instruction) (selector : Selector A) (label : Literal)
    (t : State A) : Prop where
  jump : ∃ target slot x, fetch code t.line = some (.jumpIfZero target (.name slot)) ∧
    A.value t.world.store .int (.name slot) =
      some (A.truth (A.holds .equal .int x (A.literal .int label))) ∧
    selector.read Γ t.world.store = some ⟨.int, x⟩

theorem Arithmetic.number_of_int {label : Literal} (h : label.type = .int) :
    A.number label = ⟨.int, A.literal .int label⟩ := by
  rw [number_eq, h]

/-- At a gate, control passes on if the selector equals the label. -/
theorem AtGate.passesOn_iff {selector : Selector A} {label : Literal} {t : State A}
    (h : AtGate Γ code selector label t) (hlabel : label.type = .int)
    (hequal : ∀ x y : A.Val .int, A.holds .equal .int x y = true ↔ x = y) :
    PassesOn code t ↔ selector.read Γ t.world.store = some (A.number label) := by
  obtain ⟨target, slot, x, hf, hv, hr⟩ := h.jump
  have hnumber : some (⟨.int, x⟩ : A.Value) = some (A.number label) ↔ x = A.literal .int label := by
    rw [number_of_int hlabel]
    simp
  rw [hr, hnumber, ← hequal]
  constructor
  · rintro ⟨operands, hf', he⟩
    cases hf.symm.trans hf'
    simpa [Opcode.exec, hv] using he
  · intro hb
    exact ⟨_, hf, by simp [Opcode.exec, hv, hb]⟩

/-- No case but the last sets the variable that the selector reads. -/
def Selector.FixedIn (selector : Selector A) (cases : List Case) : Prop :=
  ∀ name, selector.name? = some name → name ∉ casesTargets cases.dropLast

theorem Selector.HeldBy.get?_ne_none {selector : Selector A} {s s' : Symbols} {μ : World A}
    {operand : Operand} (h : selector.HeldBy Γ s μ operand) (hc : s'.Covers Γ) {name : String}
    (hn : selector.name? = some name) : s'.get? name ≠ none := by
  cases selector with
  | value v => cases hn
  | named name' =>
    cases hn
    obtain ⟨type, ht⟩ := Option.isSome_iff_exists.mp h.2
    exact Symbols.get?_ne_none_of_type? (hc.type? ht)

namespace Arms

variable {operand : Operand} {selector : Selector A} {first : Case} {rest cases : List Case}
  {c : Compilation} {a next : Nat} {gates : List Gate} {gate : Gate} {μ : World A} {t : State A}

/-- The first case, with the selector held by its operand. At its gate `s` the selector is as it was at the start.
A run from the start is before the gate, at it, in the body behind it, past the switch, or has come to the other
cases with the selector still in its operand. -/
theorem first_case (h : Arms Γ code operand (first :: rest) c a next gates)
    (hh : selector.HeldBy Γ c.symbols μ operand) (hw : Within code a next ⟨a, μ⟩ t) :
    ∃ s c₁ gates' stop, gates = ⟨first.label, s.line, stop⟩ :: gates' ∧ a < s.line ∧ s.line < stop ∧
      AtGate Γ code selector first.label s ∧ Within code a next ⟨a, μ⟩ s ∧
      selector.read Γ s.world.store = selector.read Γ μ.store ∧
      Arms Γ code operand rest c₁ stop next gates' ∧
      (t.line < s.line ∨ t = s ∨ (s.line < t.line ∧ t.line < stop ∧ PassesOn code s) ∨ t.line = next ∨
        ∃ μ', KeepsBut c.symbols (statementsTargets first.body.body) μ μ' ∧
          selector.HeldBy Γ c₁.symbols μ' operand ∧ Within code a next ⟨a, μ⟩ ⟨stop, μ'⟩ ∧
          stop ≤ t.line ∧ Within code stop next ⟨stop, μ'⟩ t) := by
  have hnames := h.names
  rw [casesNames_cons, Scope.has_append] at hnames
  have htargets : Γ.Has (statementsTargets first.body.body) :=
    fun name hn => hnames.1 name (mem_statementsNames_of_mem_targets _ hn)
  obtain ⟨body, c₁, gates', hb, hcompare, hjump, hbody, rfl, hrest⟩ := h.cons_cases
  obtain ⟨x, hr, hs⟩ := step_test hh h.covers h.operand hcompare
  have hb := Block.gives_iff.mp hb
  have hwriting := writing_statements _ hb
  have hgrows : c.symbols.Grows c₁.symbols := (c.symbols.grows_temporary .int).trans hwriting.grows
  have hread : selector.read Γ (tested c.symbols μ x (A.literal .int first.label)).store =
      selector.read Γ μ.store :=
    Selector.read_congr fun name hn =>
      (keepsBut_tested [] x _).store (hh.get?_ne_none h.covers hn) List.not_mem_nil
  have hlt : a < next := by
    have := hrest.le
    omega
  refine ⟨⟨a + 1, tested c.symbols μ x (A.literal .int first.label)⟩, c₁, gates', _, rfl, Nat.lt_succ_self a, ?_,
    ⟨_, _, x, hjump, ?_, hread.trans hr⟩, .single (Nat.le_refl a) hlt hs, hread, hrest, ?_⟩
  · simp only
    omega
  · simp [tested, Arithmetic.value]
  · rcases within_cases hs hjump hbody (contained_statements _ hb) hwriting hrest hw with
      rfl | rfl | hin | hin | ⟨μ', hk, hreach, hl, hw'⟩
    · exact .inl (Nat.lt_succ_self a)
    · exact .inr (.inl rfl)
    · exact .inr (.inr (.inl hin))
    · exact .inr (.inr (.inr (.inl hin)))
    · have hheld := hh.spares hgrows (hk.spares htargets)
      exact .inr (.inr (.inr (.inr ⟨μ', hk, hheld, hreach, hl, hw'⟩)))

/-- Every gate that is reached tests the selector as it is then. If no case but the last sets it, it is still as
it was at the first test. -/
theorem atGate (h : Arms Γ code operand cases c a next gates)
    (hh : selector.HeldBy Γ c.symbols μ operand) (hw : Within code a next ⟨a, μ⟩ t)
    (hg : gate ∈ gates) (ht : t.line = gate.line) :
    AtGate Γ code selector gate.label t ∧
      (selector.FixedIn cases → selector.read Γ t.world.store = selector.read Γ μ.store) := by
  induction cases generalizing c a gates μ with
  | nil =>
    cases h.gates
    cases hg
  | cons first rest ih =>
    have hline := h.line_mem hg
    obtain ⟨s, c₁, gates', stop, rfl, has, hstop, hat, -, hread, hrest, hcases⟩ := h.first_case hh hw
    rcases List.mem_cons.mp hg with rfl | hg'
    · dsimp only at hline ht
      obtain rfl : t = s := by
        rcases hcases with hlt | hs | hin | hin | ⟨μ', -, -, -, hl, -⟩
        · omega
        · exact hs
        · omega
        · omega
        · omega
      exact ⟨hat, fun _ => hread⟩
    · have hline' := hrest.line_mem hg'
      rcases hcases with hlt | rfl | hin | hin | ⟨μ', hk, hheld, -, -, hw'⟩
      · omega
      · omega
      · omega
      · omega
      · obtain ⟨hat, hfixed⟩ := ih hrest hheld hw' hg'
        refine ⟨hat, fun hf => ?_⟩
        -- there is another case, so the body of this one does not set the variable
        cases rest with
        | nil =>
          cases hrest.gates
          cases hg'
        | cons second rest =>
          simp only [Selector.FixedIn, List.dropLast_cons_cons, casesTargets_cons, List.mem_append,
            not_or] at hf hfixed
          rw [hfixed fun name hn => (hf name hn).2]
          exact Selector.read_congr fun name hn =>
            hk.store (hh.get?_ne_none h.covers hn) (hf name hn).1

/-- Control comes to the lines of a body through its gate only. -/
theorem passesOn_of_body (h : Arms Γ code operand cases c a next gates)
    (hh : selector.HeldBy Γ c.symbols μ operand) (hw : Within code a next ⟨a, μ⟩ t)
    (hg : gate ∈ gates) (hl : gate.line < t.line) (ht : t.line < gate.stop) :
    ∃ s, Within code a next ⟨a, μ⟩ s ∧ s.line = gate.line ∧ PassesOn code s := by
  induction cases generalizing c a gates μ with
  | nil =>
    cases h.gates
    cases hg
  | cons first rest ih =>
    have hline := h.line_mem hg
    obtain ⟨s, c₁, gates', stop, rfl, has, hstop, -, hgate, -, hrest, hcases⟩ := h.first_case hh hw
    rcases List.mem_cons.mp hg with rfl | hg'
    · dsimp only at hline hl ht
      rcases hcases with hlt | rfl | hin | hin | ⟨μ', -, -, -, hl', -⟩
      · omega
      · omega
      · exact ⟨s, hgate, rfl, hin.2.2⟩
      · omega
      · omega
    · have hline' := hrest.line_mem hg'
      rcases hcases with hlt | rfl | hin | hin | ⟨μ', -, hheld, hreach, -, hw'⟩
      · omega
      · omega
      · omega
      · omega
      · obtain ⟨s', hw'', hl', hpass⟩ := ih hrest hheld hw' hg'
        exact ⟨s', hreach.trans (hw''.mono (by omega) (Nat.le_refl next)), hl', hpass⟩

end Arms

end Cpl
