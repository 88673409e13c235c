import Cpl.Proofs.Acceptance
import Cpl.Proofs.Gates
import Cpl.Proofs.Located

/-!
# Which case of a switch is entered

A switch runs at most one body only if the selector cannot change on the way. The value of the selector is kept in
a temporary, unless the selector just reads a variable: then every test reads the variable anew, and a body that
sets it may lead into another one.

`switch_enters_by_label` says what holds in every execution of the code of a switch, and when control enters no body
but that of the label that the selector has on entry.
-/

namespace Cpl

open Emit Machine Arithmetic

variable {A : Arithmetic} {Γ : Scope} {code : List Instruction}

/-! ## The selector -/

section

variable {σ : A.Store} {name : String}

mutual

theorem Expression.eval_of_bareName? : ∀ e : Expression, e.bareName? Γ = some name →
    e.eval Γ σ = A.lookup? Γ σ name
  | .term term, h => by
    rw [Expression.bareName?] at h
    rw [Expression.eval]
    exact term.eval_of_bareName? h
  | .chain left operator right, h => by
    rw [Expression.bareName?] at h
    cases h

theorem Term.eval_of_bareName? : ∀ t : Term, t.bareName? Γ = some name →
    t.eval Γ σ = A.lookup? Γ σ name
  | .factor factor, h => by
    rw [Term.bareName?] at h
    rw [Term.eval]
    exact factor.eval_of_bareName? h
  | .chain left operator right, h => by
    rw [Term.bareName?] at h
    cases h

theorem Factor.eval_of_bareName? : ∀ f : Factor, f.bareName? Γ = some name →
    f.eval Γ σ = A.lookup? Γ σ name
  | .name ident, h => by
    rw [Factor.bareName?] at h
    cases h
    rw [Factor.eval]
  | .literal l, h => by
    rw [Factor.bareName?] at h
    cases h
  | .parens inner span, h => by
    rw [Factor.bareName?] at h
    rw [Factor.eval]
    exact inner.eval_of_bareName? h
  | .cast type inner span, h => by
    rw [Factor.bareName?, Option.filter_eq_some_iff] at h
    have htype : Γ name = some type := of_decide_eq_true h.2
    rw [Factor.eval, inner.eval_of_bareName? h.1, lookup?, htype]
    -- a cast to the type that the variable has
    cases type <;> rfl

end

end

/-- The value that the tests of a switch read when the store is `τ`, if the switch was entered with the store
`σ`. -/
def Expression.reread (Γ : Scope) (σ τ : A.Store) (e : Expression) : Option A.Value :=
  (Selector.of? Γ σ e).bind (Selector.read Γ τ)

section

variable {selector : Selector A} {e : Expression} {σ : A.Store}

/-- On entry the value of the selector is read. -/
theorem Selector.read_of_of? (h : Selector.of? Γ σ e = some selector) :
    selector.read Γ σ = e.eval Γ σ := by
  unfold Selector.of? at h
  split at h
  · rename_i name hb
    cases h
    exact (e.eval_of_bareName? hb).symm
  · obtain ⟨v, hv, rfl⟩ := Option.map_eq_some_iff.mp h
    exact hv.symm

theorem Selector.name?_of_of? (h : Selector.of? Γ σ e = some selector) :
    selector.name? = e.bareName? Γ := by
  unfold Selector.of? at h
  split at h <;> rename_i hb
  · cases h
    exact hb.symm
  · obtain ⟨v, -, rfl⟩ := Option.map_eq_some_iff.mp h
    exact hb.symm

end

/-! ## A switch -/

/-- The code of the switch stands from line `n` up to, and without, the line `next`, and these are the gates of its
cases. -/
structure SwitchStands (Γ : Scope) (code : List Instruction) (selector : Expression) (cases : List Case)
    (default : Block) (span : Span) (n next : Nat) (gates : List Gate) : Prop where
  stands : ∃ exit d d' v c₁,
    Stands code exit n next (Statement.switch selector cases default span).emit d d' ∧
      d.symbols.Covers Γ ∧ selector.emit.Gives d v c₁ ∧
      Gates v.value cases c₁ (n + v.code.length) gates

/-- The expression is of type INT, and so are the labels: there is no point in them. -/
structure IntSwitch (Γ : Scope) (selector : Expression) (cases : List Case) : Prop where
  selector : selector.staticType Γ = .int
  labels : ∀ first ∈ cases, '.' ∉ first.label.text.toList

namespace SwitchStands

variable {selector : Expression} {cases : List Case} {default : Block} {span : Span} {n next : Nat}
  {gates : List Gate} {gate : Gate} {w : World A} {t : State A}

theorem labels (h : SwitchStands Γ code selector cases default span n next gates) :
    gates.map Gate.label = cases.map Case.label := by
  obtain ⟨exit, d, d', v, c₁, -, -, -, hg⟩ := h.stands
  exact hg.labels

/-- The code of the selector, followed by that of the cases and the default. -/
theorem arms (h : SwitchStands Γ code selector cases default span n next gates)
    (hn : Γ.Has (Statement.switch selector cases default span).names)
    (hint : IntSwitch Γ selector cases) :
    ∃ d v c₁, d.symbols.Covers Γ ∧ selector.emit.Gives d v c₁ ∧ Placed code next n v.code ∧
      Arms Γ code v.value cases c₁ (n + v.code.length) next gates := by
  obtain ⟨exit, d, d', v, c₁, hs, hc, hv, hg⟩ := h.stands
  obtain ⟨v', c₁', m, c₂, hv', hpv, ⟨part, hgive, hpart, rfl⟩, ⟨rest, hrest, hprest, hnext⟩⟩ :=
    hs.switch
  obtain ⟨rfl, rfl⟩ := hv.unique hv'
  rw [Statement.names, Scope.has_append, Scope.has_append] at hn
  obtain ⟨hyields, -⟩ := (selector.meets hc hn.1.1).of_gives hv
  refine ⟨d, _, _, hc, hv, hpv, ⟨part, c₂, rest, hgive, contained_statements _ hrest,
    placed_append.mpr ⟨hpart, hprest⟩, ?_⟩, hg,
    hc.grows (selector.extends_emit.of_gives hv).symbols, hn.1.2, hint.selector ▸ hyields.value,
    fun first hfirst => Literal.type_eq_int_iff.mpr (hint.labels first hfirst)⟩
  rw [List.length_append, ← Nat.add_assoc]
  exact hnext

/-- A run that has come to a gate, or to a line between a gate and the end of the body, went through the code of the
selector to the first test. There the selector is in its operand. -/
theorem exists_first_test (h : SwitchStands Γ code selector cases default span n next gates)
    (hn : Γ.Has (Statement.switch selector cases default span).names)
    (hint : IntSwitch Γ selector cases) (hw : Within code n next ⟨n, w⟩ t) (hg : gate ∈ gates)
    (hl : gate.line ≤ t.line) (ht : t.line < gate.stop) :
    ∃ current c₁ operand a μ, Selector.of? Γ w.store selector = some current ∧
      current.read Γ μ.store = current.read Γ w.store ∧
      current.HeldBy Γ c₁.symbols μ operand ∧ Arms Γ code operand cases c₁ a next gates ∧ n ≤ a ∧
      Within code n next ⟨n, w⟩ ⟨a, μ⟩ ∧ Within code a next ⟨a, μ⟩ t := by
  obtain ⟨d, v, c₁, hc, hv, hpv, harms⟩ := h.arms hn hint
  have hline := harms.line_mem hg
  rw [Statement.names, Scope.has_append, Scope.has_append] at hn
  rcases hpv.leaves (selector.contained hv) hw with hin | ⟨m, μ, rfl | rfl, hst, hts⟩
  · omega
  · have hpos : 0 < n := by
      by_cases hcode : v.code = []
      · have := harms.pos (List.ne_nil_of_mem hg)
        rwa [hcode, List.length_nil, Nat.add_zero] at this
      · exact hpv.pos hcode
    obtain ⟨k, rfl⟩ := Nat.exists_eq_add_one_of_ne_zero hpos.ne'
    obtain ⟨hyields, -⟩ := (selector.meets hc hn.1.1).of_gives hv
    have hopen : v.code.findSome? Instruction.openBreak? = none := by
      rw [Program.findSome?_openBreak?, hyields.breaks]
      rfl
    obtain ⟨current, hcurrent, hkeeps, hheld⟩ := hpv.of_within hopen
      (fun hp => selector.yields_selector hv hp hc hn.1.1 (.refl Γ w)) hst
    have hread := Selector.read_congr (Γ := Γ) fun name hname =>
      hkeeps.store (hheld.get?_ne_none hc hname)
    exact ⟨current, c₁, v.value, _, μ, hcurrent, hread, hheld, harms, Nat.le_add_right _ _,
      hst.mono (Nat.le_refl _) harms.le, (harms.stays hts).2⟩
  · -- a run that has left the switch is at no gate
    rw [hts.eq_of_outside (by simp)] at ht
    dsimp only at ht
    omega

end SwitchStands

/-! ## Entering bodies -/

namespace Machine

/-- Running from line `n` in the world `w`, and not past the line `next`, control comes to the gate and passes on to
the body behind it, or comes to a line of this body in some other way. -/
def Entered (code : List Instruction) (n next : Nat) (w : World A) (gate : Gate) : Prop :=
  ∃ s, Within code n next ⟨n, w⟩ s ∧
    (s.line = gate.line ∧ PassesOn code s ∨ gate.line < s.line ∧ s.line < gate.stop)

theorem passesOn_settleFrom {s : State A} :
    PassesOn (Instruction.settleFrom 1 code) s ↔ PassesOn code s := by
  have hexec (operands : List Operand) :
      Opcode.jumpIfZero.exec s.world (operands.map (Operand.settle s.line)) = some (.on s.world) ↔
        Opcode.jumpIfZero.exec s.world operands = some (.on s.world) := by
    rw [Opcode.exec_settle]
    rcases Opcode.jumpIfZero.exec s.world operands with _ | w | target | _
    all_goals simp [Next.settle]
  unfold PassesOn
  rw [fetch_settleFrom]
  rcases fetch code s.line with _ | ⟨opcode, operands⟩ | position
  · simp
  · simp only [Option.map_some, Instruction.settle, Option.some.injEq, Instruction.quad.injEq]
    constructor
    · rintro ⟨_, ⟨rfl, rfl⟩, he⟩
      exact ⟨operands, ⟨rfl, rfl⟩, (hexec operands).mp he⟩
    · rintro ⟨_, ⟨rfl, rfl⟩, he⟩
      exact ⟨_, ⟨rfl, rfl⟩, (hexec operands).mpr he⟩
  · simp [Instruction.settle]

theorem entered_settleFrom {n next : Nat} {w : World A} {gate : Gate} :
    Entered (Instruction.settleFrom 1 code) n next w gate ↔ Entered code n next w gate := by
  simp only [Entered, within_settleFrom, passesOn_settleFrom]

end Machine

/-- No case but the last sets the variable that the expression reads, if it just reads one. -/
def Expression.FixedIn (Γ : Scope) (cases : List Case) (e : Expression) : Prop :=
  ∀ name, e.bareName? Γ = some name → name ∉ casesTargets cases.dropLast

namespace SwitchStands

variable {selector : Expression} {cases : List Case} {default : Block} {span : Span} {n next : Nat}
  {gates : List Gate} {gate : Gate} {w : World A} {t : State A}

/-- In every run from the start of the switch, control passes on at a gate if the selector, read anew, equals the
label. What is read is the value on entry if it cannot change. -/
theorem passesOn_iff (h : SwitchStands Γ code selector cases default span n next gates)
    (hn : Γ.Has (Statement.switch selector cases default span).names)
    (hint : IntSwitch Γ selector cases)
    (hequal : ∀ x y : A.Val .int, A.holds .equal .int x y = true ↔ x = y)
    (hw : Within code n next ⟨n, w⟩ t) (hg : gate ∈ gates) (ht : t.line = gate.line) :
    (PassesOn code t ↔ selector.reread Γ w.store t.world.store = some (A.number gate.label)) ∧
      (selector.FixedIn Γ cases →
        selector.reread Γ w.store t.world.store = selector.eval Γ w.store) := by
  have hlabel : gate.label.type = .int := by
    have hmem : gate.label ∈ cases.map Case.label := h.labels ▸ List.mem_map_of_mem hg
    obtain ⟨first, hfirst, heq⟩ := List.mem_map.mp hmem
    rw [← heq]
    exact Literal.type_eq_int_iff.mpr (hint.labels first hfirst)
  obtain ⟨d, v, c₁, -, -, -, harms⟩ := h.arms hn hint
  have hline := harms.line_mem hg
  obtain ⟨current, c₂, operand, a, μ, hcurrent, hread, hheld, harms', -, -, hw'⟩ :=
    h.exists_first_test hn hint hw hg (by omega) (by omega)
  obtain ⟨hat, hfixed⟩ := harms'.atGate hheld hw' hg ht
  rw [Expression.reread, hcurrent, Option.bind_some]
  refine ⟨hat.passesOn_iff hlabel hequal, fun hf => ?_⟩
  rw [Expression.FixedIn, ← Selector.name?_of_of? hcurrent] at hf
  rw [hfixed hf, hread, Selector.read_of_of? hcurrent]

/-- So a body is entered if some test finds the selector equal to its label. -/
theorem entered_iff (h : SwitchStands Γ code selector cases default span n next gates)
    (hn : Γ.Has (Statement.switch selector cases default span).names)
    (hint : IntSwitch Γ selector cases)
    (hequal : ∀ x y : A.Val .int, A.holds .equal .int x y = true ↔ x = y) (hg : gate ∈ gates) :
    Entered code n next w gate ↔ ∃ s, Within code n next ⟨n, w⟩ s ∧ s.line = gate.line ∧
      selector.reread Γ w.store s.world.store = some (A.number gate.label) := by
  constructor
  · rintro ⟨t, hw, ⟨ht, hpass⟩ | ⟨hl, ht⟩⟩
    · exact ⟨t, hw, ht, (h.passesOn_iff hn hint hequal hw hg ht).1.mp hpass⟩
    · -- on a line of the body, the gate has been passed before
      obtain ⟨current, c₁, operand, a, μ, -, -, hheld, harms, hna, hwa, hw'⟩ :=
        h.exists_first_test hn hint hw hg (Nat.le_of_lt hl) ht
      obtain ⟨s, hs, hsl, hpass⟩ := harms.passesOn_of_body hheld hw' hg hl ht
      have hws := hwa.trans (hs.mono hna (Nat.le_refl next))
      exact ⟨s, hws, hsl, (h.passesOn_iff hn hint hequal hws hg hsl).1.mp hpass⟩
  · rintro ⟨s, hw, hl, hreads⟩
    exact ⟨s, hw, .inl ⟨hl, (h.passesOn_iff hn hint hequal hw hg hl).1.mpr hreads⟩⟩

/-- With different labels, a gate is known by its label. -/
theorem gate_eq {gate' : Gate} (h : SwitchStands Γ code selector cases default span n next gates)
    (hdifferent : (cases.map fun first => A.number first.label).Nodup) (hg : gate ∈ gates)
    (hg' : gate' ∈ gates) (heq : A.number gate.label = A.number gate'.label) : gate = gate' := by
  have hmap : cases.map (fun first => A.number first.label) =
      gates.map fun gate => A.number gate.label := by
    have := congrArg (List.map A.number) h.labels
    simpa only [List.map_map, Function.comp_def] using this.symm
  rw [hmap] at hdifferent
  exact List.inj_on_of_nodup_map hdifferent hg hg' heq

end SwitchStands

/-- In the execution from line `n` in the world `w`, control enters no body but that of the label equal to the value
that the selector has at the start, and so at most one. -/
structure EntersOwn (Γ : Scope) (code : List Instruction) (selector : Expression) (gates : List Gate)
    (n next : Nat) (w : World A) : Prop where
  label : ∀ gate ∈ gates, Entered code n next w gate →
    selector.eval Γ w.store = some (A.number gate.label)
  unique : ∀ gate ∈ gates, ∀ gate' ∈ gates, Entered code n next w gate →
    Entered code n next w gate' → gate = gate'

/-- The switch stands at these lines of the code of the program. -/
def Program.SwitchAt (p : Program) (selector : Expression) (cases : List Case) (default : Block)
    (span : Span) (n next : Nat) (gates : List Gate) : Prop :=
  ∃ code c, p.emit.Gives .start code c ∧
    SwitchStands p.scope code selector cases default span n next gates

/-- Each switch of a program has a place in its code. -/
theorem Program.exists_switchAt {p : Program} {c : Compilation} (hg : p.emit.Gives .start code c)
    (hp : p.UsesDeclared) {selector : Expression} {cases : List Case} {default : Block} {span : Span}
    (hmem : .switch selector cases default span ∈ allStatements p.body.body) :
    p.scope.Has (Statement.switch selector cases default span).names ∧
      ∃ n next gates, p.SwitchAt selector cases default span n next gates := by
  obtain ⟨c₁, last, hc, -, hs⟩ := stands_of_gives hg 0
  obtain ⟨hnames, exit, n, next, d, d', hs, hc⟩ := located_of_mem_statements _ hs hc hp.has hmem
  obtain ⟨v, c₂, m, c₃, hv, -, ⟨part, hpart, -, -⟩, -⟩ := hs.switch
  obtain ⟨gates, hgates⟩ := exists_gates hpart (n + v.code.length)
  exact ⟨hnames, n, next, gates, code, c, hg, ⟨exit, d, d', v, c₂, hs, hc, hv, hgates⟩⟩

/-- For every switch of type INT with different labels in a program that compiles, and every execution of its
code: a body is entered exactly if the selector, read anew at the test, equals the label. So control enters only the
body of the label that the selector equals on entry if and only if no test finds another label. That is so if the
selector does not just read a variable, or if no case but the last sets this variable. -/
theorem switch_enters_by_label {p : Program} {q : Listing} (hq : p.compile = .ok q)
    (hp : p.UsesDeclared) (hequal : ∀ x y : A.Val .int, A.holds .equal .int x y = true ↔ x = y)
    {selector : Expression} {cases : List Case} {default : Block} {span : Span}
    (hmem : .switch selector cases default span ∈ allStatements p.body.body)
    (hint : IntSwitch p.scope selector cases)
    (hdifferent : (cases.map fun first => A.number first.label).Nodup) :
    (∃ n next gates, p.SwitchAt selector cases default span n next gates) ∧
    ∀ n next gates, p.SwitchAt selector cases default span n next gates → ∀ w : World A,
      (∀ gate ∈ gates, Entered q.instructions n next w gate ↔
        ∃ s, Within q.instructions n next ⟨n, w⟩ s ∧ s.line = gate.line ∧
          selector.reread p.scope w.store s.world.store = some (A.number gate.label)) ∧
      (EntersOwn p.scope q.instructions selector gates n next w ↔
        ∀ gate ∈ gates, ∀ s, Within q.instructions n next ⟨n, w⟩ s → s.line = gate.line →
          selector.reread p.scope w.store s.world.store = some (A.number gate.label) →
          selector.eval p.scope w.store = some (A.number gate.label)) ∧
      (selector.FixedIn p.scope cases →
        EntersOwn p.scope q.instructions selector gates n next w) := by
  obtain ⟨code, c, hg, hr, -⟩ := Program.compile_eq_ok.mp hq
  obtain ⟨-, hcode⟩ := Instruction.resolveAll_eq_ok.mp hr
  obtain ⟨hnames, hexists⟩ := Program.exists_switchAt hg hp hmem
  refine ⟨hexists, ?_⟩
  rintro n next gates ⟨code', c', hg', hs⟩ w
  obtain ⟨rfl, rfl⟩ := hg'.unique hg
  have hentered (gate : Gate) (hm : gate ∈ gates) :
      Entered q.instructions n next w gate ↔
        ∃ s, Within q.instructions n next ⟨n, w⟩ s ∧ s.line = gate.line ∧
          selector.reread p.scope w.store s.world.store = some (A.number gate.label) := by
    simp only [hcode, entered_settleFrom, within_settleFrom]
    exact hs.entered_iff hnames hint hequal hm
  have hown : EntersOwn p.scope q.instructions selector gates n next w ↔
      ∀ gate ∈ gates, ∀ s, Within q.instructions n next ⟨n, w⟩ s → s.line = gate.line →
        selector.reread p.scope w.store s.world.store = some (A.number gate.label) →
        selector.eval p.scope w.store = some (A.number gate.label) := by
    constructor
    · intro h gate hm s hw hl hreads
      exact h.label gate hm ((hentered gate hm).mpr ⟨s, hw, hl, hreads⟩)
    · intro h
      have hlabel (gate : Gate) (hm : gate ∈ gates) (he : Entered q.instructions n next w gate) :
          selector.eval p.scope w.store = some (A.number gate.label) := by
        obtain ⟨s, hw, hl, hreads⟩ := (hentered gate hm).mp he
        exact h gate hm s hw hl hreads
      refine ⟨hlabel, fun gate hm gate' hm' he he' => hs.gate_eq hdifferent hm hm' ?_⟩
      exact Option.some.inj ((hlabel gate hm he).symm.trans (hlabel gate' hm' he'))
  refine ⟨hentered, hown, fun hfixed => hown.mpr ?_⟩
  intro gate hm s hw hl hreads
  rw [hcode, within_settleFrom] at hw
  rw [← (hs.passesOn_iff hnames hint hequal hw hm hl).2 hfixed]
  exact hreads

/-! ### A body that sets the variable -/

section

def shiftSpan : Span := ⟨⟨0, "shift.ou"⟩, ⟨0, "shift.ou"⟩⟩

/-- The cases `case 1: x = 2; case 2: output(x);`. -/
def shiftCases : List Case :=
  [⟨⟨"1"⟩, ⟨[.assign ⟨"x", shiftSpan⟩ (.term (.factor (.literal ⟨"2"⟩))) shiftSpan], shiftSpan⟩,
      shiftSpan⟩,
    ⟨⟨"2"⟩, ⟨[.output (.term (.factor (.name ⟨"x", shiftSpan⟩))) shiftSpan], shiftSpan⟩, shiftSpan⟩]

/-- The default `output(0);`. -/
def shiftDefault : Block :=
  ⟨[.output (.term (.factor (.literal ⟨"0"⟩))) shiftSpan], shiftSpan⟩

/-- The program `x: int; { x = 1; switch (selector) { case 1: x = 2; case 2: output(x); default: output(0); } }`.
-/
def shift (selector : Expression) : Program where
  declarations := [⟨[⟨"x", shiftSpan⟩], .int, shiftSpan⟩]
  body := ⟨[.assign ⟨"x", shiftSpan⟩ (.term (.factor (.literal ⟨"1"⟩))) shiftSpan,
    .switch selector shiftCases shiftDefault shiftSpan], shiftSpan⟩

/-- The selector `x`. -/
def shiftBare : Expression :=
  .term (.factor (.name ⟨"x", shiftSpan⟩))

/-- The selector `x + 0`. -/
def shiftSum : Expression :=
  .chain shiftBare ⟨"+", shiftSpan.start⟩ (.factor (.literal ⟨"0"⟩))

/-- With `x` declared. -/
def shiftSymbols : Compilation :=
  ⟨Symbols.empty.withDeclared "x" .int, []⟩

/-- With `x` at one. -/
def shiftStart : World Arithmetic.integers :=
  ⟨fun _ => (1 : Int), [], []⟩

theorem Arithmetic.integers_equal (x y : Arithmetic.integers.Val .int) :
    Arithmetic.integers.holds .equal .int x y = true ↔ x = y :=
  beq_iff_eq (α := Int)

theorem switch_mem_shift (e : Expression) :
    .switch e shiftCases shiftDefault shiftSpan ∈ allStatements (shift e).body.body := by
  simp [shift, allStatements]

theorem shift_int (e : Expression) (h : e.staticType (shift e).scope = .int) :
    IntSwitch (shift e).scope e shiftCases :=
  ⟨h, by decide⟩

theorem shift_labels_different :
    (shiftCases.map fun first => Arithmetic.integers.number first.label).Nodup := by
  have hne : Arithmetic.integers.number ⟨"1"⟩ ≠ Arithmetic.integers.number ⟨"2"⟩ := by
    intro h
    have hvalue : (1 : Int) = 2 := congrArg (fun v : Arithmetic.integers.Value => (v.2 : Int)) h
    exact absurd hvalue (by decide)
  simpa [shiftCases] using hne

/-- With the selector `x + 0`, which is kept in a temporary, only the body of the first case is entered, though it
sets `x` to the second label. -/
theorem shiftSum_enters_own :
    ∃ q n next gates, (shift shiftSum).compile = .ok q ∧
      (shift shiftSum).SwitchAt shiftSum shiftCases shiftDefault shiftSpan n next gates ∧
      EntersOwn (shift shiftSum).scope q.instructions shiftSum gates n next shiftStart := by
  have hq : ∃ q, (shift shiftSum).compile = .ok q := ⟨_, rfl⟩
  obtain ⟨q, hq⟩ := hq
  have hp : (shift shiftSum).UsesDeclared := by decide
  obtain ⟨⟨n, next, gates, hat⟩, hall⟩ := switch_enters_by_label hq hp Arithmetic.integers_equal
    (switch_mem_shift shiftSum) (shift_int shiftSum rfl) shift_labels_different
  have hfixed : shiftSum.FixedIn (shift shiftSum).scope shiftCases := fun _ hname => nomatch hname
  exact ⟨q, n, next, gates, hq, hat, (hall n next gates hat shiftStart).2.2 hfixed⟩

def shiftCode : List Instruction :=
  [.quad (.assign .int) [.name "x", .literal ⟨"1"⟩],
    .quad (.compare .equal .int) [.name "t0", .name "x", .literal ⟨"1"⟩],
    .jumpIfZero (.line 5) (.name "t0"),
    .quad (.assign .int) [.name "x", .literal ⟨"2"⟩],
    .quad (.compare .equal .int) [.name "t1", .name "x", .literal ⟨"2"⟩],
    .jumpIfZero (.line 9) (.name "t1"),
    .quad (.convert .float) [.name "t2", .name "x"],
    .quad (.print .float) [.name "t2"],
    .quad (.convert .float) [.name "t3", .literal ⟨"0"⟩],
    .quad (.print .float) [.name "t3"],
    .halt]

/-- With the selector `x`, the body of the first case sets `x` to the second label, and that body is entered too.
-/
theorem shiftBare_enters_both :
    (shift shiftBare).compile = .ok ⟨shiftCode, []⟩ ∧ (shift shiftBare).UsesDeclared ∧
      .switch shiftBare shiftCases shiftDefault shiftSpan ∈ allStatements (shift shiftBare).body.body ∧
      IntSwitch (shift shiftBare).scope shiftBare shiftCases ∧
      (shiftCases.map fun first => Arithmetic.integers.number first.label).Nodup ∧
      (shift shiftBare).SwitchAt shiftBare shiftCases shiftDefault shiftSpan 2 11
        [⟨⟨"1"⟩, 3, 5⟩, ⟨⟨"2"⟩, 6, 9⟩] ∧
      Entered shiftCode 2 11 shiftStart ⟨⟨"1"⟩, 3, 5⟩ ∧
      Entered shiftCode 2 11 shiftStart ⟨⟨"2"⟩, 6, 9⟩ := by
  have hdeclare : (declareAll (shift shiftBare).declarations).Gives .start () shiftSymbols := rfl
  have hcovers : shiftSymbols.symbols.Covers (shift shiftBare).scope :=
    ⟨fun h => (Program.type?_of_declareAll hdeclare _).trans h⟩
  have hgates : ∃ gates, Gates (.name "x") shiftCases shiftSymbols 2 gates ∧
      gates = [⟨⟨"1"⟩, 3, 5⟩, ⟨⟨"2"⟩, 6, 9⟩] :=
    ⟨_, .cons rfl rfl (.cons rfl rfl .nil), rfl⟩
  obtain ⟨_, hgates, rfl⟩ := hgates
  refine ⟨rfl, by decide, switch_mem_shift shiftBare, shift_int shiftBare rfl,
    shift_labels_different, ?_, ?_, ?_⟩
  · refine ⟨_, _, rfl, ⟨0, shiftSymbols, _, ⟨[], .name "x"⟩, shiftSymbols, ⟨_, rfl, ?_, rfl⟩, hcovers,
      rfl, hgates⟩⟩
    exact placed_of_findSome?_eq_none [.quad (.assign .int) [.name "x", .literal ⟨"1"⟩]] [.halt] 0 rfl
  · exact ⟨_, .head (by decide) (by decide) rfl (.refl _), .inl ⟨rfl, _, rfl, rfl⟩⟩
  · exact ⟨_, .head (by decide) (by decide) rfl (.head (by decide) (by decide) rfl
      (.head (by decide) (by decide) rfl (.head (by decide) (by decide) rfl (.refl _)))),
      .inl ⟨rfl, _, rfl, rfl⟩⟩

end

end Cpl
