import Cpl.Proofs.Declared
import Cpl.Proofs.Resolution
import Cpl.Proofs.Simulation.Statement

/-!
# Compilation preserves meaning

The code of a program does what the program means. `Program.halts_compile_iff_runs`: for a program that
uses declared names only, the machine started on line one of the compiled code comes to a halt exactly
if the program runs to its end, and then with the same output, the same input left and the same values
of the declared variables. The two directions are proved for the code with relative jumps
(`Program.halts_of_runs`, `Program.runs_of_halts`); resolving the jumps changes no step.
-/

namespace Cpl

open Emit Machine

variable {A : Arithmetic}

section

variable {Γ : Scope} {w w' μ : World A}

theorem Agrees.trans (h : Agrees Γ w w') (h' : Agrees Γ w' μ) : Agrees Γ w μ :=
  ⟨⟨fun hn => (h'.store.cell hn).trans (h.store.cell hn)⟩, h'.input.trans h.input,
    h'.output.trans h.output⟩

theorem Agrees.symm (h : Agrees Γ w w') : Agrees Γ w' w :=
  ⟨⟨fun hn => (h.store.cell hn).symm⟩, h.input.symm, h.output.symm⟩

theorem Agrees.refl (Γ : Scope) (w : World A) : Agrees Γ w w :=
  ⟨⟨fun _ => rfl⟩, rfl, rfl⟩

end

namespace Program

variable {p : Program} {code : List Instruction} {c : Compilation} {start w μ : World A}

theorem UsesDeclared.has (h : p.UsesDeclared) : p.scope.Has (statementsNames p.body.body) := by
  intro name hname
  rw [← Block.names_eq] at hname
  exact isSome_scope.mpr (h name hname)

/-- The code of the body stands from line one on, and the halt after it. There are no open breaks, so
it does not matter to which line they would lead. -/
theorem stands_of_gives (h : p.emit.Gives .start code c) (exit : Nat) :
    ∃ c₁ last, c₁.symbols.Covers p.scope ∧ fetch code last = some .halt ∧
      Stands code exit 1 last (emitStatements p.body.body) c₁ c := by
  obtain ⟨c₁, body, hd, hb, hopen, rfl⟩ := gives_emit.mp h
  have hplaced := placed_of_findSome?_eq_none [] [.halt] exit hopen
  refine ⟨c₁, 1 + body.length, ⟨fun hn => ?_⟩, ?_, ⟨body, Block.gives_iff.mp hb, hplaced, rfl⟩⟩
  · rw [type?_of_declareAll hd, hn]
  · rw [Nat.add_comm]
    exact fetch_append_length body .halt []

/-- If the program runs to its end, the machine comes to the halt. -/
theorem halts_of_runs (h : p.emit.Gives .start code c) (hp : p.UsesDeclared)
    (hr : p.Runs start w) : ∃ μ, Halts code ⟨1, start⟩ μ ∧ Agrees p.scope w μ := by
  obtain ⟨c₁, last, hc, hl, hs⟩ := stands_of_gives h 0
  obtain ⟨μ, hμ, ha, -⟩ := Runs.arrives hr hs hc hp.has (.refl _ start)
  exact ⟨μ, ⟨last, hμ, hl⟩, ha⟩

/-- If the machine comes to the halt, the program runs to its end. -/
theorem runs_of_halts (h : p.emit.Gives .start code c) (hp : p.UsesDeclared)
    (hh : Halts code ⟨1, start⟩ μ) : ∃ w, p.Runs start w ∧ Agrees p.scope w μ := by
  obtain ⟨c₁, last, hc, hl, hs⟩ := stands_of_gives h 0
  obtain ⟨k, hk⟩ := hh.haltsIn
  have ha := Agrees.refl p.scope start
  obtain ⟨ending, w, hr⟩ := exists_runs_sequence _ hs hc hp.has ha hk
  obtain ⟨μ', hμ', ha', -⟩ := hr.arrives hs hc hp.has ha
  cases ending with
  | next => exact ⟨w, hr, hh.unique ⟨last, hμ', hl⟩ ▸ ha'⟩
  | leave =>
    -- A break out of the program would lead to line zero, from which there is no way on.
    obtain ⟨k', -, hk'⟩ := hk.of_reaches hμ'
    exact absurd ⟨rfl, fun hf => by cases hf⟩ hk'.not_stuck

/-- For every world `w`, the compiled code halts in a world that agrees with `w` on output, input and
declared variables if and only if the program runs to one that does. -/
theorem halts_compile_iff_runs {q : Listing} (hq : p.compile = .ok q) (hp : p.UsesDeclared)
    (start w : World A) :
    (∃ μ, Halts q.instructions ⟨1, start⟩ μ ∧ Agrees p.scope w μ) ↔
      ∃ w', p.Runs start w' ∧ Agrees p.scope w w' := by
  obtain ⟨code, c, hg, hr, -⟩ := compile_eq_ok.mp hq
  obtain ⟨-, he⟩ := Instruction.resolveAll_eq_ok.mp hr
  rw [he]
  simp only [halts_settleFrom]
  constructor
  · rintro ⟨μ, hμ, ha⟩
    obtain ⟨w', hw', ha'⟩ := runs_of_halts hg hp hμ
    exact ⟨w', hw', ha.trans ha'.symm⟩
  · rintro ⟨w', hw', ha⟩
    obtain ⟨μ, hμ, ha'⟩ := halts_of_runs hg hp hw'
    exact ⟨μ, hμ, ha.trans ha'⟩

end Program

/-! ### A countdown -/

/-- Integers in place of both number types; a quotient by zero is undefined. -/
def Arithmetic.integers : Arithmetic where
  Val _ := Int
  Cell := Int
  Item := Int
  literal _ l := (Nat.ofDigitChars 10 l.text.toList 0 : Int)
  arith
    | .add, _, l, r => some (l + r)
    | .sub, _, l, r => some (l - r)
    | .mul, _, l, r => some (l * r)
    | .div, _, l, r => if r = 0 then none else some (l.tdiv r)
  holds
    | .equal, _, l, r => l == r
    | .unequal, _, l, r => l != r
    | .less, _, l, r => decide (l < r)
    | .greater, _, l, r => decide (r < l)
  toReal v := v
  toInt v := v
  isZero v := v == 0
  read _ item := item
  store _ v := v
  load _ cell := cell
  load_store _ _ := rfl
  isZero_zero := by decide
  isZero_one := by decide
  zero_equal := by decide
  one_unequal := by decide

/-- The program `x: int; { input(x); while (x > 0) { output(x); x = x - 1; } }`. -/
def countdown : Program :=
  let span : Span := ⟨⟨0, "countdown.ou"⟩, ⟨0, "countdown.ou"⟩⟩
  let x : Expression := .term (.factor (.name ⟨"x", span⟩))
  let zero : Expression := .term (.factor (.literal ⟨"0"⟩))
  { declarations := [⟨[⟨"x", span⟩], .int, span⟩]
    body := ⟨[.input ⟨"x", span⟩ span,
      .loop (.clause (.test (.compare x ⟨">", span.start⟩ zero)))
        (.block ⟨[.output x span,
          .assign ⟨"x", span⟩ (.chain x ⟨"-", span.start⟩ (.factor (.literal ⟨"1"⟩))) span], span⟩)
        span], span⟩ }

def countdownCode : List Instruction :=
  [.quad (.input .int) [.name "x"],
    .quad (.compare .greater .int) [.name "t2", .name "x", .literal ⟨"0"⟩],
    .jumpIfZero (.line 9) (.name "t2"),
    .quad (.convert .float) [.name "t0", .name "x"],
    .quad (.print .float) [.name "t0"],
    .quad (.arith .sub .int) [.name "t1", .name "x", .literal ⟨"1"⟩],
    .quad (.assign .int) [.name "x", .name "t1"],
    .jump (.line 2),
    .halt]

/-- From two, the code halts after seventeen steps, so the program runs to its end, and prints two and
one. -/
theorem countdown_halts_iff_runs :
    countdown.compile = .ok ⟨countdownCode, []⟩ ∧ countdown.UsesDeclared ∧
      ∃ w : World Arithmetic.integers, countdown.Runs ⟨fun _ => (0 : Int), [(2 : Int)], []⟩ w ∧
        w.output = [⟨.float, (2 : Int)⟩, ⟨.float, (1 : Int)⟩] := by
  have hq : countdown.compile = .ok ⟨countdownCode, []⟩ := rfl
  have hp : countdown.UsesDeclared := by decide
  have h : Halts (A := Arithmetic.integers) countdownCode
      ⟨1, ⟨fun _ => (0 : Int), [(2 : Int)], []⟩⟩ _ := ⟨9, ⟨17, rfl⟩, rfl⟩
  obtain ⟨w, hw, ha⟩ := (Program.halts_compile_iff_runs hq hp _ _).mp ⟨_, h, .refl _ _⟩
  exact ⟨hq, hp, w, hw, ha.output⟩

end Cpl
