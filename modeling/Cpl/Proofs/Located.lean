import Cpl.Proofs.Simulation.Statement

/-!
# Where the statements of a program stand

Every statement in a program, at whatever depth, has a place in its code (`located_of_mem_statements`). Wherever
it is, it was emitted when the declared names had their types.
-/

namespace Cpl

open Emit Machine

variable {Γ : Scope} {code : List Instruction}

mutual

/-- The statements inside a statement, at any depth. -/
def Statement.inner : Statement → List Statement
  | .assign _ _ _ | .input _ _ | .output _ _ | .leave _ => []
  | .ifThen _ body _ => body :: body.inner
  | .ifElse _ body other _ => (body :: body.inner) ++ (other :: other.inner)
  | .loop _ body _ => body :: body.inner
  | .switch _ cases default _ => casesStatements cases ++ default.statements
  | .block block => block.statements

@[inherit_doc Statement.inner]
def Block.statements : Block → List Statement
  | ⟨body, _⟩ => allStatements body

/-- The statements of a sequence and those inside them. -/
def allStatements : List Statement → List Statement
  | [] => []
  | first :: rest => (first :: first.inner) ++ allStatements rest

@[inherit_doc Statement.inner]
def casesStatements : List Case → List Statement
  | [] => []
  | ⟨_, body, _⟩ :: rest => body.statements ++ casesStatements rest

end

/-- The code of the statement stands somewhere in the program, emitted when the declared names had their types.
All names in it are declared. -/
def Located (Γ : Scope) (code : List Instruction) (statement : Statement) : Prop :=
  Γ.Has statement.names ∧
    ∃ exit n next d d', Stands code exit n next statement.emit d d' ∧ d.symbols.Covers Γ

section

variable {statement : Statement} {exit n next : Nat} {c c' : Compilation}

theorem located_of_mem_cons {body : Statement}
    (hs : Stands code exit n next body.emit c c') (hc : c.symbols.Covers Γ) (hn : Γ.Has body.names)
    (hinner : statement ∈ body.inner → Located Γ code statement)
    (h : statement ∈ body :: body.inner) : Located Γ code statement := by
  rcases List.mem_cons.mp h with rfl | h
  · exact ⟨hn, exit, n, next, c, c', hs, hc⟩
  · exact hinner h

end

mutual

theorem Statement.located_of_mem_inner {statement : Statement} :
    ∀ (outer : Statement) {exit n next : Nat} {c c' : Compilation},
    Stands code exit n next outer.emit c c' → c.symbols.Covers Γ → Γ.Has outer.names →
    statement ∈ outer.inner → Located Γ code statement
  | .assign _ _ _, _, _, _, _, _, _, _, _, h => nomatch h
  | .input _ _, _, _, _, _, _, _, _, _, h => nomatch h
  | .output _ _, _, _, _, _, _, _, _, _, h => nomatch h
  | .leave _, _, _, _, _, _, _, _, _, h => nomatch h
  | .ifThen condition body span, _, _, _, _, _, hs, hc, hn, h => by
    obtain ⟨b, c₁, m, hb, -, ht⟩ := hs.ifThen
    rw [Statement.names, Scope.has_append] at hn
    rw [Statement.inner] at h
    have hc₁ := hc.grows (condition.extends_emit.of_gives hb).symbols
    exact located_of_mem_cons ht hc₁ hn.2 (Statement.located_of_mem_inner body ht hc₁ hn.2) h
  | .ifElse condition body other span, _, _, _, _, _, hs, hc, hn, h => by
    obtain ⟨b, c₁, m, l, k, c₂, hb, -, ht, -, he⟩ := hs.ifElse
    rw [Statement.names, Scope.has_append, Scope.has_append] at hn
    rw [Statement.inner, List.mem_append] at h
    have hc₁ := hc.grows (condition.extends_emit.of_gives hb).symbols
    rcases h with h | h
    · exact located_of_mem_cons ht hc₁ hn.1.2 (Statement.located_of_mem_inner body ht hc₁ hn.1.2) h
    · have hc₂ := hc₁.grows (ht.grows body.extends_emit)
      exact located_of_mem_cons he hc₂ hn.2 (Statement.located_of_mem_inner other he hc₂ hn.2) h
  | .loop condition body span, _, _, _, _, _, hs, hc, hn, h => by
    obtain ⟨b, c₁, m, k, -, -, ht, -⟩ := hs.loop
    rw [Statement.names, Scope.has_append] at hn
    rw [Statement.inner] at h
    exact located_of_mem_cons ht hc hn.2 (Statement.located_of_mem_inner body ht hc hn.2) h
  | .switch selector cases ⟨body, bodySpan⟩ span, _, _, _, _, _, hs, hc, hn, h => by
    obtain ⟨v, c₁, m, c₂, hv, -, ha, hd⟩ := hs.switch
    rw [Statement.names, Block.names, Scope.has_append, Scope.has_append] at hn
    rw [Statement.inner, Block.statements, List.mem_append] at h
    have hc₁ := hc.grows (selector.extends_emit.of_gives hv).symbols
    rcases h with h | h
    · exact located_of_mem_cases cases ha hc₁ hn.1.2 h
    · obtain ⟨part, hg, -, -⟩ := ha
      have hc₂ := hc₁.grows ((extends_emitCases cases _).of_gives hg).symbols
      exact located_of_mem_statements body hd hc₂ hn.2 h
  | .block ⟨body, bodySpan⟩, _, _, _, _, _, hs, hc, hn, h => by
    rw [Statement.names, Block.names] at hn
    rw [Statement.inner, Block.statements] at h
    exact located_of_mem_statements body hs.block hc hn h

/-- Every statement of a sequence, at whatever depth, has a place in the code of the sequence. -/
theorem located_of_mem_statements {statement : Statement} :
    ∀ (body : List Statement) {exit n next : Nat} {c c' : Compilation},
    Stands code exit n next (emitStatements body) c c' → c.symbols.Covers Γ →
    Γ.Has (statementsNames body) → statement ∈ allStatements body → Located Γ code statement
  | [], _, _, _, _, _, _, _, _, h => by
    rw [allStatements] at h
    cases h
  | first :: rest, _, _, _, _, _, hs, hc, hn, h => by
    obtain ⟨m, c₁, hf, hr⟩ := hs.cons
    rw [statementsNames, Scope.has_append] at hn
    rw [allStatements, List.mem_append] at h
    rcases h with h | h
    · exact located_of_mem_cons hf hc hn.1 (Statement.located_of_mem_inner first hf hc hn.1) h
    · exact located_of_mem_statements rest hr (hc.grows (hf.grows first.extends_emit)) hn.2 h

theorem located_of_mem_cases {statement : Statement} :
    ∀ (cases : List Case) {operand : Operand} {exit n next : Nat} {c c' : Compilation},
    Stands code exit n next (emitCases operand cases) c c' → c.symbols.Covers Γ →
    Γ.Has (casesNames cases) → statement ∈ casesStatements cases → Located Γ code statement
  | [], _, _, _, _, _, _, _, _, _, h => by
    rw [casesStatements] at h
    cases h
  | ⟨label, ⟨body, bodySpan⟩, span⟩ :: rest, _, _, _, _, c, _, hs, hc, hn, h => by
    obtain ⟨m, l, c₁, pair, c₂, hb, hw, -, hr⟩ := hs.consCase
    rw [casesNames, Block.names, Scope.has_append] at hn
    rw [casesStatements, Block.statements, List.mem_append] at h
    have hc' : (c.withTemporary .int).symbols.Covers Γ := hc.grows (c.symbols.grows_temporary .int)
    rcases h with h | h
    · exact located_of_mem_statements body hb hc' hn.1 h
    · obtain ⟨part, hg, -, -⟩ := hb
      have hc₁ := hc'.grows ((extends_emitStatements body).of_gives hg).symbols
      have hc₂ := hc₁.grows ((extends_widenPair ..).of_gives hw).symbols
      exact located_of_mem_cases rest hr hc₂ hn.2 h

end

end Cpl
