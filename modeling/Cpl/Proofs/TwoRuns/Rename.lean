import Cpl.Proofs.Declared
import Cpl.Proofs.Resolution
import Cpl.Proofs.StaticRules

/-!
# Renaming

Trees, code and diagnostics with other names. The names of a tree are those in its declarations, in its
factors and in the targets of its assignments and inputs; the names in code are its slots. All else stays
as it is, places included.

* `Program.rename`, `Instruction.rename`, `Diagnostic.rename`;
* `Instruction.closeBreaks_rename`, `Instruction.settleFrom_rename`: breaks are closed and jumps are resolved
  alike under all names;
* `Program.declared_rename`: the declared names of a renamed program.
-/

namespace Cpl

variable (f : String → String)

/-! ## Code -/

def Operand.rename : Operand → Operand
  | .name slot => .name (f slot)
  | .literal value => .literal value
  | .jump target => .jump target

namespace Instruction

def rename : Instruction → Instruction
  | quad opcode operands => quad opcode (operands.map (Operand.rename f))
  | openBreak position => openBreak position

@[simp] theorem openBreak?_rename (i : Instruction) : (i.rename f).openBreak? = i.openBreak? := by
  cases i <;> rfl

theorem closeBreaksFrom_rename (size : Nat) (code : List Instruction) :
    closeBreaksFrom size (code.map (rename f)) = (closeBreaksFrom size code).map (rename f) := by
  induction code generalizing size with
  | nil => rfl
  | cons i code ih => cases i <;> simp [closeBreaksFrom, rename, ih, jump, Operand.rename]

theorem closeBreaks_rename (code : List Instruction) :
    closeBreaks (code.map (rename f)) = (closeBreaks code).map (rename f) := by
  rw [closeBreaks, List.length_map, closeBreaksFrom_rename, closeBreaks]

theorem findSome?_openBreak?_rename (code : List Instruction) :
    (code.map (rename f)).findSome? openBreak? = code.findSome? openBreak? := by
  rw [List.findSome?_map]
  congr 1
  funext i
  exact openBreak?_rename f i

/-- Settling looks at targets only, and renaming at slots only. -/
theorem settle_rename (line : Nat) (i : Instruction) :
    (i.rename f).settle line = (i.settle line).rename f := by
  cases i with
  | openBreak position => rfl
  | quad opcode operands =>
    simp only [rename, settle, List.map_map]
    congr 2
    funext o
    cases o <;> rfl

theorem settleFrom_rename (line : Nat) (code : List Instruction) :
    settleFrom line (code.map (rename f)) = (settleFrom line code).map (rename f) := by
  induction code generalizing line with
  | nil => rfl
  | cons i code ih => rw [List.map_cons, settleFrom, settleFrom, List.map_cons, settle_rename, ih]

end Instruction

/-! ## Diagnostics -/

/-- With another name in a problem that is about a name. -/
def Problem.rename : Problem → Problem
  | .alreadyDeclared var => .alreadyDeclared (f var)
  | .unknownVariable var => .unknownVariable (f var)
  | .assignFloatToInt var => .assignFloatToInt (f var)
  | problem => problem

def Diagnostic.rename (d : Diagnostic) : Diagnostic :=
  ⟨d.problem.rename f, d.position⟩

/-! ## Trees -/

def Ident.rename (i : Ident) : Ident :=
  ⟨f i.name, i.span⟩

mutual

def Expression.rename : Expression → Expression
  | .term term => .term term.rename
  | .chain left operator right => .chain left.rename operator right.rename

def Term.rename : Term → Term
  | .factor factor => .factor factor.rename
  | .chain left operator right => .chain left.rename operator right.rename

def Factor.rename : Factor → Factor
  | .name ident => .name (ident.rename f)
  | .literal literal => .literal literal
  | .parens inner span => .parens inner.rename span
  | .cast type inner span => .cast type inner.rename span

end

mutual

def Condition.rename : Condition → Condition
  | .clause clause => .clause clause.rename
  | .or left right => .or left.rename right.rename

def Clause.rename : Clause → Clause
  | .test test => .test test.rename
  | .and left right => .and left.rename right.rename

def Test.rename : Test → Test
  | .compare left operator right => .compare (left.rename f) operator (right.rename f)
  | .not inner span => .not inner.rename span

end

mutual

def Statement.rename : Statement → Statement
  | .assign target value span => .assign (target.rename f) (value.rename f) span
  | .input target span => .input (target.rename f) span
  | .output value span => .output (value.rename f) span
  | .ifThen condition body span => .ifThen (condition.rename f) body.rename span
  | .ifElse condition body other span =>
    .ifElse (condition.rename f) body.rename other.rename span
  | .loop condition body span => .loop (condition.rename f) body.rename span
  | .switch selector cases default span =>
    .switch (selector.rename f) (renameCases cases) default.rename span
  | .leave span => .leave span
  | .block block => .block block.rename

def Block.rename : Block → Block
  | ⟨body, span⟩ => ⟨renameStatements body, span⟩

def renameStatements : List Statement → List Statement
  | [] => []
  | first :: rest => first.rename :: renameStatements rest

def renameCases : List Case → List Case
  | [] => []
  | ⟨label, body, span⟩ :: rest => ⟨label, body.rename, span⟩ :: renameCases rest

end

def Declaration.rename (d : Declaration) : Declaration :=
  ⟨d.names.map (Ident.rename f), d.type, d.span⟩

namespace Program

def rename (p : Program) : Program :=
  ⟨p.declarations.map (Declaration.rename f), p.body.rename f⟩

theorem declared_rename (p : Program) :
    (p.rename f).declared = p.declared.map fun entry => (f entry.1, entry.2) := by
  simp [declared, rename, List.flatMap_map, List.map_flatMap, Declaration.rename, Ident.rename,
    Function.comp_def]

theorem declaredIdents_rename (p : Program) :
    (p.rename f).declaredIdents.map Ident.name = (p.declaredIdents.map Ident.name).map f := by
  simp [declaredIdents, rename, List.flatMap_map, List.map_flatMap, Declaration.rename, Ident.rename,
    Function.comp_def]

end Program

/-! ## The names as they are -/

theorem Operand.rename_id (o : Operand) : o.rename id = o := by
  cases o <;> rfl

theorem Instruction.rename_id (i : Instruction) : i.rename id = i := by
  cases i with
  | openBreak position => rfl
  | quad opcode operands =>
    rw [rename, List.map_congr_left fun o _ => o.rename_id, List.map_id']

theorem Diagnostic.rename_id (d : Diagnostic) : d.rename id = d := by
  obtain ⟨problem, position⟩ := d
  cases problem <;> rfl

mutual

theorem Expression.rename_id : ∀ e : Expression, e.rename id = e
  | .term term => by rw [Expression.rename, term.rename_id]
  | .chain left operator right => by rw [Expression.rename, left.rename_id, right.rename_id]

theorem Term.rename_id : ∀ t : Term, t.rename id = t
  | .factor factor => by rw [Term.rename, factor.rename_id]
  | .chain left operator right => by rw [Term.rename, left.rename_id, right.rename_id]

theorem Factor.rename_id : ∀ factor : Factor, factor.rename id = factor
  | .name ident => rfl
  | .literal literal => rfl
  | .parens inner span => by rw [Factor.rename, inner.rename_id]
  | .cast type inner span => by rw [Factor.rename, inner.rename_id]

end

mutual

theorem Condition.rename_id : ∀ b : Condition, b.rename id = b
  | .clause clause => by rw [Condition.rename, clause.rename_id]
  | .or left right => by rw [Condition.rename, left.rename_id, right.rename_id]

theorem Clause.rename_id : ∀ b : Clause, b.rename id = b
  | .test test => by rw [Clause.rename, test.rename_id]
  | .and left right => by rw [Clause.rename, left.rename_id, right.rename_id]

theorem Test.rename_id : ∀ b : Test, b.rename id = b
  | .compare left operator right => by rw [Test.rename, left.rename_id, right.rename_id]
  | .not inner span => by rw [Test.rename, inner.rename_id]

end

mutual

theorem Statement.rename_id : ∀ st : Statement, st.rename id = st
  | .assign target value span => by rw [Statement.rename, value.rename_id]; rfl
  | .input target span => rfl
  | .output value span => by rw [Statement.rename, value.rename_id]
  | .ifThen condition body span => by
    rw [Statement.rename, condition.rename_id, body.rename_id]
  | .ifElse condition body other span => by
    rw [Statement.rename, condition.rename_id, body.rename_id, other.rename_id]
  | .loop condition body span => by rw [Statement.rename, condition.rename_id, body.rename_id]
  | .switch selector cases default span => by
    rw [Statement.rename, selector.rename_id, renameCases_id cases, default.rename_id]
  | .leave span => rfl
  | .block block => by rw [Statement.rename, block.rename_id]

theorem Block.rename_id : ∀ b : Block, b.rename id = b
  | ⟨body, span⟩ => by rw [Block.rename, renameStatements_id body]

theorem renameStatements_id : ∀ body : List Statement, renameStatements id body = body
  | [] => rfl
  | first :: rest => by rw [renameStatements, first.rename_id, renameStatements_id rest]

theorem renameCases_id : ∀ cases : List Case, renameCases id cases = cases
  | [] => rfl
  | ⟨label, body, span⟩ :: rest => by rw [renameCases, body.rename_id, renameCases_id rest]

end

end Cpl
