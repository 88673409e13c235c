import Cpl.Grammar.Expression

/-!
# Grammar of statements

```text
statement  =  name "=" expression ";"
           |  "input" "(" name ")" ";"
           |  "output" "(" expression ")" ";"
           |  "if" "(" condition ")" statement [ "else" statement ]
           |  "while" "(" condition ")" statement
           |  "switch" "(" expression ")" "{" { case } "default" ":" { statement } "}"
           |  "break" ";"
           |  block
case       =  "case" number ":" { statement }
block      =  "{" { statement } "}"
```

A `Form` is one of these alternatives, and a `FormTable` picks the form by the kind of the token
that a statement starts with; `FormTable.standard` is the table of the language. The rule of a form
that starts with a reserved word passes its first token unseen, since the table has looked at it.
-/

namespace Cpl

/-- The shapes of a statement. -/
inductive Form where
  | assignment
  | input
  | output
  | conditional
  | loop
  | choice
  | leave
  | block
deriving DecidableEq, Repr

/-- How to read a statement that starts with a certain kind of token. -/
inductive FormEntry where
  | form (form : Form)
  /-- By the table itself. Such an entry names no form, so `Cursor.statement` refuses the token it is for; a
  procedure that follows the entry comes back to it without end. The table of the language has none, and the
  results about programs are about that table. -/
  | any
deriving DecidableEq, Repr

/-- Picks the form of a statement by the kind of its first token. -/
abbrev FormTable := Kind → Option FormEntry

namespace FormTable

def empty : FormTable := fun _ => none

/-- The table of the language. -/
def standard : FormTable
  | .identifier => some (.form .assignment)
  | .kwInput => some (.form .input)
  | .kwOutput => some (.form .output)
  | .kwIf => some (.form .conditional)
  | .kwWhile => some (.form .loop)
  | .kwSwitch => some (.form .choice)
  | .kwBreak => some (.form .leave)
  | .openCurly => some (.form .block)
  | _ => none

/-- The table with another entry for a kind. -/
def register (table : FormTable) (kind : Kind) (entry : FormEntry) : FormTable :=
  fun k => if k = kind then some entry else table k

end FormTable

namespace Cursor

/-! ## Forms without inner statements -/

def ident (c : Cursor) : Reading Ident c.remaining :=
  (c.expectNoting .identifier "expected identifier").andThen fun name c₁ h₁ =>
  .done name.ident c₁ h₁

def assignment (c : Cursor) : Reading Statement c.remaining :=
  c.ident.andThen fun target c₁ _ =>
  (c₁.expectNoting .assignment "expected `=` after the assigned variable").andThen fun _ c₂ _ =>
  c₂.expression.andThen fun value c₃ _ =>
  (c₃.expect .semicolon).andThen fun _ c₄ _ =>
  .done (.assign target value (c₄.spanFrom c.position)) c₄ (by omega)

def input (c : Cursor) : Reading Statement c.remaining :=
  have hle := c.remaining_next_le
  (c.next.expect .openParen).andThen fun _ c₁ _ =>
  c₁.ident.andThen fun target c₂ _ =>
  (c₂.expect .closeParen).andThen fun _ c₃ _ =>
  (c₃.expect .semicolon).andThen fun _ c₄ _ =>
  .done (.input target (c₄.spanFrom c.position)) c₄ (by omega)

def output (c : Cursor) : Reading Statement c.remaining :=
  have hle := c.remaining_next_le
  (c.next.expect .openParen).andThen fun _ c₁ _ =>
  c₁.expression.andThen fun value c₂ _ =>
  (c₂.expect .closeParen).andThen fun _ c₃ _ =>
  (c₃.expect .semicolon).andThen fun _ c₄ _ =>
  .done (.output value (c₄.spanFrom c.position)) c₄ (by omega)

def leave (c : Cursor) : Reading Statement c.remaining :=
  have hle := c.remaining_next_le
  (c.next.expect .semicolon).andThen fun _ c₁ _ =>
  .done (.leave (c₁.spanFrom c.position)) c₁ (by omega)

/-- A case label up to its colon; the label is an integer. -/
def caseLabel (c : Cursor) : Reading Literal c.remaining :=
  (c.expectNoting .number "expected an integer case label").andThen fun number c₁ _ =>
  let label : Literal := ⟨number.value⟩
  if label.type = .int then
    (c₁.expect .colon).andThen fun _ c₂ _ => .done label c₂ (by omega)
  else .failed ⟨.labelNotInteger number.value, number.span.start⟩ c₁

/-! ## Statements -/

/-- Whether a list of statements ends before a token of this kind. -/
def endsStatements : Kind → Bool
  | .closeCurly | .kwCase | .kwDefault | .eof => true
  | _ => false

mutual

/-- A statement of the form that the table picks. -/
def statement (table : FormTable) (c : Cursor) : Reading Statement c.remaining :=
  match table c.kind with
  | some (.form form) => c.formed table form
  | _ => .failed (c.misfit "expected a statement") c
termination_by 4 * c.remaining + 3

/-- A statement of the given form. -/
def formed (table : FormTable) (c : Cursor) (form : Form) : Reading Statement c.remaining :=
  match form with
  | .assignment => c.assignment
  | .input => c.input
  | .output => c.output
  | .conditional => c.conditional table
  | .loop => c.loop table
  | .choice => c.choice table
  | .leave => c.leave
  | .block => (c.block table).andThen fun block c₁ h₁ => .done (.block block) c₁ h₁
termination_by 4 * c.remaining + 2

def conditional (table : FormTable) (c : Cursor) : Reading Statement c.remaining :=
  have hle := c.remaining_next_le
  (c.next.expect .openParen).andThen fun _ c₁ _ =>
  c₁.condition.andThen fun condition c₂ _ =>
  (c₂.expect .closeParen).andThen fun _ c₃ _ =>
  (c₃.statement table).andThen fun body c₄ _ =>
  if h : c₄.kind = .kwElse then
    have hlt : c₄.next.remaining < c₄.remaining := remaining_next_lt (by simp [h])
    (c₄.next.statement table).andThen fun other c₅ _ =>
    .done (.ifElse condition body other (c₅.spanFrom c.position)) c₅ (by omega)
  else .done (.ifThen condition body (c₄.spanFrom c.position)) c₄ (by omega)
termination_by 4 * c.remaining + 1

def loop (table : FormTable) (c : Cursor) : Reading Statement c.remaining :=
  have hle := c.remaining_next_le
  (c.next.expect .openParen).andThen fun _ c₁ _ =>
  c₁.condition.andThen fun condition c₂ _ =>
  (c₂.expect .closeParen).andThen fun _ c₃ _ =>
  (c₃.statement table).andThen fun body c₄ _ =>
  .done (.loop condition body (c₄.spanFrom c.position)) c₄ (by omega)
termination_by 4 * c.remaining + 1

def choice (table : FormTable) (c : Cursor) : Reading Statement c.remaining :=
  have hle := c.remaining_next_le
  (c.next.expect .openParen).andThen fun _ c₁ _ =>
  c₁.expression.andThen fun selector c₂ _ =>
  (c₂.expect .closeParen).andThen fun _ c₃ _ =>
  (c₃.expect .openCurly).andThen fun _ c₄ _ =>
  (c₄.cases table).andThen fun cases c₅ _ =>
  (c₅.expectNoting .kwDefault "a switch must end with a `default` arm").andThen fun _ c₆ _ =>
  (c₆.expect .colon).andThen fun _ c₇ _ =>
  (c₇.statements table).andThen fun body c₈ _ =>
  let default : Block := ⟨body, c₈.spanFrom c₅.position⟩
  (c₈.expect .closeCurly).andThen fun _ c₉ _ =>
  .done (.switch selector cases default (c₉.spanFrom c.position)) c₉ (by omega)
termination_by 4 * c.remaining + 1

/-- The cases of a switch, up to its default arm. -/
def cases (table : FormTable) (c : Cursor) : Reading (List Case) (c.remaining + 1) :=
  if h : c.kind = .kwCase then
    have hlt : c.next.remaining < c.remaining := remaining_next_lt (by simp [h])
    c.next.caseLabel.andThen fun label c₁ _ =>
    (c₁.statements table).andThen fun body c₂ _ =>
    let arm : Case := ⟨label, ⟨body, c₂.spanFrom c₁.position⟩, c₂.spanFrom c.position⟩
    (c₂.cases table).andThen fun arms c₃ _ => .done (arm :: arms) c₃ (by omega)
  else .done [] c (Nat.lt_succ_self _)
termination_by 4 * c.remaining

def block (table : FormTable) (c : Cursor) : Reading Block c.remaining :=
  (c.expectNoting .openCurly "expected `\x7b`").andThen fun _ c₁ _ =>
  (c₁.statements table).andThen fun body c₂ _ =>
  (c₂.expectNoting .closeCurly "expected `\x7d`").andThen fun _ c₃ _ =>
  .done ⟨body, c₃.spanFrom c.position⟩ c₃ (by omega)
termination_by 4 * c.remaining + 1

/-- The statements up to a token that ends their list. -/
def statements (table : FormTable) (c : Cursor) : Reading (List Statement) (c.remaining + 1) :=
  if endsStatements c.kind then .done [] c (Nat.lt_succ_self _)
  else
    (c.statement table).andThen fun first c₁ _ =>
    (c₁.statements table).andThen fun rest c₂ _ => .done (first :: rest) c₂ (by omega)
termination_by 4 * c.remaining + 4

end

end Cursor

end Cpl
