import Cpl.Grammar.Statement

/-!
# Grammar of programs

```text
program      =  { declaration } block
declaration  =  name { "," name } ":" type ";"
type         =  "int"  |  "float"
```

Declarations are read as long as a name follows, and nothing may follow the block.
`Program.ofTokens` reads a whole list of tokens.
-/

namespace Cpl

namespace Cursor

def numType (c : Cursor) : Reading NumType c.remaining :=
  match h : c.kind with
  | .kwInt => .done .int c.next (remaining_next_lt (by simp [h]))
  | .kwFloat => .done .float c.next (remaining_next_lt (by simp [h]))
  | _ => .failed (c.misfit "expected `int` or `float`") c

/-- The names that follow the first one of a declaration. -/
def furtherIdents (c : Cursor) : Reading (List Ident) (c.remaining + 1) :=
  if h : c.kind = .comma then
    have hlt : c.next.remaining < c.remaining := remaining_next_lt (by simp [h])
    c.next.ident.andThen fun name c₁ _ =>
    c₁.furtherIdents.andThen fun names c₂ _ => .done (name :: names) c₂ (by omega)
  else .done [] c (Nat.lt_succ_self _)
termination_by c.remaining

def declaration (c : Cursor) : Reading Declaration c.remaining :=
  c.ident.andThen fun first c₁ _ =>
  c₁.furtherIdents.andThen fun names c₂ _ =>
  (c₂.expectNoting .colon "expected `:` before the declared type").andThen fun _ c₃ _ =>
  c₃.numType.andThen fun type c₄ _ =>
  (c₄.expect .semicolon).andThen fun _ c₅ _ =>
  .done ⟨first :: names, type, c₅.spanFrom c.position⟩ c₅ (by omega)

/-- Declarations as long as a name follows. -/
def declarations (c : Cursor) : Reading (List Declaration) (c.remaining + 1) :=
  if c.kind = .identifier then
    c.declaration.andThen fun first c₁ h₁ =>
    c₁.declarations.andThen fun rest c₂ h₂ =>
    .done (first :: rest) c₂ (Nat.lt_trans h₂ (Nat.succ_lt_succ h₁))
  else .done [] c (Nat.lt_succ_self _)
termination_by c.remaining

def program (c : Cursor) : Reading Program (c.remaining + 1) :=
  c.declarations.andThen fun declarations c₁ _ =>
  (c₁.block .standard).andThen fun body c₂ _ =>
  (c₂.demand .eof (c₂.misfit "expected end of file after the program block")).andThen
    fun _ c₃ _ => .done ⟨declarations, body⟩ c₃ (by omega)

end Cursor

/-- The program that a list of tokens spells. -/
def Program.ofTokens (tokens : List Token) (file : String) : Except Diagnostic Program :=
  (Cursor.ofTokens tokens file).program.result

end Cpl
