import Cpl.Grammar.Program

/-!
# Rules as procedures

The rules of the grammar as loops and calls that move one cursor. Nothing here bounds how far a procedure goes on in
the list of tokens. Instead it is given fuel, of which each call and each turn of a loop takes one away, and
where that runs out it has no outcome. The rules of `Cpl.Grammar` carry a bound with every reading.

`Follows p c r` says that from `c` on the procedure `p` comes to an end as the reading `r` says, in the same list and
not before `c`. By `Follows.bind` it is followed through the steps of a rule. That all procedures do so is
shown in `Cpl.Proofs.Grammar.Progress`.
-/

namespace Cpl

/-- Reads tokens from a cursor and leaves it where it stopped; it may fail, and it may run out of fuel. -/
abbrev Procedure (α : Type) := ExceptT Diagnostic (StateT Cursor Option) α

namespace Procedure

/-- The result of the procedure and the cursor that it leaves, if it comes to an end. -/
def outcome {α : Type} (p : Procedure α) (c : Cursor) : Option (Except Diagnostic α × Cursor) :=
  StateT.run (ExceptT.run p) c

/-- Out of fuel. -/
def exhausted {α : Type} : Procedure α :=
  ExceptT.mk fun _ => none

/-! ## Passing tokens -/

/-- Passes the current token, whatever it is; the end token is returned but not passed. -/
def advance : Procedure Token := do
  let c ← get
  set c.next
  return c.token

/-- Passes a token of the given kind, or fails with the error for the cursor. -/
def demand (kind : Kind) (error : Cursor → Diagnostic) : Procedure Token := do
  let c ← get
  if c.kind = kind then advance else throw (error c)

def expect (kind : Kind) : Procedure Token :=
  demand kind Cursor.unexpected

def expectNoting (kind : Kind) (message : String) : Procedure Token :=
  demand kind (Cursor.misfit · message)

/-! ## Expressions -/

mutual

def expression : Nat → Procedure Expression
  | 0 => exhausted
  | fuel + 1 => do
    let first ← term fuel
    expressionAfter (.term first) fuel

def expressionAfter (left : Expression) : Nat → Procedure Expression
  | 0 => exhausted
  | fuel + 1 => do
    let c ← get
    if c.kind.isAdditive then
      let operator ← advance
      let right ← term fuel
      expressionAfter (.chain left operator.operator right) fuel
    else return left

def term : Nat → Procedure Term
  | 0 => exhausted
  | fuel + 1 => do
    let first ← factor fuel
    termAfter (.factor first) fuel

def termAfter (left : Term) : Nat → Procedure Term
  | 0 => exhausted
  | fuel + 1 => do
    let c ← get
    if c.kind.isMultiplicative then
      let operator ← advance
      let right ← factor fuel
      termAfter (.chain left operator.operator right) fuel
    else return left

def factor : Nat → Procedure Factor
  | 0 => exhausted
  | fuel + 1 => do
    let c ← get
    match c.kind with
    | .identifier => return .name (← advance).ident
    | .number => return .literal ⟨(← advance).value⟩
    | .openParen =>
      let first ← advance
      let inner ← expression fuel
      let _ ← expect .closeParen
      return .parens inner ((← get).spanFrom first.span.start)
    | .cast =>
      let first ← advance
      match first.castType with
      | .error error => throw error
      | .ok type =>
        let _ ← expect .openParen
        let inner ← expression fuel
        let _ ← expect .closeParen
        return .cast type inner ((← get).spanFrom first.span.start)
    | _ => throw (c.misfit "expected an expression")

end

/-! ## Conditions -/

mutual

def condition : Nat → Procedure Condition
  | 0 => exhausted
  | fuel + 1 => do
    let first ← clause fuel
    conditionAfter (.clause first) fuel

def conditionAfter (left : Condition) : Nat → Procedure Condition
  | 0 => exhausted
  | fuel + 1 => do
    let c ← get
    if c.kind = .or then
      let _ ← advance
      let right ← clause fuel
      conditionAfter (.or left right) fuel
    else return left

def clause : Nat → Procedure Clause
  | 0 => exhausted
  | fuel + 1 => do
    let first ← test fuel
    clauseAfter (.test first) fuel

def clauseAfter (left : Clause) : Nat → Procedure Clause
  | 0 => exhausted
  | fuel + 1 => do
    let c ← get
    if c.kind = .and then
      let _ ← advance
      let right ← test fuel
      clauseAfter (.and left right) fuel
    else return left

def test : Nat → Procedure Test
  | 0 => exhausted
  | fuel + 1 => do
    let c ← get
    if c.kind = .not then
      let first ← advance
      let _ ← expectNoting .openParen "`!` must be followed by `(`"
      let inner ← condition fuel
      let _ ← expect .closeParen
      return .not inner ((← get).spanFrom first.span.start)
    else
      let left ← expression fuel
      let c₁ ← get
      if c₁.kind.isRelational then
        let operator ← advance
        let right ← expression fuel
        return .compare left operator.operator right
      else throw (c₁.misfit "expected a relational operator")

end

/-! ## Statements -/

def ident : Procedure Ident := do
  let name ← expectNoting .identifier "expected identifier"
  return name.ident

def assignment (fuel : Nat) : Procedure Statement := do
  let c ← get
  let target ← ident
  let _ ← expectNoting .assignment "expected `=` after the assigned variable"
  let value ← expression fuel
  let _ ← expect .semicolon
  return .assign target value ((← get).spanFrom c.position)

def input : Procedure Statement := do
  let first ← advance
  let _ ← expect .openParen
  let target ← ident
  let _ ← expect .closeParen
  let _ ← expect .semicolon
  return .input target ((← get).spanFrom first.span.start)

def output (fuel : Nat) : Procedure Statement := do
  let first ← advance
  let _ ← expect .openParen
  let value ← expression fuel
  let _ ← expect .closeParen
  let _ ← expect .semicolon
  return .output value ((← get).spanFrom first.span.start)

def leave : Procedure Statement := do
  let first ← advance
  let _ ← expect .semicolon
  return .leave ((← get).spanFrom first.span.start)

def caseLabel : Procedure Literal := do
  let number ← expectNoting .number "expected an integer case label"
  let label : Literal := ⟨number.value⟩
  if label.type = .int then
    let _ ← expect .colon
    return label
  else throw ⟨.labelNotInteger number.value, number.span.start⟩

mutual

/-- A statement by the table. An entry that points back to the table is followed. -/
def statement (table : FormTable) : Nat → Procedure Statement
  | 0 => exhausted
  | fuel + 1 => do
    let c ← get
    match table c.kind with
    | some (.form form) => formed table form fuel
    | some .any => statement table fuel
    | none => throw (c.misfit "expected a statement")

def formed (table : FormTable) (form : Form) : Nat → Procedure Statement
  | 0 => exhausted
  | fuel + 1 =>
    match form with
    | .assignment => assignment fuel
    | .input => input
    | .output => output fuel
    | .conditional => conditional table fuel
    | .loop => loop table fuel
    | .choice => choice table fuel
    | .leave => leave
    | .block => do return .block (← block table fuel)

def conditional (table : FormTable) : Nat → Procedure Statement
  | 0 => exhausted
  | fuel + 1 => do
    let first ← advance
    let _ ← expect .openParen
    let guard ← condition fuel
    let _ ← expect .closeParen
    let body ← statement table fuel
    let c ← get
    if c.kind = .kwElse then
      let _ ← advance
      let other ← statement table fuel
      return .ifElse guard body other ((← get).spanFrom first.span.start)
    else return .ifThen guard body (c.spanFrom first.span.start)

def loop (table : FormTable) : Nat → Procedure Statement
  | 0 => exhausted
  | fuel + 1 => do
    let first ← advance
    let _ ← expect .openParen
    let guard ← condition fuel
    let _ ← expect .closeParen
    let body ← statement table fuel
    return .loop guard body ((← get).spanFrom first.span.start)

def choice (table : FormTable) : Nat → Procedure Statement
  | 0 => exhausted
  | fuel + 1 => do
    let first ← advance
    let _ ← expect .openParen
    let selector ← expression fuel
    let _ ← expect .closeParen
    let _ ← expect .openCurly
    let arms ← cases table fuel
    let c ← get
    let _ ← expectNoting .kwDefault "a switch must end with a `default` arm"
    let _ ← expect .colon
    let body ← statements table fuel
    let c₁ ← get
    let _ ← expect .closeCurly
    return .switch selector arms ⟨body, c₁.spanFrom c.position⟩
      ((← get).spanFrom first.span.start)

def cases (table : FormTable) : Nat → Procedure (List Case)
  | 0 => exhausted
  | fuel + 1 => do
    let c ← get
    if c.kind = .kwCase then
      let first ← advance
      let label ← caseLabel
      let c₁ ← get
      let body ← statements table fuel
      let c₂ ← get
      let arms ← cases table fuel
      return ⟨label, ⟨body, c₂.spanFrom c₁.position⟩, c₂.spanFrom first.span.start⟩ :: arms
    else return []

def block (table : FormTable) : Nat → Procedure Block
  | 0 => exhausted
  | fuel + 1 => do
    let c ← get
    let _ ← expectNoting .openCurly "expected `\x7b`"
    let body ← statements table fuel
    let _ ← expectNoting .closeCurly "expected `\x7d`"
    return ⟨body, (← get).spanFrom c.position⟩

def statements (table : FormTable) : Nat → Procedure (List Statement)
  | 0 => exhausted
  | fuel + 1 => do
    let c ← get
    if Cursor.endsStatements c.kind then return []
    else
      let first ← statement table fuel
      let rest ← statements table fuel
      return first :: rest

end

/-! ## Programs -/

def numType : Procedure NumType := do
  let c ← get
  match c.kind with
  | .kwInt =>
    let _ ← advance
    return .int
  | .kwFloat =>
    let _ ← advance
    return .float
  | _ => throw (c.misfit "expected `int` or `float`")

def furtherIdents : Nat → Procedure (List Ident)
  | 0 => exhausted
  | fuel + 1 => do
    let c ← get
    if c.kind = .comma then
      let _ ← advance
      let name ← ident
      let names ← furtherIdents fuel
      return name :: names
    else return []

def declaration (fuel : Nat) : Procedure Declaration := do
  let c ← get
  let first ← ident
  let names ← furtherIdents fuel
  let _ ← expectNoting .colon "expected `:` before the declared type"
  let type ← numType
  let _ ← expect .semicolon
  return ⟨first :: names, type, (← get).spanFrom c.position⟩

def declarations : Nat → Procedure (List Declaration)
  | 0 => exhausted
  | fuel + 1 => do
    let c ← get
    if c.kind = .identifier then
      let first ← declaration fuel
      let rest ← declarations fuel
      return first :: rest
    else return []

def program (fuel : Nat) : Procedure Program := do
  let declarations ← declarations fuel
  let body ← block .standard fuel
  let _ ← expectNoting .eof "expected end of file after the program block"
  return ⟨declarations, body⟩

/-! ## Following a rule -/

end Procedure

/-- The second cursor stands in the same list, and not before the first. -/
structure Cursor.Before (c c' : Cursor) : Prop where
  tokens : c'.tokens = c.tokens
  index : c.index ≤ c'.index

namespace Cursor.Before

theorem refl (c : Cursor) : c.Before c :=
  ⟨rfl, Nat.le_refl _⟩

theorem trans {c c' c'' : Cursor} (h : c.Before c') (h' : c'.Before c'') : c.Before c'' :=
  ⟨h'.tokens.trans h.tokens, Nat.le_trans h.index h'.index⟩

theorem next (c : Cursor) : c.Before c.next :=
  ⟨c.tokens_next, c.index_le_index_next⟩

end Cursor.Before

namespace Procedure

variable {α β : Type} {m n : Nat} {c : Cursor}

/-- From `c` on the procedure comes to an end as the reading says, in the same list and not before `c`. -/
structure Follows (p : Procedure α) (c : Cursor) (r : Reading α n) : Prop where
  outcome : p.outcome c = some (r.result, r.cursor)
  before : c.Before r.cursor

theorem outcome_bind (p : Procedure α) (k : α → Procedure β) (c : Cursor) :
    (p >>= k).outcome c = (p.outcome c).bind fun
      | (.ok x, c') => (k x).outcome c'
      | (.error error, c') => some (.error error, c') := by
  change Option.bind _ _ = Option.bind _ _
  congr 1
  funext ⟨result, c'⟩
  cases result <;> rfl

theorem outcome_get (k : Cursor → Procedure α) (c : Cursor) :
    (get >>= k).outcome c = (k c).outcome c :=
  rfl

theorem outcome_advance (k : Token → Procedure α) (c : Cursor) :
    (advance >>= k).outcome c = (k c.token).outcome c.next :=
  rfl

theorem Follows.bind {p : Procedure α} {k : α → Procedure β} {r : Reading α m}
    {f : (x : α) → (c : Cursor) → c.remaining < m → Reading β n} (h : p.Follows c r)
    (hk : ∀ x c' h', (k x).Follows c' (f x c' h')) : (p >>= k).Follows c (r.andThen f) := by
  obtain ⟨hrun, hbefore⟩ := h
  cases r with
  | done x c' h' =>
    obtain ⟨hrun', hbefore'⟩ := hk x c' h'
    refine ⟨?_, hbefore.trans hbefore'⟩
    rw [outcome_bind, hrun]
    exact hrun'
  | failed error c' =>
    refine ⟨?_, hbefore⟩
    rw [outcome_bind, hrun]
    rfl

theorem Follows.weaken {p : Procedure α} {r : Reading α m} (h : p.Follows c r) (hle : m ≤ n) :
    p.Follows c (r.weaken hle) := by
  refine ⟨?_, ?_⟩
  · rw [h.outcome, Reading.result_weaken, Reading.cursor_weaken]
  · rw [Reading.cursor_weaken]
    exact h.before

theorem follows_pure (x : α) (h : c.remaining < n) : Follows (pure x) c (.done x c h) :=
  ⟨rfl, .refl c⟩

theorem follows_throw (error : Diagnostic) : Follows (throw error) c (.failed error c : Reading α n) :=
  ⟨rfl, .refl c⟩

theorem follows_get {k : Cursor → Procedure α} {r : Reading α n} (h : (k c).Follows c r) :
    Follows (get >>= k) c r :=
  ⟨(outcome_get k c).trans h.outcome, h.before⟩

theorem follows_advance {k : Token → Procedure α} {r : Reading α n}
    (h : (k c.token).Follows c.next r) : Follows (advance >>= k) c r :=
  ⟨(outcome_advance k c).trans h.outcome, (Cursor.Before.next c).trans h.before⟩

theorem follows_demand (c : Cursor) (kind : Kind) (error : Cursor → Diagnostic) :
    (demand kind error).Follows c (c.demand kind (error c)) := by
  refine follows_get ?_
  unfold Cursor.demand
  split
  · exact ⟨rfl, .next c⟩
  · exact follows_throw _

theorem follows_take {kind : Kind} {error : Cursor → Diagnostic} {h : kind.IsWritten} :
    (demand kind error).Follows c (c.take kind (error c) h) := by
  refine follows_get ?_
  unfold Cursor.take
  split
  · exact ⟨rfl, .next c⟩
  · exact follows_throw _

theorem follows_expect (c : Cursor) (kind : Kind) {h : kind.IsWritten} :
    (expect kind).Follows c (c.expect kind h) :=
  follows_take

theorem follows_expectNoting (c : Cursor) (kind : Kind) {message : String} {h : kind.IsWritten} :
    (expectNoting kind message).Follows c (c.expectNoting kind message h) :=
  follows_take

end Procedure

end Cpl
