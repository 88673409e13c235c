import Cpl.Diagnostic
import Cpl.Token

/-!
# Reading tokens

A `Cursor` stands on one token of a list that is closed by an end token; it moves forward and
never beyond the end token. A `Reading` is what a grammar rule makes of the tokens at a cursor: a
value and the cursor after it, or a diagnostic and the cursor where the rule gave up. Its index
bounds the tokens that a success leaves ahead, which is what lets the rules call each other.
-/

namespace Cpl

/-- The token that closes a list of tokens; its kind is fixed. -/
structure EndMark where
  value : String
  span : Span
deriving DecidableEq, Repr

def EndMark.token (m : EndMark) : Token :=
  ⟨.eof, m.value, m.span⟩

/-- A place in a list of tokens that ends with an end token. -/
structure Cursor where
  /-- The tokens behind, the nearest first. -/
  passed : List Token
  /-- The tokens ahead, the current one first, without the end token. -/
  ahead : List Token
  finish : EndMark
deriving DecidableEq, Repr

namespace Cursor

/-- The first of a list of tokens. If the list is not closed by an end token it gets one, right
behind its last token, or at the start of the file if there is none. -/
def ofTokens (tokens : List Token) (file : String) : Cursor :=
  match tokens.getLast? with
  | none => ⟨[], [], ⟨"EOF", ⟨.ofByte file 0, .ofByte file 0⟩⟩⟩
  | some last =>
    if last.kind = .eof then ⟨[], tokens.dropLast, ⟨last.value, last.span⟩⟩
    else ⟨[], tokens, ⟨"EOF", ⟨last.span.stop, last.span.stop⟩⟩⟩

/-- The whole list. -/
def tokens (c : Cursor) : List Token :=
  c.passed.reverse ++ c.ahead ++ [c.finish.token]

/-- The index of the current token in the whole list. -/
def index (c : Cursor) : Nat :=
  c.passed.length

/-- The number of tokens before the end token. -/
def remaining (c : Cursor) : Nat :=
  c.ahead.length

/-- The current token. -/
def token (c : Cursor) : Token :=
  c.ahead.headD c.finish.token

def kind (c : Cursor) : Kind :=
  c.token.kind

/-- Where the current token starts. -/
def position (c : Cursor) : Position :=
  c.token.span.start

/-- The cursor on the next token; on the end token it stays. -/
def next (c : Cursor) : Cursor :=
  match c.ahead with
  | [] => c
  | t :: ts => { c with passed := t :: c.passed, ahead := ts }

/-- From `start` to the end of the token passed last. -/
def spanFrom (c : Cursor) (start : Position) : Span :=
  ⟨start, match c.passed with
    | [] => start
    | t :: _ => t.span.stop⟩

/-- The current token is out of place. -/
def unexpected (c : Cursor) : Diagnostic :=
  ⟨.unexpectedToken c.token.value, c.position⟩

/-- The current token is not what the message asks for. -/
def misfit (c : Cursor) (message : String) : Diagnostic :=
  ⟨.misfitToken c.token.value message, c.position⟩

theorem remaining_next_le (c : Cursor) : c.next.remaining ≤ c.remaining := by
  unfold next remaining
  split <;> simp_all

/-- A token that is no end token is passed for good. -/
theorem remaining_next_lt {c : Cursor} (h : c.kind ≠ .eof) : c.next.remaining < c.remaining := by
  unfold next remaining
  split
  · rename_i hnil
    simp [kind, token, hnil, EndMark.token] at h
  · rename_i hcons
    simp [hcons]

theorem tokens_next (c : Cursor) : c.next.tokens = c.tokens := by
  unfold next tokens
  split
  · rfl
  · rename_i hcons
    simp [hcons]

theorem index_le_index_next (c : Cursor) : c.index ≤ c.next.index := by
  unfold next index
  split <;> simp

end Cursor

/-! ## Readings -/

/-- A value read with fewer than `bound` tokens left ahead, or a failure. -/
inductive Reading (α : Type) (bound : Nat) where
  | done (value : α) (cursor : Cursor) (shorter : cursor.remaining < bound)
  | failed (error : Diagnostic) (cursor : Cursor)

namespace Reading

variable {α β : Type} {m n : Nat}

/-- Reads on from where a success left off. -/
def andThen (r : Reading α m)
    (f : (value : α) → (c : Cursor) → c.remaining < m → Reading β n) : Reading β n :=
  match r with
  | done value c h => f value c h
  | failed error c => failed error c

/-- Forgets some of what is known about the tokens left. -/
def weaken (r : Reading α m) (h : m ≤ n) : Reading α n :=
  match r with
  | done value c hc => done value c (Nat.lt_of_lt_of_le hc h)
  | failed error c => failed error c

def result : Reading α n → Except Diagnostic α
  | done value _ _ => .ok value
  | failed error _ => .error error

/-- Where the reading ended, well or not. -/
def cursor : Reading α n → Cursor
  | done _ c _ => c
  | failed _ c => c

@[simp] theorem result_weaken (r : Reading α m) (h : m ≤ n) : (r.weaken h).result = r.result := by
  cases r <;> rfl

@[simp] theorem cursor_weaken (r : Reading α m) (h : m ≤ n) : (r.weaken h).cursor = r.cursor := by
  cases r <;> rfl

end Reading

namespace Cursor

/-- Passes a token of the given kind, or fails with the given error. -/
def demand (c : Cursor) (kind : Kind) (error : Diagnostic) : Reading Token (c.remaining + 1) :=
  if c.kind = kind then .done c.token c.next (Nat.lt_succ_of_le c.remaining_next_le)
  else .failed error c

/-- Passes a token of the given kind, which is not the end token, or fails with the given error. -/
def take (c : Cursor) (kind : Kind) (error : Diagnostic) (h : kind.IsWritten) :
    Reading Token c.remaining :=
  if hk : c.kind = kind then .done c.token c.next (remaining_next_lt (hk ▸ h.ne_eof))
  else .failed error c

/-- Passes a token of the given kind. -/
def expect (c : Cursor) (kind : Kind) (h : kind.IsWritten := by exact trivial) :
    Reading Token c.remaining :=
  c.take kind c.unexpected h

/-- Passes a token of the given kind, or fails with a message that says what is expected. -/
def expectNoting (c : Cursor) (kind : Kind) (message : String)
    (h : kind.IsWritten := by exact trivial) : Reading Token c.remaining :=
  c.take kind (c.misfit message) h

end Cursor

end Cpl
