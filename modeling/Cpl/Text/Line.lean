/-!
# Lines of a text

A text is a sequence of lines, each ending with its line feed, the last one possibly without.
Places in a text are byte offsets into its UTF-8 form. `lineAt?` finds the line that holds an
offset; the end of the text counts as the end of its last line.
-/

namespace Cpl.Text

/-- The number of bytes of the UTF-8 form. -/
def byteSize (cs : List Char) : Nat :=
  cs.foldr (fun c size => c.utf8Size + size) 0

@[simp] theorem byteSize_nil : byteSize [] = 0 := rfl

@[simp] theorem byteSize_cons (c : Char) (cs : List Char) :
    byteSize (c :: cs) = c.utf8Size + byteSize cs := rfl

@[simp] theorem byteSize_append (as bs : List Char) :
    byteSize (as ++ bs) = byteSize as + byteSize bs := by
  induction as with
  | nil => simp
  | cons c as ih => rw [List.cons_append, byteSize_cons, byteSize_cons, ih, Nat.add_assoc]

/-- The text after its first `n` bytes, for an `n` at which a character starts. -/
def dropBytes : Nat → List Char → List Char
  | 0, cs => cs
  | _, [] => []
  | n + 1, c :: cs => dropBytes (n + 1 - c.utf8Size) cs

/-- The lines of a text, each with its line feed. -/
def lines : List Char → List (List Char)
  | [] => []
  | c :: cs =>
    if c = '\n' then [c] :: lines cs
    else
      match lines cs with
      | [] => [[c]]
      | line :: rest => (c :: line) :: rest

/-- The lines join to the text. -/
theorem lines_flatten (cs : List Char) : (lines cs).flatten = cs := by
  induction cs with
  | nil => rfl
  | cons c cs ih =>
    unfold lines
    split
    · simp [ih]
    · split <;> rename_i h <;> simp [h] at ih ⊢ <;> simp [ih]

/-- An offset seen from the line that holds it. -/
structure Place where
  /-- Counted from one. -/
  number : Nat
  /-- The line, with its line feed. -/
  line : List Char
  /-- Bytes from the start of the line. -/
  column : Nat
deriving DecidableEq, Repr

/-- The place of an offset among lines of which the first has the given number. -/
def placeIn : Nat → List (List Char) → Nat → Place
  | number, [], _ => ⟨number, [], 0⟩
  | number, [line], offset => ⟨number, line, offset⟩
  | number, line :: next :: rest, offset =>
    if offset < byteSize line then ⟨number, line, offset⟩
    else placeIn (number + 1) (next :: rest) (offset - byteSize line)

/-- The line that holds a byte offset, or `none` past the end of the text. -/
def lineAt? (source : String) (offset : Nat) : Option Place :=
  if byteSize source.toList < offset then none
  else some (placeIn 1 (lines source.toList) offset)

end Cpl.Text
