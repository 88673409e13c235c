import Cpl.Quad

/-!
# Listings

A finished program: its instructions, and the warnings made on the way. A listing is written one
instruction a line, with or without line numbers.
-/

namespace Cpl

structure Listing where
  instructions : List Instruction
  /-- In the order in which they were made. -/
  warnings : List String
deriving DecidableEq, Repr

namespace Listing

def size (l : Listing) : Nat :=
  l.instructions.length

def isEmpty (l : Listing) : Bool :=
  l.instructions.isEmpty

/-- The text of each instruction. -/
def lines (l : Listing) : List String :=
  l.instructions.map Instruction.text

/-- Writes lines of which the first has the given number. -/
def renderFrom (numbered : Bool) : Nat → List String → String
  | _, [] => ""
  | number, line :: rest =>
    (if numbered then toString number ++ ":\t" else "") ++ line ++ "\n" ++
      renderFrom numbered (number + 1) rest

/-- The lines, each ended by a line feed and, if wanted, headed by its number. -/
def render (l : Listing) (numbered : Bool) : String :=
  renderFrom numbered 1 l.lines

end Listing

end Cpl
