/-!
# Places in a source file

A position is a byte offset into a named file, a span the stretch between two positions. Offsets
are 32-bit words: an offset of 4 GiB or more is known only modulo `2 ^ 32`.
-/

namespace Cpl

/-- A byte offset into a named file. -/
structure Position where
  offset : UInt32
  file : String
deriving DecidableEq, Repr

/-- The position of a byte offset, reduced to 32 bits. -/
def Position.ofByte (file : String) (byte : Nat) : Position :=
  ⟨UInt32.ofNat byte, file⟩

/-- `file:offset`, as messages cite a position. -/
def Position.text (p : Position) : String :=
  p.file ++ ":" ++ toString p.offset.toNat

/-- From `start` up to, and without, `stop`. -/
structure Span where
  start : Position
  stop : Position
deriving DecidableEq, Repr

/-- An offset that fits into 32 bits is kept. -/
theorem Position.toNat_ofByte {file : String} {byte : Nat} (h : byte < UInt32.size) :
    (Position.ofByte file byte).offset.toNat = byte := by
  simp only [Position.ofByte, UInt32.toNat_ofNat']
  exact Nat.mod_eq_of_lt h

end Cpl
