import Cpl.Diagnostic
import Cpl.Text.Line
import Cpl.Token.Lexeme

/-!
# Scanning

Scanning cuts a program text into lexemes, from left to right, and keeps the tokens with their
spans. It stops at the end of the text or at the first character that starts no lexeme.

* `Scan.ofChars` scans characters that start at a given byte offset;
* `Reader` is a place in a named text, moved by bytes;
* `tokenize` gives the tokens of a whole text, closed by an end token.
-/

namespace Cpl

/-- How far a scan got. -/
structure Scan where
  /-- The tokens read, in order. -/
  tokens : List Token
  /-- The byte offset where the scan stopped. -/
  stop : Nat
  /-- The character that starts no lexeme, or `none` if the text was read to its end. -/
  obstacle : Option Char
deriving DecidableEq, Repr

namespace Scan

/-- The scan with a token read before it. -/
def cons (t : Token) (s : Scan) : Scan :=
  { s with tokens := t :: s.tokens }

/-- The token of a lexeme that starts at the given byte offset. -/
def token (file : String) (offset : Nat) (kind : Kind) (text : List Char) : Token where
  kind := kind
  value := String.ofList text
  span := ⟨.ofByte file offset, .ofByte file (offset + Text.byteSize text)⟩

/-- Scans characters of which the first is at the given byte offset. -/
def ofChars (file : String) (offset : Nat) (cs : List Char) : Scan :=
  match h : Lexeme.next? cs with
  | none => ⟨[], offset, cs.head?⟩
  | some l =>
    have := Lexeme.length_rest_lt h
    let rest := ofChars file (offset + Text.byteSize l.text) l.rest
    match l.kind with
    | none => rest
    | some kind => rest.cons (token file offset kind l.text)
termination_by cs.length

/-- The tokens closed by an end token, or a diagnostic of the obstacle. -/
def result (s : Scan) (file : String) : Except Diagnostic (List Token) :=
  match s.obstacle with
  | none => .ok (s.tokens ++ [.endAt (.ofByte file s.stop)])
  | some c => .error ⟨.unrecognisedToken c.toString, .ofByte file s.stop⟩

end Scan

/-- A place in a named text. -/
structure Reader where
  source : String
  file : String
  /-- Bytes passed, which may be more than the text has. -/
  offset : Nat
deriving DecidableEq, Repr

namespace Reader

def start (source : String) (file : String) : Reader :=
  ⟨source, file, 0⟩

/-- Moves on by a number of bytes. -/
def advance (r : Reader) (bytes : Nat) : Reader :=
  { r with offset := r.offset + bytes }

def atEnd (r : Reader) : Bool :=
  Text.byteSize r.source.toList ≤ r.offset

/-- The characters not yet passed. -/
def ahead (r : Reader) : List Char :=
  Text.dropBytes r.offset r.source.toList

/-- The next character. -/
def current? (r : Reader) : Option Char :=
  r.ahead.head?

def remainder (r : Reader) : String :=
  String.ofList r.ahead

def position (r : Reader) : Position :=
  .ofByte r.file r.offset

/-- The next so many bytes. -/
def span (r : Reader) (bytes : Nat) : Span :=
  ⟨r.position, (r.advance bytes).position⟩

/-- Scans from the place to the end of the text. -/
def scan (r : Reader) : Scan :=
  .ofChars r.file r.offset r.ahead

end Reader

/-- The tokens of a text, closed by an end token. -/
def tokenize (source : String) (file : String) : Except Diagnostic (List Token) :=
  (Reader.start source file).scan.result file

end Cpl
