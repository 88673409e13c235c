import Cpl.Position

/-!
# Tokens

The words of the language. A token has a kind, the text it was read from and the span it covers.
Kinds with a fixed spelling are found from it by `Kind.ofReserved?` and `Kind.spellings`.
-/

namespace Cpl

/-- What a token is. -/
inductive Kind where
  /-- The end of the program. -/
  | eof
  | number
  | identifier
  /-- `static_cast<int>` or `static_cast<float>`. -/
  | cast
  | openCurly
  | closeCurly
  | openParen
  | closeParen
  | assignment
  | equals
  | not
  | notEquals
  | less
  | lessEquals
  | greater
  | greaterEquals
  | or
  | and
  | semicolon
  | colon
  | comma
  | plus
  | dash
  | slash
  | star
  | kwBreak
  | kwCase
  | kwDefault
  | kwElse
  | kwFloat
  | kwIf
  | kwInput
  | kwInt
  | kwOutput
  | kwSwitch
  | kwWhile
deriving DecidableEq, Repr

namespace Kind

/-- Every kind. -/
def all : List Kind :=
  [eof, number, identifier, cast, openCurly, closeCurly, openParen, closeParen, assignment, equals,
    not, notEquals, less, lessEquals, greater, greaterEquals, or, and, semicolon, colon, comma,
    plus, dash, slash, star, kwBreak, kwCase, kwDefault, kwElse, kwFloat, kwIf, kwInput, kwInt,
    kwOutput, kwSwitch, kwWhile]

/-- Any kind but that of the end. -/
def IsWritten : Kind → Prop
  | eof => False
  | _ => True

theorem IsWritten.ne_eof {k : Kind} (h : k.IsWritten) : k ≠ eof := by
  rintro rfl
  exact h

def name : Kind → String
  | eof => "EOF"
  | number => "Number"
  | identifier => "Identifier"
  | cast => "Cast"
  | openCurly => "OpenCurly"
  | closeCurly => "CloseCurly"
  | openParen => "OpenParen"
  | closeParen => "CloseParen"
  | assignment => "Assignment"
  | equals => "Equals"
  | not => "Not"
  | notEquals => "NotEquals"
  | less => "Less"
  | lessEquals => "LessEquals"
  | greater => "Greater"
  | greaterEquals => "GreaterEquals"
  | or => "Or"
  | and => "And"
  | semicolon => "Semicolon"
  | colon => "Colon"
  | comma => "Comma"
  | plus => "Plus"
  | dash => "Dash"
  | slash => "Slash"
  | star => "Star"
  | kwBreak => "Break"
  | kwCase => "Case"
  | kwDefault => "Default"
  | kwElse => "Else"
  | kwFloat => "Float"
  | kwIf => "If"
  | kwInput => "Input"
  | kwInt => "Int"
  | kwOutput => "Output"
  | kwSwitch => "Switch"
  | kwWhile => "While"

/-- The kind with the given name. -/
def ofName? (s : String) : Option Kind :=
  all.find? fun k => k.name == s

/-- The kind of a reserved word. -/
def ofReserved? : String → Option Kind
  | "break" => some kwBreak
  | "case" => some kwCase
  | "default" => some kwDefault
  | "else" => some kwElse
  | "float" => some kwFloat
  | "if" => some kwIf
  | "input" => some kwInput
  | "int" => some kwInt
  | "output" => some kwOutput
  | "switch" => some kwSwitch
  | "while" => some kwWhile
  | _ => none

/-- The operators and punctuation, each before those that it starts with. -/
def spellings : List (List Char × Kind) :=
  [(['\x7b'], openCurly), (['\x7d'], closeCurly), (['('], openParen), ([')'], closeParen),
    (['=', '='], equals), (['!', '='], notEquals), (['!'], not), (['='], assignment),
    (['<', '='], lessEquals), (['<'], less), (['>', '='], greaterEquals), (['>'], greater),
    (['|', '|'], or), (['&', '&'], and), ([';'], semicolon), ([':'], colon), ([','], comma),
    (['+'], plus), (['-'], dash), (['/'], slash), (['*'], star)]

def isRelational : Kind → Bool
  | equals | notEquals | less | lessEquals | greater | greaterEquals => true
  | _ => false

def isAdditive : Kind → Bool
  | plus | dash => true
  | _ => false

def isMultiplicative : Kind → Bool
  | star | slash => true
  | _ => false

theorem mem_all (k : Kind) : k ∈ all := by cases k <;> decide

end Kind

/-- A word of a program. -/
structure Token where
  kind : Kind
  /-- The text it was read from; `EOF` at the end of the program. -/
  value : String
  span : Span
deriving DecidableEq, Repr

namespace Token

/-- The token that marks the end of a program at a position. -/
def endAt (p : Position) : Token :=
  ⟨.eof, "EOF", ⟨p, p⟩⟩

/-- The name of the kind, with the text where the kind leaves it open. -/
def label (t : Token) : String :=
  match t.kind with
  | .identifier | .number | .cast => t.kind.name ++ " (" ++ t.value ++ ")"
  | _ => t.kind.name

end Token

end Cpl
