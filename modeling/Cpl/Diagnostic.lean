import Cpl.Position
import Cpl.Text.Quoted

/-!
# Diagnostics

What can be wrong with a program is a `Problem`; a `Diagnostic` is a problem at a position. The
wording of all messages is here: the kind text (`Problem.text`), the name that heads a report
(`Problem.name`), the advice that follows it (`Problem.tip?`) and the one-line message
(`Diagnostic.message`).
-/

namespace Cpl

/-- What is wrong, wherever it is. -/
inductive Problem where
  /-- No token starts with this character. -/
  | unrecognisedToken (token : String)
  | unexpectedToken (token : String)
  /-- A token that does not fit, with what was expected instead. -/
  | misfitToken (token : String) (message : String)
  /-- A case label that is no integer. -/
  | labelNotInteger (token : String)
  | invalidCast (cast : String)
  | alreadyDeclared (var : String)
  | unknownVariable (var : String)
  | assignFloatToInt (var : String)
  | breakOutsideOfLoop
  | unknownOperation (operator : String)
  /-- A jump target, given by its text, where a value is needed. -/
  | targetAsValue (target : String)
  | jumpBeforeFirstLine (line : Nat) (offset : Nat)
deriving DecidableEq, Repr

namespace Problem

/-- The name under which a report announces the problem. -/
def name : Problem → String
  | unrecognisedToken _ => "UnrecognisedToken"
  | unexpectedToken _ => "UnexpectedToken"
  | misfitToken _ _ => "UnexpectedTokenDetailed"
  | labelNotInteger _ => "NumberParseError"
  | invalidCast _ => "InvalidCast"
  | alreadyDeclared _ => "VariableAlreadyDeclared"
  | unknownVariable _ => "UnknownVariable"
  | assignFloatToInt _ => "AssignFloatToInt"
  | breakOutsideOfLoop => "BreakOutsideOfLoop"
  | unknownOperation _ => "UnknownOperation"
  | targetAsValue _ => "JumpTargetAsValue"
  | jumpBeforeFirstLine _ _ => "JumpBeforeFirstLine"

/-- The problem in one line, with the texts it cites in quotes. -/
def text : Problem → String
  | unrecognisedToken token => "unrecognised token: " ++ Text.quote token
  | unexpectedToken token => "unexpected token: " ++ Text.quote token
  | misfitToken token message =>
    "unexpected token (" ++ Text.quote message ++ "): " ++ Text.quote token
  | labelNotInteger token => "error parsing number: " ++ Text.quote token
  | invalidCast cast => "invalid cast " ++ Text.quote cast
  | alreadyDeclared var => "variable " ++ Text.quote var ++ " already declared"
  | unknownVariable var => "undefined variable " ++ Text.quote var
  | assignFloatToInt var =>
    "trying to assign a float value to the integer variable " ++ Text.quote var
  | breakOutsideOfLoop => "break used outside of loop or switch"
  | unknownOperation operator => "no such operation " ++ Text.quote operator
  | targetAsValue target => "jump target " ++ target ++ " used as a value"
  | jumpBeforeFirstLine line offset =>
    "jump back by " ++ toString offset ++ " from line " ++ toString line ++
      " lands before the first line"

/-- Advice to the author of the program, for the problems an author can mend. -/
def tip? : Problem → Option String
  | unrecognisedToken _ => none
  | unexpectedToken token =>
    some ("Unexpected token: `" ++ token ++ "`, did you miss a semicolon?")
  | misfitToken token message => some ("Unexpected token: `" ++ token ++ "`, " ++ message)
  | labelNotInteger token =>
    some ("Invalid number: `" ++ token ++ "`, case labels must be integers")
  | invalidCast cast =>
    some ("Unknown cast `" ++ cast ++
      "`, expected `static_cast<int>` or `static_cast<float>`")
  | alreadyDeclared var => some ("Variable `" ++ var ++ "` already declared")
  | unknownVariable var => some ("Variable `" ++ var ++ "` is not declared")
  | assignFloatToInt var =>
    some ("Cannot assign a float value to the int variable `" ++ var ++
      "`, use static_cast<int>")
  | breakOutsideOfLoop => some "`break` may only appear inside a while loop or a switch"
  | unknownOperation operator =>
    some ("No instruction exists for operator `" ++ operator ++ "`")
  | targetAsValue _ => none
  | jumpBeforeFirstLine _ _ => none

end Problem

/-- A problem at the place that causes it. -/
structure Diagnostic where
  problem : Problem
  position : Position
deriving DecidableEq, Repr

/-- The problem and where it is, in one line. -/
def Diagnostic.message (d : Diagnostic) : String :=
  d.problem.text ++ " at " ++ d.position.text

end Cpl
