import Cpl.Command.Path
import Cpl.Text.Quoted

/-!
# Command-line options

The command takes an input file, optionally an output file, and a flag that asks for line numbers.
Arguments are judged in order: an unknown flag is reported at once, a missing input or one argument
too many only when all have been seen.
-/

namespace Cpl

/-- What can be wrong with the arguments. -/
inductive OptionFault where
  | missingInput
  | unexpectedArgument (argument : String)
  | unknownFlag (argument : String)
deriving DecidableEq, Repr

def OptionFault.message : OptionFault → String
  | missingInput => "no input file given"
  | unexpectedArgument argument => "unexpected argument " ++ Text.quote argument
  | unknownFlag argument => "unknown flag " ++ Text.quote argument

structure Options where
  input : String
  output : String
  /-- Write each instruction with its line number. -/
  numbered : Bool
deriving DecidableEq, Repr

namespace Options

def usage : String :=
  "usage: cpq <file.ou> [outfile] [--numbered]"

/-- A dash and something after it. A dash alone is a file name. -/
def isFlag (argument : String) : Bool :=
  match argument.toList with
  | '-' :: _ :: _ => true
  | _ => false

/-- Parts the file names from the flags, and tells whether line numbers are asked for. -/
def sortOut : List String → Except OptionFault (List String × Bool)
  | [] => .ok ([], false)
  | argument :: rest =>
    if argument = "--numbered" ∨ argument = "-n" then do
      let (names, _) ← sortOut rest
      return (names, true)
    else if isFlag argument then .error (.unknownFlag argument)
    else do
      let (names, numbered) ← sortOut rest
      return (argument :: names, numbered)

/-- The options that the arguments ask for. Without a name for it, the output goes next to the
input, with the extension `qud`. -/
def ofArguments (arguments : List String) : Except OptionFault Options := do
  let (names, numbered) ← sortOut arguments
  match names with
  | [] => throw .missingInput
  | [input] => return ⟨input, Path.withExtension input "qud", numbered⟩
  | [input, output] => return ⟨input, output, numbered⟩
  | _ :: _ :: extra :: _ => throw (.unexpectedArgument extra)

/-- The name of the input in diagnostics. -/
def fileName (o : Options) : String :=
  (Path.fileName? o.input).getD o.input

end Options

end Cpl
