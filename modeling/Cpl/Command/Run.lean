import Cpl.Command.Options
import Cpl.Compile
import Cpl.Diagnostic.Report

/-!
# The command

Reads the input file, compiles it and writes the listing. Faults of the arguments and of the program
are told on the error stream; a file that cannot be read or written only shows in the exit code. The
command works on any `Disk`, so that it can be run without touching real files.
-/

namespace Cpl

/-- The files that the command sees. -/
structure Disk (m : Type → Type) where
  /-- The text of a file, or `none` if there is no such text. -/
  read : String → m (Option String)
  /-- Replaces the text of a file, and tells whether that was possible. -/
  write : String → String → m Bool

/-- How the command ended. -/
structure Outcome where
  exitCode : UInt32
  /-- What it wrote to the error stream. -/
  errors : String
deriving DecidableEq, Repr

namespace Outcome

def success : Outcome := ⟨0, ""⟩

def failure (errors : String) : Outcome := ⟨1, errors⟩

end Outcome

/-- Runs the command with the given arguments. -/
def runCommand {m : Type → Type} [Monad m] (disk : Disk m) (arguments : List String) :
    m Outcome := do
  match Options.ofArguments arguments with
  | .error fault => return .failure (fault.message ++ "\n" ++ Options.usage ++ "\n")
  | .ok options =>
    match ← disk.read options.input with
    | none => return .failure ""
    | some source =>
      match compileSource source options.fileName with
      | .error error => return .failure (error.report options.fileName source)
      | .ok listing =>
        if ← disk.write options.output (listing.render options.numbered) then return .success
        else return .failure ""

end Cpl
