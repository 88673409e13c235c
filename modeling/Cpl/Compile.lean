import Cpl.Emit.Program
import Cpl.Grammar.Program
import Cpl.Token.Scan

/-!
# Compiling a source text

The way from a text to a listing: tokens, tree, code.
-/

namespace Cpl

/-- The program that a text spells. -/
def Program.ofSource (source : String) (file : String) : Except Diagnostic Program := do
  Program.ofTokens (← tokenize source file) file

/-- The finished program of a text. -/
def compileSource (source : String) (file : String) : Except Diagnostic Listing := do
  (← Program.ofSource source file).compile

end Cpl
