import Cpl.Emit.Statement
import Cpl.Quad.Listing
import Cpl.Quad.Resolve

/-!
# Code of programs

The code of a program is the code of its block and a halt, in which no break may be left open.
`Program.emit` gives it with relative jumps, `Program.compile` with line numbers.
-/

namespace Cpl

namespace Emit

/-- Declares names of one type, in order. -/
def declareNames (type : NumType) : List Ident → Emit Unit
  | [] => return ()
  | first :: rest => do
    declare first.name type first.span.start
    declareNames type rest

/-- Declares all names, in order. -/
def declareAll : List Declaration → Emit Unit
  | [] => return ()
  | first :: rest => do
    declareNames first.type first.names
    declareAll rest

end Emit

namespace Program

/-- The whole code, with jumps still relative. -/
def emit (p : Program) : Emit (List Instruction) := do
  Emit.declareAll p.declarations
  let code ← p.body.emit
  match code.findSome? Instruction.openBreak? with
  | some position => throw ⟨.breakOutsideOfLoop, position⟩
  | none => return code ++ [.halt]

/-- The finished program, from no symbols and warnings. -/
def compile (p : Program) : Except Diagnostic Listing :=
  match p.emit.on .start with
  | (.error error, _) => .error error
  | (.ok code, gathered) =>
    match Instruction.resolveAll code with
    | .error problem => .error ⟨problem, p.body.span.start⟩
    | .ok code => .ok ⟨code, gathered.warnings⟩

end Program

end Cpl
