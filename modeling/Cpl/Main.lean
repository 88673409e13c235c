import Cpl.Command.Run

/-!
# The program

The command on real files.
-/

namespace Cpl

/-- The files of the machine. -/
def realDisk : Disk IO where
  read path := try return some (← IO.FS.readFile path) catch _ => return none
  write path text :=
    try
      IO.FS.writeFile path text
      return true
    catch _ => return false

end Cpl

def main (arguments : List String) : IO UInt32 := do
  let outcome ← Cpl.runCommand Cpl.realDisk arguments
  IO.eprint outcome.errors
  return outcome.exitCode
