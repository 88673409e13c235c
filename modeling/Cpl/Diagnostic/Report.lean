import Cpl.Diagnostic
import Cpl.Text.Blank
import Cpl.Text.Line

/-!
# Reports

A report shows a diagnostic to the author of a program: its name and tip, the file, and the source
line with a caret under the place.

```text
Error: UnknownVariable (Variable `x` is not declared)
-> prog.ou
   |
20 | x = 4;
   | ^
```

The line is shown without the spaces and tabs it starts with and the blanks it ends with; the
caret stands as many columns to the right as there are bytes before the place on what is left.
-/

namespace Cpl

/-- The characters at the start of a line that a report leaves out. -/
def Text.isIndent (c : Char) : Bool :=
  c == ' ' || c == '\t'

namespace Diagnostic

/-- `Error: name (tip)`. -/
def headline (d : Diagnostic) : String :=
  match d.problem.tip? with
  | none => "Error: " ++ d.problem.name ++ "\n"
  | some tip => "Error: " ++ d.problem.name ++ " (" ++ tip ++ ")\n"

/-- The bar that continues the margin of a line with the given number. -/
def margin (number : String) : List Char :=
  List.replicate (number.length + 1) ' ' ++ ['|']

/-- The source line under its margin, and the caret below the column. -/
def excerpt (place : Text.Place) : String :=
  let number := toString place.number
  let indent := place.line.takeWhile Text.isIndent
  let shown := Text.trimRight (place.line.dropWhile Text.isIndent)
  let dashes := List.replicate (place.column - indent.length) '-'
  String.ofList
    (margin number ++ ['\n'] ++
      number.toList ++ [' ', '|', ' '] ++ shown ++ ['\n'] ++
      margin number ++ [' '] ++ dashes ++ ['^', '\n'])

/-- The full report, with the line of `source` that holds the position if there is one. -/
def report (d : Diagnostic) (file : String) (source : String) : String :=
  d.headline ++ "-> " ++ file ++ "\n" ++
    match Text.lineAt? source d.position.offset.toNat with
    | none => ""
    | some place => excerpt place

end Diagnostic

end Cpl
