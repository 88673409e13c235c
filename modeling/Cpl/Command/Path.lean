/-!
# File paths

Paths as the command line gets them: components divided by slashes. Empty components and single
dots at the end of a path say nothing about the file it names. A path names no file if nothing else
is left, or if it ends with a step up. `withExtension` takes the extension off a path before it sets
another.
-/

namespace Cpl.Path

/-- The components of a path, empty ones included. There is always one. -/
def components : List Char → List (List Char)
  | [] => [[]]
  | c :: cs =>
    if c = '/' then [] :: components cs
    else
      match components cs with
      | [] => [[c]]
      | first :: rest => (c :: first) :: rest

/-- The path of components. -/
def join (parts : List (List Char)) : List Char :=
  ['/'].intercalate parts

/-- Says nothing about the file. -/
def isIdle (part : List Char) : Bool :=
  part == [] || part == ['.']

/-- The components up to the file name, the file name first and the others before it backwards. -/
def trimmed (path : String) : List (List Char) :=
  (components path.toList).reverse.dropWhile isIdle

/-- The name of the file, and the components before it backwards. -/
def split? (path : String) : Option (List Char × List (List Char)) :=
  match trimmed path with
  | [] => none
  | name :: before => if name = ['.', '.'] then none else some (name, before)

/-- The name of the file that the path leads to. -/
def fileName? (path : String) : Option String :=
  (split? path).map fun (name, _) => String.ofList name

/-- A file name up to its last dot, or all of it if there is no dot but the one it starts with. -/
def stem (name : List Char) : List Char :=
  match name.reverse.dropWhile (· != '.') with
  | [] => name
  | [_] => name
  | _ :: before => before.reverse

/-- What follows the stem of a file name and its dot. -/
def extension (name : List Char) : List Char :=
  name.drop ((stem name).length + 1)

/-- The path less as many characters at its end as the extension of its file has. The extension
is gone, its dot is kept; slashes and dots after the file name count for the characters taken. -/
def shortened (path : String) : String :=
  match split? path with
  | none => path
  | some (name, _) =>
    String.ofList (path.toList.take (path.toList.length - (extension name).length))

/-- The path up to the stem of its file, with an extension behind it. A path that names no file
stays the same. -/
def extended (path : String) (ending : String) : String :=
  match split? path with
  | none => path
  | some (name, before) =>
    String.ofList (join ((stem name ++ '.' :: ending.toList) :: before).reverse)

/-- The path with another extension. The old one goes first: a name such as `..b` is a step up
without it, which names no file and gets no extension. -/
def withExtension (path : String) (ending : String) : String :=
  extended (shortened path) ending

end Cpl.Path
