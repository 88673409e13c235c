import Cpl.Command.Run

/-!
# Folders in memory

A tree of files, seen from the folder at its top, on which the command can be run. Paths are walked
step by step: a dot stays, two dots go up, and a name has to be that of a folder, except for the last
one, which names the file.
-/

namespace Cpl

/-- Files and folders by their way down from the top. -/
structure Folder where
  files : List (List String × ByteArray)
  folders : List (List String)

namespace Folder

def empty : Folder :=
  ⟨[], []⟩

/-- One step of a walk through folders. -/
def step? (f : Folder) (way : List String) (part : String) : Option (List String) :=
  if part = "" ∨ part = "." then some way
  else if part = ".." then some way.dropLast
  else
    let down := way ++ [part]
    if f.folders.contains down then some down else none

def parts (path : String) : List String :=
  (Path.components path.toList).map String.ofList

/-- The way to the file that a path names, which need not exist. -/
def locate? (f : Folder) (path : String) : Option (List String) := do
  let steps := parts path
  let name ← steps.getLast?
  if name = "" ∨ name = "." ∨ name = ".." then none
  else
    let way ← steps.dropLast.foldlM f.step? []
    return way ++ [name]

/-- The bytes of a file. -/
def bytes? (f : Folder) (way : List String) : Option ByteArray :=
  (f.files.find? fun (w, _) => w == way).map Prod.snd

/-- Sets the bytes of a file. -/
def put (f : Folder) (way : List String) (bytes : ByteArray) : Folder :=
  { f with files := f.files.filter (fun (w, _) => w != way) ++ [(way, bytes)] }

/-- Adds a folder and the folders above it. -/
def addFolder (f : Folder) (way : List String) : Folder :=
  { f with folders := f.folders ++ (List.range way.length).map fun n => way.take (n + 1) }

/-- Adds a file, or a folder if the path ends with a slash, and the folders above it. -/
def add (f : Folder) (path : String) (bytes : ByteArray) : Folder :=
  let named := (parts path).filter fun part => part != "" && part != "."
  if path.toList.getLast? = some '/' then f.addFolder named
  else (f.addFolder named.dropLast).put named bytes

/-- The text of a file, which has to be valid UTF-8. -/
def read (f : Folder) (path : String) : Option String := do
  let way ← f.locate? path
  String.fromUTF8? (← f.bytes? way)

/-- Replaces a file or makes a new one, in a folder that exists. -/
def write? (f : Folder) (path : String) (text : String) : Option Folder := do
  let way ← f.locate? path
  if f.folders.contains way then none else return f.put way text.toUTF8

/-- The folder as a disk. -/
def disk : Disk (StateM Folder) where
  read path := return (← get).read path
  write path text := do
    match (← get).write? path text with
    | some f =>
      set f
      return true
    | none => return false

/-- Runs the command in a folder. -/
def runCommand (f : Folder) (arguments : List String) : Outcome × Folder :=
  (Cpl.runCommand disk arguments).run f

end Folder

end Cpl
