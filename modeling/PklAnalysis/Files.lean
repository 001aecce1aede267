import PklAnalysis.Path

/-!
# Files

The files that an analysis can read, as a value: texts by their names from the root on.  What a
file lies in is a directory, and so are the directories that are listed.  A path is followed name by
name, so `..` leaves only a directory that exists.
-/

namespace PklAnalysis

structure Files where
  /-- Directories that need not hold a file. -/
  directories : List (List String)
  entries : List (List String × String)
  deriving Inhabited

/-- Why nothing can be read at a path. -/
inductive ReadError where
  | missing
  | isDirectory
  /-- The path leads through a file. -/
  | notDirectory
  deriving DecidableEq, Repr

def ReadError.message : ReadError → String
  | .missing => "No such file or directory (os error 2)"
  | .isDirectory => "Is a directory (os error 21)"
  | .notDirectory => "Not a directory (os error 20)"

namespace Files

/-- No files at all. -/
def none : Files := ⟨[], []⟩

/-- The names of an absolute path; `..` leaves what stands before it. -/
def namesOf (p : Path) : List String := (Path.collapse [] p.components).getD []

def ofList (directories : List Path) (files : List (Path × String)) : Files :=
  ⟨directories.map namesOf, files.map fun (p, text) => (namesOf p, text)⟩

def textAt? (f : Files) (names : List String) : Option String := f.entries.lookup names

def isDirectoryAt (f : Files) (names : List String) : Bool :=
  names.isEmpty || f.directories.any (names.isPrefixOf ·)
    || f.entries.any fun e => names.isPrefixOf e.1 && names.length < e.1.length

/-- The names at which components end, after names given in reverse. -/
def walk (f : Files) : List String → List Path.Component → Except ReadError (List String)
  | above, [] => .ok above.reverse
  | above, c :: cs =>
    if f.isDirectoryAt above.reverse then
      match c with
      | .root | .here => walk f above cs
      | .up => walk f above.tail cs
      | .name n => walk f (n :: above) cs
    else if (f.textAt? above.reverse).isSome then .error .notDirectory
    else .error .missing

/-- Whether a path is written as that of a directory. -/
def namesDirectory (p : Path) : Bool :=
  match p.pieces.getLast? with
  | some piece => piece = "" || piece = "."
  | Option.none => false

/-- Where an absolute path leads, whether or not something is there. -/
def place (f : Files) (p : Path) : Except ReadError (List String) := do
  if !p.isAbsolute then throw .missing
  let names ← f.walk [] p.components
  if namesDirectory p && (f.textAt? names).isSome then throw .notDirectory
  return names

/-- The text of the file at a path. -/
def read (f : Files) (p : Path) : Except ReadError String := do
  let names ← f.place p
  match f.textAt? names with
  | some text => return text
  | Option.none => throw (if f.isDirectoryAt names then .isDirectory else .missing)

def isFile (f : Files) (p : Path) : Bool := (f.read p).toBool

/-- The absolute path, without dots, of what is at a path. -/
def canonical (f : Files) (p : Path) : Except ReadError Path := do
  let names ← f.place p
  if (f.textAt? names).isSome || f.isDirectoryAt names then return ⟨Path.ofNames names⟩
  throw .missing

/-- The files below a directory, ordered by their names. -/
def below (f : Files) (dir : Path) : List Path :=
  let paths := f.entries.map fun e => (⟨Path.ofNames e.1⟩ : Path)
  (paths.filter fun p => (dir.below? p).isSome).mergeSort fun p q => (p.compare q).isLE

end Files

end PklAnalysis
