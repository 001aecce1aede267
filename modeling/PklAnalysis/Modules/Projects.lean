import PklAnalysis.Modules.Manifest

/-!
# The project of a directory

A `ProjectIndex` holds the registered projects and finds the one that encloses a directory most
closely: registered at that directory or described by a manifest there.  Answers are remembered per
directory, negative ones too, and forgotten whenever a project is registered.
-/

namespace PklAnalysis

structure ProjectIndex where
  /-- The registered projects by directory. -/
  registered : Dict Path Project
  /-- The answers given so far. -/
  answers : Dict Path (Option Project)
  deriving Inhabited

namespace ProjectIndex

def empty : ProjectIndex := ⟨Dict.empty, Dict.empty⟩

def register (index : ProjectIndex) (p : Project) : ProjectIndex :=
  ⟨index.registered.insert p.dir p, Dict.empty⟩

/-- The manifest in a directory, if there is one that can be used. -/
def manifestIn? (files : Files) (dir : Path) : Option Manifest := do
  let path := dir.join Manifest.fileName
  let text ← (files.read path).toOption
  (Manifest.parse text path).toOption

/-- The project whose manifest lies in a directory, registered. -/
def load (index : ProjectIndex) (files : Files) (dir : Path) :
    Except ManifestError Project × ProjectIndex :=
  let path := dir.join Manifest.fileName
  match files.read path with
  | .error why => (.error (.unreadable path why), index)
  | .ok text =>
    match Manifest.parse text path with
    | .error e => (.error e, index)
    | .ok m => (.ok ⟨dir, m⟩, index.register ⟨dir, m⟩)

/-- The project of a directory itself. -/
def projectAt? (index : ProjectIndex) (files : Files) (dir : Path) : Option Project :=
  (index.registered.get? dir).or ((manifestIn? files dir).map fun m => ⟨dir, m⟩)

/-- The project that encloses a directory most closely, without looking at the answers given
before. -/
def search (index : ProjectIndex) (files : Files) (dir : Path) : Option Project :=
  dir.ancestors.findSome? (index.projectAt? files)

/-- The project that encloses a directory most closely. -/
def nearest (index : ProjectIndex) (files : Files) (dir : Path) :
    Option Project × ProjectIndex :=
  match index.answers.get? dir with
  | some answer => (answer, index)
  | none =>
    let found := index.search files dir
    (found, { index with answers := index.answers.insert dir found })

/-- The directories of the registered projects, sorted. -/
def directories (index : ProjectIndex) : List Path :=
  index.registered.keys.mergeSort fun p q => (p.compare q).isLE

/-- Forgets the answers given so far. -/
def invalidate (index : ProjectIndex) : ProjectIndex := { index with answers := Dict.empty }

end ProjectIndex

end PklAnalysis
