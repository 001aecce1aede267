import PklAnalysis.Config
import PklAnalysis.Resolution.Session

/-!
# Workspaces

A `Workspace` is a directory of snapshots that has been opened: the modules below it are stored,
the projects of its configuration registered, and a session answers questions about them.
-/

namespace PklAnalysis

structure Workspace where
  root : Path
  config : Config
  session : Session

/-- Why a workspace cannot be opened. -/
inductive OpenError where
  | unresolvable (root : Path) (why : ReadError)
  | project (why : ManifestError)

def OpenError.message : OpenError → String
  | .unresolvable root why => "Failed to resolve " ++ root.text ++ ": " ++ why.message
  | .project why => why.message

namespace Workspace

/-- Opens a directory. -/
def openAt (files : Files) (root : Path) (config : Config) : Except OpenError Workspace := do
  let root ← (files.canonical root).mapError (.unresolvable root)
  let empty := Store.new (config.graphConfig root) files (some (Store.snapshotLoader files))
  let store ← empty.loadProjects.mapError .project
  return ⟨root, config, Session.new (store.loadDirectory root)⟩

/-- The snapshot that is read for a path. -/
def snapshotOf (path : Path) : Path :=
  if (Snapshot.target? path).isSome then path else ⟨path.text ++ ".json"⟩

/-- The module at a path, given as its file or its snapshot.  It is read and stored if the store
does not have it. -/
def moduleAt (root : Path) (text : String) : Query (Except ResolveError Tree) := do
  let path := root.join text
  let id := AbsoluteUri.fileId ((Snapshot.target? path).getD path)
  let s ← get
  match s.store.tree? id with
  | some t => return .ok t
  | none =>
    match Snapshot.read s.store.files (snapshotOf path) with
    | .error e => return .error e
    | .ok m =>
      let t := s.store.treeOf { m with uri := id.text }
      set { s with store := s.store.insert t }
      return .ok t

/-- All stored modules, ordered by identity. -/
def modules (s : Session) : List Tree := s.store.ids.filterMap s.store.tree?

end Workspace

end PklAnalysis
