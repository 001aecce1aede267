import PklAnalysis.Modules.Projects
import PklAnalysis.Modules.Snapshot
import PklAnalysis.Modules.Uri
import PklAnalysis.Source.Outline

/-!
# The module store

A `Store` holds syntax trees under the identities of their modules.  `Store.locate` says where a
module may be found that a URI names in another module; `Store.resolve` takes the first of these
places that the store holds a tree for, and else the first from which the loader gets a
description, whose tree it keeps.
-/

namespace PklAnalysis

/-- Where modules are looked for. -/
structure GraphConfig where
  /-- Directories whose files are named by `modulepath:` URIs. -/
  sourceRoots : List Path
  /-- The directory of downloaded packages. -/
  packageCache : Option Path
  /-- The directories of the projects that are registered from the start. -/
  projects : List Path
  deriving Inhabited

/-- A source of descriptions outside the store. -/
structure Loader where
  /-- The description of what is at a path, if there is any. -/
  load : Path → Except ResolveError (Option Source.Module)
  /-- A number that the nodes of all modules that can be loaded do not exceed. -/
  capacity : Nat

/-- A place where a module may be. -/
structure Place where
  id : ModuleId
  path : Option Path
  deriving Inhabited

/-- Where a module may be, in the order in which it is looked for. -/
structure Target where
  places : List Place
  /-- The project for which a module of a package is looked for. -/
  origin : Option Path
  deriving Inhabited

/-- A target with one place. -/
def Target.single (id : ModuleId) (path : Option Path) : Target := ⟨[⟨id, path⟩], none⟩

structure Store where
  config : GraphConfig
  trees : Dict ModuleId Tree
  projects : ProjectIndex
  /-- The project for which a package was first looked for, by the base URI of the package. -/
  origins : Dict String Path
  files : Files
  loader : Option Loader

namespace Store

/-- A store without modules. -/
def new (config : GraphConfig) (files : Files) (loader : Option Loader) : Store :=
  ⟨config, Dict.empty, ProjectIndex.empty, Dict.empty, files, loader⟩

/-! ## Trees -/

/-- The tree of a module. -/
def tree? (s : Store) (id : ModuleId) : Option Tree := s.trees.get? id

def insert (s : Store) (t : Tree) : Store := { s with trees := s.trees.insert t.id t }

def remove (s : Store) (id : ModuleId) : Store := { s with trees := s.trees.erase id }

/-- The identities of the modules, sorted. -/
def ids (s : Store) : List ModuleId := s.trees.keys.mergeSort fun a b => a.text ≤ b.text

/-- The identity of a description: that of its URI, or the URI as it stands if it has none. -/
def idOf (uri : String) : ModuleId :=
  match ModuleUri.absolute? uri with
  | some u => u.id
  | none => ⟨uri⟩

/-- The version of the next tree of a module. -/
def nextVersion (s : Store) (id : ModuleId) : Nat :=
  match s.tree? id with
  | some t => t.version + 1
  | none => 1

/-- The tree of a description, as the next version of its module. -/
def treeOf (s : Store) (m : Source.Module) : Tree :=
  let id := idOf m.uri
  m.treeAs id (s.nextVersion id)

def insertSource (s : Store) (m : Source.Module) : Store := s.insert (s.treeOf m)

/-! ## Projects -/

/-- An action on the projects of a store. -/
def onProjects {α : Type} (act : ProjectIndex → α × ProjectIndex) : StateM Store α := fun s =>
  let (a, projects) := act s.projects
  (a, { s with projects })

def registerProject (s : Store) (p : Project) : Store :=
  { s with projects := s.projects.register p }

/-- The project of a module: that of the directory of its file, or the one for which its package
was looked for. -/
def projectOf (importer : ModuleId) : StateM Store (Option Project) := do
  let s ← get
  let dir? :=
    match ModuleUri.absolute? importer.text with
    | some (.file path) => path.parent?
    | some (.package p) => s.origins.get? p.baseUri
    | _ => none
  match dir? with
  | some dir => onProjects (·.nearest s.files dir)
  | none => return none

/-- The version to which the project of a directory resolves a package. -/
def declaredVersion (dir : Path) (package : String) : StateM Store (Option Version) := do
  let s ← get
  let project ← onProjects (·.nearest s.files dir)
  return project.bind (·.dependencyVersion? package)

/-! ## Places -/

/-- A text without slashes in front. -/
def relativeText (path : String) : String := ModuleUri.withoutSlashes path

/-- A package in the version that a project declares for it, with the directory of the project that
stands in for the package. -/
def pinned (project : Project) (p : PackageUri) : PackageUri × Option Path :=
  match project.dependency? p.canonicalName with
  | none => (p, none)
  | some (_, d) =>
    let version :=
      match d.package with
      | .ok declared => declared.version
      | .error _ => p.version
    ({ p with version }, project.localDir? d)

/-- The path of a module of a package in the directory of downloaded packages. -/
def cachePath (cache : Path) (p : PackageUri) : Path :=
  let packages := (cache.join "package-2").join p.authority
  (packages.join (relativeText p.path ++ "@" ++ p.version.text)).join (relativeText p.modulePath)

/-- Where the module of an absolute URI may be. -/
def placesOf (config : GraphConfig) (project : Option Project) : AbsoluteUri → Target
  | .file path => .single (AbsoluteUri.fileId path) (some path)
  | .modulePath path =>
    let below := config.sourceRoots.map fun root =>
      let file := root.join (relativeText path)
      (⟨AbsoluteUri.fileId file, some file⟩ : Place)
    ⟨below ++ [⟨(AbsoluteUri.modulePath path).id, none⟩], none⟩
  | .package p =>
    let (p, localDir) := ((project.map (pinned · p)).getD (p, none))
    let path :=
      match localDir with
      | some dir => some (dir.join (relativeText p.modulePath))
      | none => config.packageCache.map (cachePath · p)
    ⟨[⟨(AbsoluteUri.package p).id, path⟩], project.map (·.dir)⟩
  | .stdlib name => .single (AbsoluteUri.stdlib name).id none
  | .network url => .single (AbsoluteUri.network url).id none

/-- Where a module of a dependency of a project may be. -/
def dependencyPlaces (config : GraphConfig) (project : Option Project) (uri name path : String)
    (importer : ModuleId) : Except ResolveError Target := do
  let some p := project | throw (.notFound uri importer)
  let some (_, d) := p.dependency? name | throw (.notFound uri importer)
  match p.localDir? d with
  | some dir =>
    match Path.joinNormalized? dir.text (relativeText path) with
    | some file => return .single (AbsoluteUri.fileId ⟨file⟩) (some ⟨file⟩)
    | none => throw (.invalidUri uri .leavesDependency)
  | none =>
    match d.package with
    | .ok package =>
      return placesOf config project (.package { package with fragment := some path })
    | .error why => throw (.invalidUri uri (.package why))

/-- Where the module may be that a URI names in a module of a project. -/
def locateIn (config : GraphConfig) (project : Option Project) (uri : String)
    (importer : ModuleId) : Except ResolveError Target := do
  match ← ModuleUri.classify uri with
  | .absolute u => return placesOf config project u
  | .relative path =>
    return placesOf config project (← ModuleUri.resolveRelative path importer config.sourceRoots)
  | .dependency name path => dependencyPlaces config project uri name path importer

/-- Whether a project has a say in where the module may be that a URI names in another module: if it
is a module of a dependency or of a package. -/
def needsProject (config : GraphConfig) (uri : String) (importer : ModuleId) : Bool :=
  match ModuleUri.classify uri with
  | .error _ => false
  | .ok (.dependency ..) => true
  | .ok (.absolute u) => u.isPackage
  | .ok (.relative path) =>
    match ModuleUri.resolveRelative path importer config.sourceRoots with
    | .ok u => u.isPackage
    | .error _ => false

/-- Where the module may be that a URI names in another module. -/
def locate (uri : String) (importer : ModuleId) : StateM Store (Except ResolveError Target) := do
  let config := (← get).config
  let project ← if needsProject config uri importer then projectOf importer else pure none
  return locateIn config project uri importer

/-! ## Resolution -/

/-- The packages of a target are taken to belong to the target's project, unless they belong to
one already. -/
def recordOrigin (t : Target) (s : Store) : Store :=
  match t.origin with
  | none => s
  | some origin =>
    t.places.foldl (fun s place =>
      match ModuleUri.absolute? place.id.text with
      | some (.package p) => { s with origins := s.origins.insertNew p.baseUri origin }
      | _ => s) s

/-- The first tree that the store holds for one of the places. -/
def stored? (s : Store) (places : List Place) : Option Tree :=
  places.findSome? fun place => s.tree? place.id

/-- The first description that a loader finds at one of the places, as a tree. -/
def loadFirst (loader : Loader) : List Place → Except ResolveError (Option Tree)
  | [] => .ok none
  | place :: places =>
    match place.path with
    | none => loadFirst loader places
    | some path =>
      match loader.load path with
      | .error e => .error e
      | .ok (some m) => .ok (some (m.treeAs place.id 1))
      | .ok none => loadFirst loader places

/-- The tree of the module that a URI names in another module. -/
def resolve (uri : String) (importer : ModuleId) : StateM Store (Except ResolveError Tree) := do
  match ← locate uri importer with
  | .error e => return .error e
  | .ok target =>
    modify (recordOrigin target)
    let s ← get
    match s.stored? target.places with
    | some t => return .ok t
    | none =>
      match (s.loader.map (loadFirst · target.places)).getD (.ok none) with
      | .error e => return .error e
      | .ok none => return .error (.notFound uri importer)
      | .ok (some t) =>
        modify (·.insert t)
        return .ok t

/-! ## Filling a store from files -/

/-- Registers the projects of the configuration. -/
def loadProjects (s : Store) : Except ManifestError Store :=
  s.config.projects.foldlM (fun s dir => do
    let (result, projects) := s.projects.load s.files dir
    let _ ← result
    return { s with projects }) s

/-- A description under the identity of the file that it describes, unless its own URI is
absolute. -/
def sourceFor (target : Path) (m : Source.Module) : Source.Module :=
  match ModuleUri.absolute? m.uri with
  | some _ => m
  | none => { m with uri := (AbsoluteUri.fileId target).text }

/-- Stores the modules of all snapshots below a directory; what cannot be read is left out. -/
def loadDirectory (s : Store) (dir : Path) : Store :=
  (s.files.below dir).foldl (fun s path =>
    match Snapshot.target? path with
    | none => s
    | some target =>
      match Snapshot.read s.files path with
      | .ok m => s.insertSource (sourceFor target m)
      | .error _ => s) s

/-- The loader of the snapshots among files. -/
def snapshotLoader (files : Files) : Loader where
  load := Snapshot.load files
  capacity := files.entries.foldl (fun n e => n + e.2.length) 0

end Store

end PklAnalysis
