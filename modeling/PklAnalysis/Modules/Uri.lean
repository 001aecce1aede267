import PklAnalysis.Declaration
import PklAnalysis.Modules.Package
import PklAnalysis.Path

/-!
# Module URIs

`ModuleUri.classify` tells the schemes of module URIs apart.  An absolute URI has an identity of its
own, `AbsoluteUri.id`; a relative reference is resolved against the module in which it is written by
`ModuleUri.resolveRelative`, and a dependency reference needs the project of that module.
-/

namespace PklAnalysis

inductive AbsoluteUri where
  /-- `pkl:json` -/
  | stdlib (name : String)
  /-- `file:///dir/mod.pkl` -/
  | file (path : Path)
  /-- `modulepath:/dir/mod.pkl`, looked for in all source roots. -/
  | modulePath (path : String)
  /-- `package://host/path@1.0.0#/mod.pkl` -/
  | package (uri : PackageUri)
  /-- `https://host/mod.pkl` -/
  | network (url : String)
  deriving Inhabited

inductive ModuleUri where
  | absolute (uri : AbsoluteUri)
  /-- `@birds/Bird.pkl`, a module of a dependency of the project. -/
  | dependency (name : String) (path : String)
  /-- `../lib/util.pkl` -/
  | relative (path : String)
  deriving Inhabited

/-- Why a URI cannot be used. -/
inductive UriReason where
  | empty
  | noDependencyName
  | relativeFile
  | package (why : PackageUri.Malformed)
  | unsupportedScheme (scheme : String)
  | leavesSourceRoot
  | leavesModulePath
  | leavesPackage
  | leavesHost
  | leavesDependency
  /-- Nothing can be relative to the module. -/
  | noBase (module : ModuleId)
  deriving DecidableEq, Repr

def UriReason.message : UriReason → String
  | .empty => "empty module URI"
  | .noDependencyName => "missing dependency name"
  | .relativeFile => "file URIs must be absolute"
  | .package why => why.message
  | .unsupportedScheme scheme => "unsupported scheme '" ++ scheme ++ "'"
  | .leavesSourceRoot => "escapes the source root"
  | .leavesModulePath => "escapes the module path"
  | .leavesPackage => "escapes the package"
  | .leavesHost => "escapes the host"
  | .leavesDependency => "escapes the dependency"
  | .noBase module => "cannot resolve relative to " ++ module.text

/-- Why a module cannot be had. -/
inductive ResolveError where
  | notFound (uri : String) (importer : ModuleId)
  | invalidUri (uri : String) (reason : UriReason)
  | load (uri : String) (message : String)
  deriving DecidableEq, Repr

namespace ResolveError

def message : ResolveError → String
  | .notFound uri importer =>
    "Module not found: '" ++ uri ++ "' (from " ++ importer.text ++ ")"
  | .invalidUri uri reason => "Invalid module URI '" ++ uri ++ "': " ++ reason.message
  | .load uri message => "Failed to load module '" ++ uri ++ "': " ++ message

def isNotFound : ResolveError → Bool
  | .notFound .. => true
  | _ => false

end ResolveError

namespace AbsoluteUri

/-- The identity of the file at a path. -/
def fileId (p : Path) : ModuleId := ⟨"file://" ++ p.text⟩

/-- The identity of a module. -/
def id : AbsoluteUri → ModuleId
  | .stdlib name => ⟨"pkl:" ++ name⟩
  | .file path => fileId path
  | .modulePath path => ⟨"modulepath:" ++ path⟩
  | .package p => ⟨p.text⟩
  | .network url => ⟨url⟩

def isPackage : AbsoluteUri → Bool
  | .package _ => true
  | _ => false

end AbsoluteUri

namespace ModuleUri

/-- Whether the text of a URI has a scheme in front. -/
def hasScheme (uri : String) : Bool := uri.toList.contains ':'

/-- A text without slashes in front. -/
def withoutSlashes (s : String) : String := String.ofList (s.toList.dropWhile (· = '/'))

/-- A dependency reference, after its sign. -/
def dependencyOf (rest : String) : Option ModuleUri :=
  let (name, path) := (Text.cut? '/' rest).getD (rest, "")
  if name = "" then none else some (.dependency name ("/" ++ path))

/-- A URI with a scheme. -/
def schemeOf (uri scheme rest : String) : Except UriReason AbsoluteUri :=
  match scheme with
  | "pkl" => .ok (.stdlib rest)
  | "file" =>
    let path := (Text.after? "//" rest).getD rest
    if Text.startsWith "/" path then .ok (.file ⟨path⟩) else .error .relativeFile
  | "modulepath" => .ok (.modulePath ("/" ++ withoutSlashes rest))
  | "package" | "projectpackage" =>
    match PackageUri.parse uri with
    | .ok p => .ok (.package p)
    | .error e => .error (.package e)
  | "http" | "https" => .ok (.network uri)
  | other => .error (.unsupportedScheme other)

/-- The URI without the blanks around it, told apart by its scheme. -/
def classify (uri : String) : Except ResolveError ModuleUri :=
  let uri := Text.trim uri
  let fail (r : UriReason) : ResolveError := .invalidUri uri r
  if uri = "" then .error (fail .empty)
  else
    match Text.after? "@" uri with
    | some rest =>
      match dependencyOf rest with
      | some u => .ok u
      | none => .error (fail .noDependencyName)
    | none =>
      match Text.cut? ':' uri with
      | none => .ok (.relative uri)
      | some (scheme, rest) => ((schemeOf uri scheme rest).map .absolute).mapError fail

/-- The absolute URI that a text is, if it is one. -/
def absolute? (uri : String) : Option AbsoluteUri :=
  match classify uri with
  | .ok (.absolute u) => some u
  | _ => none

/-- The identity of an absolute URI. -/
def id? : ModuleUri → Option ModuleId
  | .absolute u => some u.id
  | .dependency .. | .relative _ => none

def isAbsolute : ModuleUri → Bool
  | .absolute _ => true
  | .dependency .. | .relative _ => false

/-- The part of a path before its last slash; the root if there is nothing before it. -/
def directoryOf (path : String) : String :=
  match Text.cutLast? '/' path with
  | some (dir, _) => if dir = "" then "/" else dir
  | none => "/"

/-- The text up to and with the first `://`, and what follows. -/
def cutAuthority : List Char → Option (List Char × List Char)
  | ':' :: '/' :: '/' :: cs => some ("://".toList, cs)
  | c :: cs => (cutAuthority cs).map fun (a, b) => (c :: a, b)
  | [] => none

/-- A URL taken apart where its path starts. -/
def splitUrl (url : String) : String × String :=
  let (scheme, rest) := (cutAuthority url.toList).getD ([], url.toList)
  if rest.contains '/' then
    (String.ofList (scheme ++ rest.takeWhile (· ≠ '/')), String.ofList (rest.dropWhile (· ≠ '/')))
  else (url, "/")

/-- The names below the first source root that a directory lies in. -/
def belowRoots? (roots : List Path) (dir : Path) : Option (List Path.Component) :=
  roots.findSome? fun root => root.below? dir

/-- The text of a path of components. -/
def componentsText (cs : List Path.Component) : String :=
  "/".intercalate (cs.map fun
    | .root => ""
    | .here => "."
    | .up => ".."
    | .name n => n)

/-- What a relative reference means in a module.  A file below a source root refers to modules of
all source roots, another file to its own directory; packages, the module path and hosts are not
left. -/
def resolveRelative (path : String) (importer : ModuleId) (roots : List Path) :
    Except ResolveError AbsoluteUri := do
  let joined (dir : String) (reason : UriReason) : Except ResolveError String :=
    match Path.joinNormalized? dir path with
    | some p => .ok p
    | none => .error (.invalidUri path reason)
  match ← classify importer.text with
  | .absolute (.file own) =>
    let dir := own.parent?.getD ⟨"/"⟩
    match belowRoots? roots dir with
    | some inner =>
      return .modulePath (← joined ("/" ++ componentsText inner) .leavesSourceRoot)
    | none => return .file ⟨(Path.joinNormalized? dir.text path).getD "/"⟩
  | .absolute (.modulePath current) =>
    return .modulePath (← joined (directoryOf current) .leavesModulePath)
  | .absolute (.package p) =>
    return .package { p with
      fragment := some (← joined (directoryOf p.modulePath) .leavesPackage) }
  | .absolute (.network url) =>
    let (origin, current) := splitUrl url
    return .network (origin ++ (← joined (directoryOf current) .leavesHost))
  | .absolute (.stdlib _) | .dependency .. | .relative _ =>
    throw (.invalidUri path (.noBase importer))

end ModuleUri

end PklAnalysis
