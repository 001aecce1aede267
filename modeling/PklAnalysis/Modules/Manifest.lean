import PklAnalysis.Dict
import PklAnalysis.Files
import PklAnalysis.Json.Printer
import PklAnalysis.Json.Reader
import PklAnalysis.Json.Record
import PklAnalysis.Modules.Package

/-!
# Dependency manifests

The manifest of a project says to which version each of its dependencies was resolved, by the
canonical name of the package, and which names stand for which packages in `@name/...` imports.
-/

namespace PklAnalysis

/-- Where a dependency comes from. -/
inductive Dependency where
  /-- A published package, with the checksum that it should have. -/
  | remote (uri : String) (sha256 : Option String)
  /-- A project in another directory. -/
  | localProject (uri : String) (path : String)
  deriving DecidableEq, Repr, Inhabited

namespace Dependency

def uri : Dependency → String
  | .remote uri _ => uri
  | .localProject uri _ => uri

def package (d : Dependency) : Except PackageUri.Malformed PackageUri := PackageUri.parse d.uri

end Dependency

structure Manifest where
  schemaVersion : Nat
  /-- The dependencies by canonical name. -/
  resolved : Dict String Dependency
  /-- The canonical names by the names used in imports. -/
  names : Dict String String
  deriving Inhabited

/-- Why a manifest cannot be used. -/
inductive ManifestError where
  | unreadable (path : Path) (why : ReadError)
  | malformed (path : Path)
  | unsupportedSchema (version : Nat)

namespace ManifestError

/-- The text of the error; of a text that is no manifest it gives no details. -/
def message : ManifestError → String
  | .unreadable path why => "Failed to read " ++ path.text ++ ": " ++ why.message
  | .malformed path => "Malformed dependency manifest " ++ path.text
  | .unsupportedSchema version =>
    "Unsupported dependency manifest schema version " ++ toString version

end ManifestError

namespace Manifest

/-- The schema version that is understood. -/
def supportedSchema : Nat := 1

/-- The name of the file in a project's directory. -/
def fileName : String := "PklProject.deps.json"

/-! ## Reading and writing -/

def checksums? (v : Json) : Option String := do
  let [sha256] ← v.record? ["sha256"] | none
  Json.required Json.string? sha256

def dependency? (v : Json) : Option Dependency := do
  let (tag, rest) ← v.tagged? "type"
  match ← tag.string? with
  | "remote" => do
    let [uri, sums] ← rest.record? ["uri", "checksums"] | none
    return .remote (← Json.required Json.string? uri) (← Json.optional checksums? sums)
  | "local" => do
    let [uri, path] ← rest.record? ["uri", "path"] | none
    return .localProject (← Json.required Json.string? uri) (← Json.required Json.string? path)
  | _ => none

/-- An object with any keys; a repeated one takes its last value. -/
def dict? {β : Type} (read : Json → Option β) : Json → Option (Dict String β)
  | .obj fields => do
    let entries ← fields.mapM fun (name, v) => do return (name, ← read v)
    return Dict.ofList entries
  | _ => none

/-- A number of 32 bits. -/
def nat32? (v : Json) : Option Nat := do
  let n ← v.nat64?
  if n < Nat.pow 2 32 then some n else none

/-- The manifest that a JSON value holds, of whatever schema version. -/
def ofJson? (v : Json) : Option Manifest := do
  let [schema, resolved, names] ←
    v.record? ["schemaVersion", "resolvedDependencies", "dependencies"] | none
  return ⟨← Json.required nat32? schema, ← Json.defaulting (dict? dependency?) Dict.empty resolved,
    ← Json.defaulting (dict? Json.string?) Dict.empty names⟩

/-- The manifest that a text holds; the path says where the text is from. -/
def parse (text : String) (path : Path) : Except ManifestError Manifest :=
  match (Json.parse? text).bind ofJson? with
  | none => .error (.malformed path)
  | some m =>
    if m.schemaVersion = supportedSchema then .ok m
    else .error (.unsupportedSchema m.schemaVersion)

def dependencyJson : Dependency → Json
  | .remote uri sha256 =>
    .obj ([("type", .str "remote"), ("uri", .str uri)]
      ++ match sha256 with
        | some s => [("checksums", .obj [("sha256", .str s)])]
        | none => [])
  | .localProject uri path => .obj [("type", .str "local"), ("uri", .str uri), ("path", .str path)]

/-- The JSON form of a manifest, without names if it has none. -/
def toJson (m : Manifest) : Json :=
  .obj ([("schemaVersion", .ofNat m.schemaVersion),
      ("resolvedDependencies",
        .obj (m.resolved.entries.map fun (name, d) => (name, dependencyJson d)))]
    ++ if m.names.isEmpty then []
      else [("dependencies", .obj (m.names.entries.map fun (name, c) => (name, .str c)))])

end Manifest

/-- A directory with its manifest. -/
structure Project where
  dir : Path
  manifest : Manifest
  deriving Inhabited

namespace Project

/-- A package name without scheme and version. -/
def bareName (package : String) : String :=
  Text.before '@' ((Text.after? "package://" package).getD package)

/-- A dependency with the name under which it is recorded.  It is looked up by that name, then by a
name used in imports, then by the name of the package without its version. -/
def dependency? (p : Project) (package : String) : Option (String × Dependency) :=
  let deps := p.manifest.resolved
  (deps.entry? package).or <|
    ((p.manifest.names.get? package).bind deps.entry?).or <|
      deps.entries.find? fun (key, _) =>
        match Text.after? "package://" key with
        | some rest => Text.before '@' rest = bareName package
        | none => false

/-- The version to which a dependency was resolved. -/
def dependencyVersion? (p : Project) (package : String) : Option Version := do
  let (_, d) ← p.dependency? package
  let uri ← d.package.toOption
  return uri.version

/-- The directory of a dependency that is a project. -/
def localDir? (p : Project) : Dependency → Option Path
  | .localProject _ path => some (p.dir.join path)
  | .remote .. => none

end Project

end PklAnalysis
