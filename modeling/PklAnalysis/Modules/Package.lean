import PklAnalysis.Version

/-!
# Package URIs

`package://example.com/birds@1.2.0#/Bird.pkl` names the module `/Bird.pkl` in version 1.2.0 of the
package `example.com/birds`.  A `projectpackage://` URI names the same.
-/

namespace PklAnalysis

structure PackageUri where
  authority : String
  /-- The path of the package, with a slash in front. -/
  path : String
  version : Version
  /-- The path of a module in the package, with a slash in front. -/
  fragment : Option String
  deriving DecidableEq, Repr, Inhabited

namespace PackageUri

/-- Why a text is no package URI. -/
inductive Reason where
  | scheme
  | noVersion
  | version (why : Version.Malformed)
  | noPath
  | emptyPart
  | relativeFragment
  deriving DecidableEq, Repr

def Reason.message : Reason → String
  | .scheme => "expected a package:// scheme"
  | .noVersion => "missing @version"
  | .version why => why.message
  | .noPath => "missing package path"
  | .emptyPart => "empty authority or path"
  | .relativeFragment => "fragment must be an absolute path"

/-- A text that is no package URI. -/
structure Malformed where
  uri : String
  reason : Reason
  deriving DecidableEq, Repr

def Malformed.message (e : Malformed) : String :=
  "Invalid package URI '" ++ e.uri ++ "': " ++ e.reason.message

/-- The text after the scheme. -/
def afterScheme? (uri : String) : Option String :=
  (Text.after? "package://" uri).or (Text.after? "projectpackage://" uri)

/-- A fragment that is given and not empty must start with a slash. -/
def fragmentOf : Option String → Except Reason (Option String)
  | none => .ok none
  | some f =>
    if f = "" then .ok none
    else if Text.startsWith "/" f then .ok (some f)
    else .error .relativeFragment

/-- The parts of the text after the scheme. -/
def parts (rest : String) : Except Reason PackageUri := do
  let (base, fragment) :=
    match Text.cut? '#' rest with
    | some (base, f) => (base, some f)
    | none => (rest, none)
  let some (location, version) := Text.cutLast? '@' base | throw .noVersion
  let version ← (Version.parse version).mapError .version
  let some (authority, path) := Text.cut? '/' location | throw .noPath
  if authority = "" || path = "" then throw .emptyPart
  return ⟨authority, "/" ++ path, version, ← fragmentOf fragment⟩

/-- The package URI that a text is. -/
def parse (uri : String) : Except Malformed PackageUri :=
  match afterScheme? uri with
  | none => .error ⟨uri, .scheme⟩
  | some rest => (parts rest).mapError fun r => ⟨uri, r⟩

/-- The package without version and module. -/
def name (p : PackageUri) : String := p.authority ++ p.path

/-- The package without a module. -/
def baseUri (p : PackageUri) : String :=
  "package://" ++ p.authority ++ p.path ++ "@" ++ p.version.text

/-- The name under which projects record a package: its URI with only the major version. -/
def canonicalName (p : PackageUri) : String :=
  "package://" ++ p.authority ++ p.path ++ "@" ++ toString p.version.major

/-- The written form. -/
def text (p : PackageUri) : String :=
  match p.fragment with
  | some f => p.baseUri ++ "#" ++ f
  | none => p.baseUri

/-- The path of the module, the package's root standing in for none. -/
def modulePath (p : PackageUri) : String := p.fragment.getD "/"

end PackageUri

end PklAnalysis
