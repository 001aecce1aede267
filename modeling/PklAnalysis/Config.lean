import PklAnalysis.Analysis.Diagnostics
import PklAnalysis.Json.Record
import PklAnalysis.Modules.Store
import PklAnalysis.Toml.Reader

/-!
# Configuration

The settings of a workspace, as they stand in a file of its directory or of one above it.  Every
setting has a value of its own when it is absent.
-/

namespace PklAnalysis

/-- The grammar that a formatter follows. -/
inductive GrammarVersion where
  | v1
  | v2
  deriving DecidableEq, Repr

def GrammarVersion.text : GrammarVersion → String
  | .v1 => "v1"
  | .v2 => "v2"

/-- Where modules are looked for, as configured. -/
structure AnalysisSettings where
  sourceRoots : List String
  packageCache : Option String
  projects : List String
  deriving DecidableEq

structure FormatterSettings where
  /-- The formatter; one of a fixed name is looked for if there is none. -/
  executable : Option String
  grammarVersion : GrammarVersion
  deriving DecidableEq

structure Config where
  analysis : AnalysisSettings
  formatter : FormatterSettings
  diagnostics : CheckOptions
  deriving DecidableEq

/-- Why there is no configuration in a file. -/
inductive ConfigError where
  | unreadable (path : Path) (why : ReadError)
  | malformed (path : Path)

/-- The text of the error; of a text that is no configuration it gives no details. -/
def ConfigError.message : ConfigError → String
  | .unreadable path why => "Failed to read " ++ path.text ++ ": " ++ why.message
  | .malformed path => "Malformed configuration " ++ path.text

namespace Config

/-- The name of the file. -/
def fileName : String := "pklsense.toml"

/-- The settings when all are absent. -/
def standard : Config := ⟨⟨[], none, []⟩, ⟨none, .v2⟩, .all⟩

/-! ## Reading -/

/-- How settings are read from the values of a notation. -/
structure Form (α : Type) where
  /-- The fields of a record in their fixed order, each if present. -/
  record? : List String → α → Option (List (Option α))
  text? : α → Option String
  flag? : α → Option Bool
  items? : α → Option (List α)
  /-- One of a fixed choice of words. -/
  word? : α → Option String
  /-- Whether a value stands for its own absence. -/
  isAbsent : α → Bool

namespace Form

def json : Form Json where
  record? names v := v.record? names
  text? := Json.string?
  flag? := Json.bool?
  items? := Json.list? some
  word? := Json.word?
  isAbsent
    | .null => true
    | _ => false

def toml : Form Toml.Value where
  record? names v := v.record? names
  text? := Toml.Value.text?
  flag? := Toml.Value.boolean?
  items? := Toml.Value.items?
  word? := Toml.Value.word?
  isAbsent _ := false

variable {α : Type} (form : Form α)

def texts? (v : α) : Option (List String) := do (← form.items? v).mapM form.text?

def optionalText? : Option α → Option (Option String)
  | none => some none
  | some v => if form.isAbsent v then some none else (form.text? v).map some

def analysis? (v : α) : Option AnalysisSettings := do
  let [roots, cache, projects] ←
    form.record? ["source_roots", "package_cache", "projects"] v | none
  let texts := Json.defaulting form.texts? []
  return ⟨← texts roots, ← form.optionalText? cache, ← texts projects⟩

def grammar? (v : α) : Option GrammarVersion := do
  match ← form.word? v with
  | "v1" => some .v1
  | "v2" => some .v2
  | _ => none

def formatter? (v : α) : Option FormatterSettings := do
  let [executable, grammar] ← form.record? ["executable", "grammar_version"] v | none
  return ⟨← form.optionalText? executable, ← Json.defaulting form.grammar? .v2 grammar⟩

def diagnostics? (v : α) : Option CheckOptions := do
  let [references, uris, cycles, types] ← form.record?
    ["unresolved_references", "module_uris", "circular_inheritance", "type_mismatches"] v | none
  let flag := Json.defaulting form.flag? true
  return ⟨← flag references, ← flag uris, ← flag cycles, ← flag types⟩

/-- The settings that a value holds. -/
def config? (v : α) : Option Config := do
  let [analysis, formatter, diagnostics] ←
    form.record? ["analysis", "formatter", "diagnostics"] v | none
  return ⟨← Json.defaulting form.analysis? standard.analysis analysis,
    ← Json.defaulting form.formatter? standard.formatter formatter,
    ← Json.defaulting form.diagnostics? standard.diagnostics diagnostics⟩

end Form

/-- The settings that a JSON value holds. -/
def ofJson? : Json → Option Config := Form.json.config?

/-- The settings that a text holds. -/
def parse? (text : String) : Option Config := (Toml.parse? text).bind Form.toml.config?

/-- The settings in the file at a path. -/
def read (files : Files) (path : Path) : Except ConfigError Config :=
  match files.read path with
  | .error why => .error (.unreadable path why)
  | .ok text =>
    match parse? text with
    | some c => .ok c
    | none => .error (.malformed path)

/-- The settings in the nearest file at or above a directory, with the path of the file. -/
def discover (files : Files) (start : Path) : Except ConfigError (Option (Path × Config)) :=
  match (start.ancestors.map (·.join fileName)).find? files.isFile with
  | none => .ok none
  | some path => (read files path).map fun c => some (path, c)

/-! ## Writing -/

def toJson (c : Config) : Json :=
  .obj [("analysis", .obj [("source_roots", Json.ofStrings c.analysis.sourceRoots),
      ("package_cache", Json.orNull .str c.analysis.packageCache),
      ("projects", Json.ofStrings c.analysis.projects)]),
    ("formatter", .obj [("executable", Json.orNull .str c.formatter.executable),
      ("grammar_version", .str c.formatter.grammarVersion.text)]),
    ("diagnostics", .obj [("unresolved_references", .bool c.diagnostics.unresolvedReferences),
      ("module_uris", .bool c.diagnostics.moduleUris),
      ("circular_inheritance", .bool c.diagnostics.circularInheritance),
      ("type_mismatches", .bool c.diagnostics.typeMismatches)])]

/-! ## Use -/

/-- Where modules are looked for, relative paths being taken from a directory. -/
def graphConfig (c : Config) (base : Path) : GraphConfig where
  sourceRoots := c.analysis.sourceRoots.map base.join
  packageCache := c.analysis.packageCache.map base.join
  projects := c.analysis.projects.map base.join

end Config

end PklAnalysis
