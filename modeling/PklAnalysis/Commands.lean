import PklAnalysis.Analysis.ImportEdit
import PklAnalysis.Json.Printer
import PklAnalysis.Modules.DependencyGraph
import PklAnalysis.Workspace

/-!
# Commands

What a workspace can be asked for from outside: each command gives the text of a report, for people
or as JSON, or the reason why there is none.
-/

namespace PklAnalysis

/-- Why a command has no report. -/
inductive CommandError where
  /-- One of the modules to be checked cannot be had. -/
  | check (path : String) (why : ResolveError)
  | module (why : ResolveError)
  | outside (offset : Nat) (id : ModuleId)
  | type (text : String) (why : TypeExpr.Malformed)
  | unreadable (path : String) (why : ReadError)
  | noFormatter (name : String)

def CommandError.message : CommandError → String
  | .check path why => "Failed to load module " ++ path ++ ": " ++ why.message
  | .module why => why.message
  | .outside offset id => "Offset " ++ toString offset ++ " is outside " ++ id.text
  | .type text why => "Invalid type '" ++ text ++ "': " ++ why.message
  | .unreadable path why => "Failed to read " ++ path ++ ": " ++ why.message
  | .noFormatter name => "Formatter executable '" ++ name ++ "' not found"

/-- A command, which may end without a report. -/
abbrev Command := ExceptT CommandError Query

namespace Command

/-! ## Parts -/

def line (text : String) : String := text ++ "\n"

def moduleAt (w : Workspace) (path : String) : Command Tree := do
  match ← (Workspace.moduleAt w.root path : Query _) with
  | .ok t => return t
  | .error e => throw (.module e)

def checkedModule (w : Workspace) (path : String) : Command Tree := do
  match ← (Workspace.moduleAt w.root path : Query _) with
  | .ok t => return t
  | .error e => throw (.check path e)

def spanJson (s : Span) : Json := .obj [("start", .ofNat s.start), ("end", .ofNat s.stop)]

/-- A span with its fields in alphabetical order. -/
def sortedSpanJson (s : Span) : Json := .obj [("end", .ofNat s.stop), ("start", .ofNat s.start)]

/-! ## Checking -/

def diagnosticLine (t : Tree) (d : Diagnostic) : String :=
  line (t.id.text ++ ":" ++ toString d.span.start ++ "-" ++ toString d.span.stop ++ ": "
    ++ d.finding.severity.text ++ "[" ++ d.finding.code ++ "] " ++ d.finding.message)

def diagnosticJson (d : Diagnostic) : Json :=
  .obj [("code", .str d.finding.code), ("message", .str d.finding.message),
    ("severity", .str d.finding.severity.text), ("span", sortedSpanJson d.span)]

def checkJson (reports : List (Tree × List Diagnostic)) : Json :=
  .arr (reports.map fun (t, ds) =>
    .obj [("diagnostics", .arr (ds.map diagnosticJson)), ("module", .str t.id.text)])

/-- The diagnostics of the modules at some paths, or of all modules if there are none, with their
number. -/
def check (w : Workspace) (paths : List String) (asJson : Bool) : Command (String × Nat) := do
  let trees ←
    if paths.isEmpty then pure (Workspace.modules (← get)) else paths.mapM (checkedModule w)
  let reports ← trees.mapM fun t => do
    return (t, ← (Session.checkModule t w.config.diagnostics : Query _))
  let text :=
    if asJson then line (checkJson reports).pretty
    else String.join (reports.flatMap fun (t, ds) => ds.map (diagnosticLine t))
  return (text, (reports.flatMap (·.2)).length)

/-! ## Resolving -/

/-- The place of a declaration in its module, if the module is there. -/
def spanOf (d : Declared) : Query (Option Span) := do
  return (← Session.tree? d.site.module).map fun t => t.span d.site.node

def declaredJson (d : Declared) (span : Option Span) : Json :=
  .obj [("kind", .str d.kind.text), ("module", .str d.site.module.text), ("name", .str d.name),
    ("span", Json.orNull sortedSpanJson span)]

def declaredLine (d : Declared) (span : Option Span) : String :=
  let place := match span with
    | some s => ":" ++ toString s.start ++ "-" ++ toString s.stop
    | none => ""
  line (d.kind.text ++ " " ++ d.name ++ " at " ++ d.site.module.text ++ place)

/-- What the reference at an offset resolves to, and its type. -/
def resolve (w : Workspace) (path : String) (offset : Nat) (asJson : Bool) : Command String := do
  let t ← moduleAt w path
  let some n := t.nodeAt? offset | throw (.outside offset t.id)
  let type ← (Session.typeOf t n : Query _)
  let target ← (Session.resolve t n : Query _)
  let placed ← target.mapM fun d => do return (d, ← (spanOf d : Query _))
  if asJson then
    return line (Json.obj [("declaration", Json.orNull (fun (d, s) => declaredJson d s) placed),
      ("type", .str type.text)]).pretty
  let first := match placed with
    | some (d, s) => declaredLine d s
    | none => line "unresolved"
  return first ++ line ("type: " ++ type.text)

/-! ## Imports -/

def editJson (e : ImportEdit) : Json :=
  .obj [("span", spanJson e.span), ("text", .str e.text), ("changed", .bool e.changed)]

/-- The import list that a module should have. -/
def optimizeImports (w : Workspace) (path : String) (asJson : Bool) : Command String := do
  let t ← moduleAt w path
  let edit ← (Session.tidyImports t : Query _)
  if asJson then return line (Json.orNull editJson edit).pretty
  match edit with
  | some e => return line (if e.changed then e.text else "imports are already optimized")
  | none => return line "no imports"

/-! ## Dependencies -/

/-- The name of a module of a graph. -/
def nameIn (g : DependencyGraph) (n : Nat) : String := (g.modules[n]?.map ModuleId.text).getD ""

def graphText (g : DependencyGraph) : String :=
  let edges := g.edges.map fun e =>
    line (nameIn g e.source ++ " -> " ++ nameIn g e.target ++ " (" ++ e.kind.text ++ ")")
  let broken := g.broken.map fun b =>
    line (b.source.text ++ " -> " ++ b.uri ++ " (" ++ b.kind.text ++ "): " ++ b.error.message)
  let cycles := g.cycles.map fun c => line ("cycle: " ++ " -> ".intercalate (c.map ModuleId.text))
  String.join (edges ++ broken ++ cycles)

def graphJson (g : DependencyGraph) : Json :=
  .obj [("broken", .arr (g.broken.map fun b =>
      .obj [("error", .str b.error.message), ("from", .str b.source.text),
        ("kind", .str b.kind.text), ("uri", .str b.uri)])),
    ("cycles", .arr (g.cycles.map fun c => Json.ofStrings (c.map ModuleId.text))),
    ("edges", .arr (g.edges.map fun e =>
      .obj [("from", .str (nameIn g e.source)), ("kind", .str e.kind.text),
        ("to", .str (nameIn g e.target))])),
    ("modules", .ofNat g.modules.length)]

/-- The dependencies of all stored modules. -/
def graph (asJson : Bool) : Command String := do
  let roots := (← get).store.ids
  let g ← (Session.onStore (DependencyGraph.build roots) : Query _)
  return if asJson then line (graphJson g).pretty else graphText g

/-! ## Types -/

def parsedType (text : String) : Command TypeExpr :=
  match TypeExpr.parse text with
  | .ok a => return a
  | .error why => throw (.type text why)

def relationLine (a b : Ty) (holds : Bool) : String :=
  line (a.text ++ " <: " ++ b.text ++ ": " ++ toString holds)

/-- How two annotations compare that are written in a module, or in the base module. -/
def subtype (w : Workspace) (left right : String) (path : Option String) : Command String := do
  let t ← match path with
    | some path => moduleAt w path
    | none => pure BaseModule.tree
  let a ← (Session.resolveType t Tree.root (← parsedType left) : Query _)
  let b ← (Session.resolveType t Tree.root (← parsedType right) : Query _)
  let below ← (Session.env.isSubtype a b : Query _)
  let above ← (Session.env.isSubtype b a : Query _)
  let common ← (Session.env.haveCommonSubtype a b : Query _)
  return relationLine a b below ++ relationLine b a above
    ++ line ("common subtype: " ++ toString common)

/-! ## Formatting -/

/-- The name of the formatter that is looked for if none is configured. -/
def formatterName : String := "pkl"

/-- The formatted text of a file.  Formatting is the work of another program, and as none can be run
here a file that can be read ends with that error. -/
def format (files : Files) (config : Config) (path : String) : Except CommandError String :=
  match files.read ⟨path⟩ with
  | .error why => .error (.unreadable path why)
  | .ok _ => .error (.noFormatter (config.formatter.executable.getD formatterName))

end Command

end PklAnalysis
