import PklAnalysis.Commands

/-!
# Invocations

The words of a command line, and what they ask for.  An invocation is carried out on files that have
been read before, so that its result is a value: the text to print and whether all is well.
-/

namespace PklAnalysis

/-- What is asked of a workspace. -/
inductive Request where
  | check (paths : List String) (asJson : Bool)
  | resolve (path : String) (offset : Nat) (asJson : Bool)
  | optimizeImports (path : String) (asJson : Bool)
  | format (path : String)
  | graph (asJson : Bool)
  | subtype (left right : String) (path : Option String)
  deriving DecidableEq, Repr

structure Invocation where
  /-- The configuration file; the nearest one is looked for if none is given. -/
  config : Option String
  /-- The directory of the workspace. -/
  root : String
  request : Request
  deriving DecidableEq, Repr

namespace Invocation

/-! ## Words -/

/-- The words of a command line, options apart. -/
structure Arguments where
  options : List (String × String)
  asJson : Bool
  words : List String

/-- The name of an option that has a value. -/
def optionName? : String → Option String
  | "-c" | "--config" => some "config"
  | "-r" | "--root" => some "root"
  | "-o" | "--offset" => some "offset"
  | "-m" | "--module" => some "module"
  | "-g" | "--grammar-version" => some "grammar-version"
  | _ => none

/-- The words of a command line; none if an option is unknown or lacks its value. -/
def Arguments.ofList? : List String → Option Arguments
  | [] => some ⟨[], false, []⟩
  | word :: rest =>
    match optionName? word, rest with
    | some name, value :: rest =>
      (ofList? rest).map fun a => { a with options := (name, value) :: a.options }
    | some _, [] => none
    | none, rest => do
      let a ← ofList? rest
      if word = "--json" then return { a with asJson := true }
      else if Text.startsWith "-" word then none
      else return { a with words := word :: a.words }

/-- A number in decimal digits. -/
def offset? (text : String) : Option Nat :=
  if text ≠ "" && text.toList.all Char.isDigit then
    some (text.toList.foldl Json.appendDigit 0)
  else none

/-- What the words ask for. -/
def request? (a : Arguments) : Option Request :=
  match a.words with
  | "check" :: paths => some (.check paths a.asJson)
  | ["resolve", path] =>
    ((a.options.lookup "offset").bind offset?).map fun offset => .resolve path offset a.asJson
  | ["optimize-imports", path] => some (.optimizeImports path a.asJson)
  | ["format", path] => some (.format path)
  | ["graph"] => some (.graph a.asJson)
  | ["subtype", left, right] => some (.subtype left right (a.options.lookup "module"))
  | _ => none

/-- What a command line asks for. -/
def ofWords? (words : List String) : Option Invocation := do
  let a ← Arguments.ofList? words
  return ⟨a.options.lookup "config", (a.options.lookup "root").getD ".", ← request? a⟩

/-! ## Carrying out -/

/-- The configuration of an invocation. -/
def configFor (i : Invocation) (files : Files) (here : Path) : Except String Config :=
  match i.config with
  | some path =>
    (Config.read files (here.join path)).mapError fun e =>
      "Failed to load configuration " ++ path ++ ": " ++ e.message
  | none =>
    match files.canonical (here.join i.root) with
    | .error _ => .error ("Workspace " ++ i.root ++ " does not exist")
    | .ok root =>
      match Config.discover files root with
      | .error e => .error e.message
      | .ok found => .ok ((found.map (·.2)).getD Config.standard)

/-- The report that is asked of a workspace, and the number of problems in it. -/
def report (w : Workspace) (files : Files) (here : Path) : Request → Command (String × Nat)
  | .check paths asJson => Command.check w paths asJson
  | .resolve path offset asJson => return (← Command.resolve w path offset asJson, 0)
  | .optimizeImports path asJson => return (← Command.optimizeImports w path asJson, 0)
  | .graph asJson => return (← Command.graph asJson, 0)
  | .subtype left right path => return (← Command.subtype w left right path, 0)
  | .format path =>
    match Command.format files w.config (here.join path).text with
    | .ok text => return (text, 0)
    | .error e => throw e

/-- The text that an invocation prints, and the number of problems it reports. -/
def run (i : Invocation) (files : Files) (here : Path) : Except String (String × Nat) := do
  let config ← configFor i files here
  let w ← (Workspace.openAt files (here.join i.root) config).mapError OpenError.message
  let (result, _) := (report w files here i.request).run.run w.session
  result.mapError CommandError.message

end Invocation

end PklAnalysis
