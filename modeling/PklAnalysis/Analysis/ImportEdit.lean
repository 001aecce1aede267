import PklAnalysis.Resolution.Inference

/-!
# Tidying imports

`Session.tidyImports` proposes another import list for a module: imports that nothing in the module
refers to are dropped, and so are repetitions of the same module under the same alias; URIs with a
scheme come first, then the order is by URI and alias.
-/

namespace PklAnalysis

/-- An import list to replace that of a module. -/
structure ImportEdit where
  /-- The part of the module that the import clauses take up. -/
  span : Span
  imports : List Import
  /-- Whether the list differs from that of the module. -/
  changed : Bool
  deriving DecidableEq

namespace ImportEdit

/-- The clauses, one in a line. -/
def text (e : ImportEdit) : String := "\n".intercalate (e.imports.map Import.text)

/-- The order of aliases, none first. -/
def compareAliases : Option String → Option String → Ordering
  | none, none => .eq
  | none, some _ => .lt
  | some _, none => .gt
  | some a, some b => compareOfLessAndEq a b

/-- The order of imports: with a scheme first, then by URI, then by alias. -/
def compare (a b : Import) : Ordering :=
  let rank (i : Import) : Nat := if ModuleUri.hasScheme i.uri then 0 else 1
  ((Ord.compare (rank a) (rank b)).then (compareOfLessAndEq a.uri b.uri)).then
    (compareAliases a.asName b.asName)

def sort (is : List Import) : List Import := is.mergeSort fun a b => (compare a b).isLE

end ImportEdit

namespace Session

/-! ## Use -/

/-- The annotations that stand at a node. -/
def annotationsAt : NodeKind → List TypeExpr
  | .class h => h.superclass.toList
  | .typeAlias h => [h.target]
  | .property h => h.type.toList
  | .method h => h.returns.toList
  | .parameter b | .letIn b | .objectProperty b => b.type.toList
  | .generator key value => (key.bind (·.type)).toList ++ value.type.toList
  | .new a => a.toList
  | _ => []

/-- Whether a name in an annotation may refer to an import with a name.  A name without a dot that
a type of the module has refers to that type. -/
def mentions (t : Tree) (binding name : String) : Bool :=
  Text.before '.' name = binding
    && (name.toList.contains '.' || (t.findType? name).isNone)

/-- The imports that the annotations at a node may refer to. -/
def mentionedImports (t : Tree) (kind : NodeKind) : List Nat :=
  let names := (annotationsAt kind).flatMap TypeExpr.names
  (t.imports.filter fun (_, i) => names.any (mentions t i.bindingName)).map (·.1)

/-- The import that the reference at a node resolves to. -/
def referencedImport? [Bounds] (t : Tree) (n : Nat) : Query (Option Nat) := do
  match t.kind? n with
  | some (.ident _) | some (.access ..) | some (.call ..) =>
    let found ← resolve t n
    return (found.filter fun d => d.kind = .import && d.site.module = t.id).map (·.site.node)
  | _ => return none

/-- The imports that a node refers to. -/
def importsUsedAt [Bounds] (t : Tree) (n : Nat) : Query (List Nat) := do
  let referenced ← referencedImport? t n
  let mentioned := match t.kind? n with
    | some kind => mentionedImports t kind
    | none => []
  return referenced.toList ++ mentioned

/-- The imports that anything in a module refers to. -/
def usedImports [Bounds] (t : Tree) : Query (List Nat) := do
  return (← (t.descendants Tree.root).mapM (importsUsedAt t)).flatten

/-! ## The new list -/

/-- What an import stands for: its module, or its URI if that leads nowhere, and its alias. -/
def importKey (t : Tree) (i : Import) : Query (String × Option String) := do
  let target := match ← resolveModule? t i.uri with
    | some m => m.id.text
    | none => i.uri
  return (target, i.asName)

/-- The first imports of each module under each alias. -/
def distinctImports (t : Tree) (is : List Import) : Query (List Import) := do
  let keyed ← is.mapM fun i => return (← importKey t i, i)
  return (keyed.foldl (fun d (key, i) => Dict.insertNew d key i) Dict.empty).values

/-- The least span that covers given ones. -/
def coverAll : List Span → Option Span
  | [] => none
  | s :: rest => some (rest.foldl Span.cover s)

/-- The import list that a module should have; none if it has no imports. -/
def tidyImports [Bounds] (t : Tree) : Query (Option ImportEdit) := do
  adopt t
  match coverAll (t.imports.map fun (n, _) => t.span n) with
  | none => return none
  | some span =>
    let used ← usedImports t
    let kept := (t.imports.filter fun (n, _) => used.contains n).map (·.2)
    let imports := ImportEdit.sort (← distinctImports t kept)
    return some ⟨span, imports, imports ≠ t.imports.map (·.2)⟩

end Session

end PklAnalysis
