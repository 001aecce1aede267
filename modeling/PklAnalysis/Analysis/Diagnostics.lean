import PklAnalysis.Resolution.Inference

/-!
# Diagnostics

`Session.checkModule` runs up to four checks over a module, each on its own: that URIs lead
somewhere, that nothing inherits from itself, that references resolve, and that values have a
subtype in common with the types that are declared for them.  Where the members of a receiver or an
enclosing class cannot be known, an unresolved reference is not reported.
-/

namespace PklAnalysis

inductive Severity where
  | error
  | warning
  deriving DecidableEq, Repr

def Severity.text : Severity → String
  | .error => "error"
  | .warning => "warning"

/-- What is wrong with a module. -/
inductive Finding where
  | unresolvedReference (name : String)
  | module (error : ResolveError)
  | circularModule (name : String)
  | circularClass (name : String)
  | typeMismatch (expected actual : Ty)

namespace Finding

/-- The word for a kind of finding. -/
def code : Finding → String
  | .unresolvedReference _ => "unresolved-reference"
  | .module (.invalidUri ..) => "invalid-module-uri"
  | .module _ => "module-not-found"
  | .circularModule _ | .circularClass _ => "circular-inheritance"
  | .typeMismatch .. => "type-mismatch"

def message : Finding → String
  | .unresolvedReference name => "Unresolved reference '" ++ name ++ "'"
  | .module error => error.message
  | .circularModule name => "Module '" ++ name ++ "' inherits from itself"
  | .circularClass name => "Class '" ++ name ++ "' inherits from itself"
  | .typeMismatch expected actual =>
    "Type mismatch: expected '" ++ expected.text ++ "', found '" ++ actual.text ++ "'"

/-- All findings are errors. -/
def severity (_ : Finding) : Severity := .error

end Finding

/-- A finding at a node. -/
structure Diagnostic where
  finding : Finding
  span : Span
  node : Nat

namespace Diagnostic

/-- A finding at a node of a tree. -/
def atNode (t : Tree) (n : Nat) (finding : Finding) : Diagnostic := ⟨finding, t.span n, n⟩

/-- Diagnostics are ordered by where they start, then by where they end. -/
def isBefore (a b : Diagnostic) : Bool :=
  a.span.start < b.span.start || (a.span.start = b.span.start && a.span.stop ≤ b.span.stop)

end Diagnostic

/-- The checks to run. -/
structure CheckOptions where
  unresolvedReferences : Bool
  moduleUris : Bool
  circularInheritance : Bool
  typeMismatches : Bool
  deriving DecidableEq, Repr

def CheckOptions.all : CheckOptions := ⟨true, true, true, true⟩

namespace Session

/-- The findings of a check at all nodes of a module. -/
def findingsAt (t : Tree) (check : Nat → Query (Option Diagnostic)) : Query (List Diagnostic) := do
  return (← (t.descendants Tree.root).mapM check).filterMap id

/-! ## Modules -/

/-- The URI of the module that a node refers to. -/
def uriAt? (t : Tree) (n : Nat) : Option String :=
  match t.kind? n with
  | some (.clause _ uri) => some uri
  | some (.importClause i) | some (.importExpr i) => some i.uri
  | _ => none

/-- Whether a URI is one of the standard library, whose modules need not be there. -/
def isStandard (uri : String) : Bool := Text.startsWith "pkl:" uri && uri ≠ BaseModule.uri

def checkUri (t : Tree) (n : Nat) : Query (Option Diagnostic) :=
  match uriAt? t n with
  | none => return none
  | some uri => do
    match ← resolveModule t uri with
    | .ok _ => return none
    | .error e =>
      if isStandard uri && e.isNotFound then return none
      else return some (Diagnostic.atNode t n (.module e))

/-! ## Inheritance -/

def checkModuleCycle (t : Tree) : Query (Option Diagnostic) := do
  let d := moduleDecl t
  if (← ancestors d).isCyclic then
    let n := (t.clause?.map (·.1)).getD Tree.root
    return some (Diagnostic.atNode t n (.circularModule d.name))
  return none

def checkClassCycle (t : Tree) (n : Nat) : Query (Option Diagnostic) :=
  match t.kind? n, declOf? t n with
  | some (.class _), some d => do
    if (← ancestors d).isCyclic then return some (Diagnostic.atNode t n (.circularClass d.name))
    return none
  | _, _ => return none

def checkCycles (t : Tree) : Query (List Diagnostic) := do
  let own ← checkModuleCycle t
  return own.toList ++ (← findingsAt t (checkClassCycle t))

/-! ## References -/

/-- The name that a node refers to, and whether it stands after a receiver. -/
def referenceAt? (t : Tree) (n : Nat) : Option (String × Bool) :=
  match t.kind? n with
  | some (.ident name) => some (name, false)
  | some (.access name _) => some (name, true)
  | some (.call name hasReceiver) => some (name, hasReceiver)
  | _ => none

/-- Whether the import at a node leads to a module whose members cannot all be known. -/
def isOpenImport (t : Tree) (n : Nat) : Query Bool :=
  match t.kind? n with
  | some (.importClause i) => do
    match ← resolveModule? t i.uri with
    | some m => hasUnknownAncestor (moduleDecl m)
    | none => return true
  | _ => return true

/-- Whether the members of a receiver cannot all be known. -/
def isOpenReceiver [Bounds] (t : Tree) (receiver : Nat) : Query Bool := do
  let found ← resolve t receiver
  match found.filter fun d => d.kind = .import with
  | some d => isOpenImport t d.site.node
  | none => isOpenType (← typeOf t receiver)

/-- Whether a node around a reference is an object or class whose members cannot all be known. -/
def isOpenScope [Bounds] (t : Tree) (scope : Nat) : Query Bool :=
  match t.kind? scope with
  | some .objectBody => return (← typeOf t scope).isUnknown
  | some (.class _) =>
    match declOf? t scope with
    | some d => hasUnknownAncestor d
    | none => return false
  | _ => return false

/-- Whether something around a node may have members that cannot be known. -/
def hasOpenScope [Bounds] (t : Tree) (n : Nat) : Query Bool := do
  if ← (t.ancestors n).anyM (isOpenScope t) then return true
  hasUnknownAncestor (moduleDecl t)

/-- Whether an unresolved reference may still refer to something. -/
def isExcused [Bounds] (t : Tree) (n : Nat) (hasReceiver : Bool) : Query Bool :=
  if hasReceiver then
    match t.child? n 0 with
    | some receiver => isOpenReceiver t receiver
    | none => return false
  else hasOpenScope t n

def checkReference [Bounds] (t : Tree) (n : Nat) : Query (Option Diagnostic) :=
  match referenceAt? t n with
  | none => return none
  | some (name, hasReceiver) => do
    if (← resolve t n).isSome then return none
    if ← isExcused t n hasReceiver then return none
    return some (Diagnostic.atNode t n (.unresolvedReference name))

/-! ## Types -/

/-- The type that is declared at a node, and the node of the value that should have it. -/
def declaredValue? (t : Tree) (n : Nat) : Query (Option (Ty × Nat)) := do
  let (type, value) ←
    match t.kind? n with
    | some (.property _) => pure (← declaredPropertyType? t n, t.value? n)
    | some (.objectProperty b) => pure (← b.type.mapM (resolveType t n), t.value? n)
    | some (.letIn b) => pure (← b.type.mapM (resolveType t n), t.child? n 0)
    | _ => pure (none, none)
  return match type, value with
    | some type, some value => some (type, value)
    | _, _ => none

def checkType [Bounds] (t : Tree) (n : Nat) : Query (Option Diagnostic) := do
  match ← declaredValue? t n with
  | none => return none
  | some (declared, value) =>
    let expected := declared.erase
    let actual ← typeOf t value
    if ← env.haveCommonSubtype actual expected then return none
    return some (Diagnostic.atNode t value (.typeMismatch expected actual))

/-! ## All checks -/

/-- A check that is run if it is asked for. -/
def checkIf (wanted : Bool) (check : Query (List Diagnostic)) : Query (List Diagnostic) :=
  if wanted then check else return []

/-- What is wrong with a module, ordered by place. -/
def checkModule [Bounds] (t : Tree) (options : CheckOptions) : Query (List Diagnostic) := do
  adopt t
  let uris ← checkIf options.moduleUris (findingsAt t (checkUri t))
  let cycles ← checkIf options.circularInheritance (checkCycles t)
  let references ← checkIf options.unresolvedReferences (findingsAt t (checkReference t))
  let types ← checkIf options.typeMismatches (findingsAt t (checkType t))
  return (uris ++ cycles ++ references ++ types).mergeSort Diagnostic.isBefore

end Session

end PklAnalysis
