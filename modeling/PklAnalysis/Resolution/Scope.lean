import PklAnalysis.Resolution.Declared
import PklAnalysis.Resolution.Receivers

/-!
# Scopes

A name is looked for from the inside out: in the bindings around it, the objects, classes and
methods that enclose it, the module with its supermodules, the imports, and last in the base module.
A name after a receiver is looked for in the module that the receiver imports or among the members
of its type.  What types expressions and declarations have is asked of a `Typing`.
-/

namespace PklAnalysis

/-- Answers to questions about types. -/
structure Typing where
  /-- The type of the expression or declaration at a node. -/
  infer : Tree → Nat → Query Ty
  /-- The type of a declaration. -/
  typed : Declared → Query Ty

namespace Session

def dynamicType : Ty := BaseTypes.plain BaseModule.types.dynamic

/-- The type of a property on a value of a type. -/
def propertyOn? [Bounds] (q : Typing) (receiver : Ty) (name : String) : Query (Option Ty) := do
  match ← memberOfType? receiver name .property with
  | none => return none
  | some m =>
    let declared ← q.typed (Declared.ofMember m)
    return some (← memberTypeOn receiver m.owner declared)

/-- The type of the object that the object body at a node belongs to. -/
def objectType [Bounds] (q : Typing) (t : Tree) (body : Nat) : Query Ty :=
  match t.parent? body with
  | none => return .unknown
  | some p =>
    match t.kind? p with
    | some (.new _) | some .amend => q.infer t p
    | some (.property _) => do
      return ((← declaredPropertyType? t p).map nonNull).getD dynamicType
    | some (.objectProperty b) => do
      let declared ←
        match b.type with
        | some a => some <$> resolveType t p a
        | none =>
          match t.parent? p with
          | none => pure none
          | some outer => do propertyOn? q (← objectType q t outer) b.name
      return (declared.map nonNull).getD dynamicType
    | some (.generator ..) | some .when =>
      match t.parent? p with
      | none => return .unknown
      | some outer => q.infer t outer
    | _ => return .unknown
termination_by body
decreasing_by exact Nat.lt_trans outer.isLt p.isLt

/-- The type that the object around an object member declares for it. -/
def objectMemberType? [Bounds] (q : Typing) (t : Tree) (member : Nat) (name : String) :
    Query (Option Ty) :=
  match t.parent? member with
  | none => return none
  | some body => do propertyOn? q (← objectType q t body) name

/-! ## Names without a receiver -/

/-- The class or type alias with a name in a module. -/
def typeDeclared? (t : Tree) (name : String) : Option Declared := do
  let n ← t.findType? name
  let kind := match t.kind? n with
    | some (.class _) => DeclarationKind.classDecl
    | _ => .typeAlias
  return Declared.atNode t n kind name

/-- The class or type alias with a name in a module, as seen from other modules. -/
def exportedType? (t : Tree) (name : String) : Option Declared :=
  (typeDeclared? t name).filter fun d => !isLocalNode t d.site.node

/-- A member of a class by its name, as a declaration. -/
def declaredMember? (d : DeclRef) (name : String) (kind : MemberKind) : Query (Option Declared) :=
  return (← memberOfClass? d name kind).map Declared.ofMember

/-- The member of an object body with a name, or a member of the type of its object. -/
def inObject? [Bounds] (q : Typing) (t : Tree) (body : Nat) (name : String) (kind : MemberKind) :
    Query (Option Declared) := do
  let own := (t.children body).find? fun n =>
    match t.kind? n with
    | some (.objectProperty b) => b.name = name
    | _ => false
  match kind, own with
  | .property, some n => return some (Declared.atNode t n .objectProperty name)
  | _, _ =>
    return (← memberOfType? (← objectType q t body) name kind).map Declared.ofMember

/-- The parameter with a name among the children of a node, unless it is looked for from one of the
parameters. -/
def parameter? (t : Tree) (scope child : Nat) (name : String) : Option Declared :=
  let named (n : Nat) : Bool :=
    match t.kind? n with
    | some (.parameter b) => b.name = name
    | _ => false
  match t.kind? child with
  | some (.parameter _) => none
  | _ => ((t.children scope).find? named).map fun n => Declared.atNode t n .parameter name

/-- A binding that a node makes visible in its second child. -/
def bound? (t : Tree) (scope child : Nat) (kind : DeclarationKind) (name : String)
    (names : List String) : Option Declared :=
  if names.contains name && t.child? scope 1 = some child then
    some (Declared.atNode t scope kind name)
  else none

/-- What a name means by virtue of one of the nodes around it, as seen from a child of the node. -/
def inScope? [Bounds] (q : Typing) (t : Tree) (scope child : Nat) (name : String)
    (kind : MemberKind) : Query (Option Declared) :=
  match t.kind? scope, kind with
  | some (.letIn b), .property => return bound? t scope child .letBinding name [b.name]
  | some .lambda, .property | some (.method _), .property => return parameter? t scope child name
  | some (.generator key value), .property =>
    return bound? t scope child .forBinding name (value.name :: (key.map (·.name)).toList)
  | some .objectBody, _ => inObject? q t scope name kind
  | some (.class _), _ =>
    match declOf? t scope with
    | some d => declaredMember? d name kind
    | none => return none
  | _, _ => return none

/-- What a name means in nodes around each other, innermost first, as seen from a child of the
first. -/
def inScopes? [Bounds] (q : Typing) (t : Tree) (name : String) (kind : MemberKind) :
    Nat → List Nat → Query (Option Declared)
  | _, [] => return none
  | child, scope :: scopes => do
    match ← inScope? q t scope child name kind with
    | some found => return some found
    | none => inScopes? q t name kind scope scopes

/-- The first type with a name that the supermodules of a module show. -/
def inheritedTypeDeclared? (t : Tree) (name : String) : Query (Option Declared) := do
  return (← supermodules t).findSome? fun m => exportedType? m name

/-- A member of a module or its supermodules, or one of their types. -/
def inModule? (t : Tree) (name : String) (kind : MemberKind) : Query (Option Declared) := do
  match ← declaredMember? (moduleDecl t) name kind with
  | some found => return some found
  | none =>
    match kind, typeDeclared? t name with
    | .method, _ => return none
    | .property, some found => return some found
    | .property, none => inheritedTypeDeclared? t name

/-- The import that binds a name. -/
def import? (t : Tree) (name : String) (kind : MemberKind) : Option Declared :=
  match kind with
  | .method => none
  | .property =>
    (t.imports.find? fun (_, i) => i.bindingName = name).map fun (n, _) =>
      Declared.atNode t n .import name

/-- What a name without a receiver means at a node. -/
def unqualified? [Bounds] (q : Typing) (t : Tree) (n : Nat) (name : String) (kind : MemberKind) :
    Query (Option Declared) := do
  if let some found ← inScopes? q t name kind n (t.ancestors n) then return some found
  if let some found ← inModule? t name kind then return some found
  match import? t name kind with
  | some found => return some found
  | none => inModule? BaseModule.tree name kind

/-! ## Names after a receiver -/

/-- A property or method at top level that a module shows to others. -/
def exportedMember? (t : Tree) (name : String) (kind : MemberKind) : Option Declared :=
  let shows (n : Nat) : Bool :=
    match t.kind? n, kind with
    | some (.property h), .property => !h.modifiers.isLocal && h.name = name
    | some (.method h), .method => !h.modifiers.isLocal && h.name = name
    | _, _ => false
  ((t.children Tree.root).find? shows).map fun n => Declared.atNode t n (Declared.kindOf kind) name

/-- What a name means after a module as seen from other modules: a member at top level, a type, or a
member that the module inherits. -/
def topLevel? (t : Tree) (name : String) (kind : MemberKind) : Query (Option Declared) :=
  let type := match kind with
    | .property => exportedType? t name
    | .method => none
  match (exportedMember? t name kind).or type with
  | some found => return some found
  | none => do
    let inherited ← memberOfClass? (moduleDecl t) name kind
    return (inherited.filter fun m => !m.isLocal).map Declared.ofMember

/-- What a name means after an imported module. -/
def inImported? (importer : Tree) (uri name : String) (kind : MemberKind) :
    Query (Option Declared) := do
  match ← resolveModule? importer uri with
  | some t => topLevel? t name kind
  | none => return none

/-- What a name means among the members of a value of a type, as seen from a module. -/
def onReceiver? [Bounds] (t : Tree) (receiver : Ty) (name : String) (kind : MemberKind) :
    Query (Option Declared) := do
  let m ← memberOfType? receiver name kind
  return (m.filter fun m => !m.isLocal || m.site.module = t.id).map Declared.ofMember

/-- What a name means after an import clause. -/
def afterImport? (d : Declared) (name : String) (kind : MemberKind) : Query (Option Declared) := do
  match ← tree? d.site.module with
  | none => return none
  | some importer =>
    match importer.kind? d.site.node with
    | some (.importClause i) => inImported? importer i.uri name kind
    | _ => return none

/-- What a name means after a receiver that stands for a module: the word `module`, an import
expression, or a name that an import binds.  No answer for other receivers. -/
def afterModule? [Bounds] (q : Typing) (t : Tree) (receiver : Nat) (name : String)
    (kind : MemberKind) : Query (Option (Option Declared)) :=
  match t.kind? receiver with
  | some .moduleRef => some <$> declaredMember? (moduleDecl t) name kind
  | some (.importExpr i) => some <$> inImported? t i.uri name kind
  | some (.ident binding) => do
    match ← unqualified? q t receiver binding .property with
    | some d => if d.kind = .import then some <$> afterImport? d name kind else return none
    | none => return none
  | _ => return none

/-- What a name means after a receiver. -/
def qualified? [Bounds] (q : Typing) (t : Tree) (receiver : Nat) (name : String)
    (kind : MemberKind) : Query (Option Declared) := do
  match ← afterModule? q t receiver name kind with
  | some found => return found
  | none => onReceiver? t (← q.infer t receiver) name kind

/-! ## References -/

/-- The module that a URI leads to, as a declaration. -/
def moduleDeclared? (importer : Tree) (uri : String) : Query (Option Declared) := do
  return (← resolveModule? importer uri).map fun t =>
    Declared.atNode t Tree.root .module (moduleName t)

/-- What the reference at a node resolves to.  Identifiers, accesses, calls, imports, import
expressions and clauses are references. -/
def resolveIn [Bounds] (q : Typing) (t : Tree) (n : Nat) : Query (Option Declared) :=
  match t.kind? n with
  | some (.ident name) => unqualified? q t n name .property
  | some (.call name false) => unqualified? q t n name .method
  | some (.access name _) =>
    match t.child? n 0 with
    | some receiver => qualified? q t receiver name .property
    | none => return none
  | some (.call name true) =>
    match t.child? n 0 with
    | some receiver => qualified? q t receiver name .method
    | none => return none
  | some (.importClause i) | some (.importExpr i) => moduleDeclared? t i.uri
  | some (.clause _ uri) => moduleDeclared? t uri
  | _ => return none

end Session

end PklAnalysis
