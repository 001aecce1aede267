import PklAnalysis.Resolution.Scope

/-!
# Types of expressions and declarations

The type of a node depends on the types of other nodes, in any order and possibly on its own.
`Session.inferNode` and `Session.declarationType` give one step of this, in terms of a `Typing` for
what a step asks; `Session.typingWithin` follows the steps down to a fixed depth, below which every
type is unknown, and takes a declaration whose type is being found to be unknown.
-/

namespace PklAnalysis.Session

/-- A base class as a type. -/
def baseType (d : DeclRef) : Ty := BaseTypes.plain d

def literalType : Literal → Ty
  | .string text => .literal text
  | .int _ => baseType BaseModule.types.int
  | .float _ => baseType BaseModule.types.float
  | .boolean _ => baseType BaseModule.types.boolean
  | .null => BaseModule.types.nullType

/-- The type of a binding: its annotation, resolved where it is written. -/
def bindingType (t : Tree) (n : Nat) (b : Binding) : Query Ty :=
  match b.type with
  | some a => resolveType t n a
  | none => return .unknown

/-- The type of the module that a URI leads to. -/
def importedType (t : Tree) (uri : String) : Query Ty := do
  return ((← resolveModule? t uri).map moduleType).getD .unknown

section Steps

variable (q : Typing) (t : Tree)

/-! ## Expressions -/

/-- The type of what the identifier or call without receiver at a node resolves to. -/
def referenceType [Bounds] (n : Nat) : Query Ty := do
  match ← resolveIn q t n with
  | some d => q.typed d
  | none => return .unknown

/-- The class in which a declaration is a member. -/
def ownerOfDeclared? (d : Declared) : Query (Option DeclRef) := do
  return (← tree? d.site.module).bind fun t => ownerOf? t d.site.node

/-- The type of a declared member on a receiver: that of the declaration, with the arguments that
the receiver gives to the class of the member. -/
def typeOnReceiver [Bounds] (receiver : Query Ty) (d : Declared) : Query Ty := do
  let declared ← q.typed d
  match ← ownerOfDeclared? d with
  | some owner => memberTypeOn (← receiver) owner declared
  | none => return declared.erase

/-- The type of what a name means after a receiver. -/
def qualifiedType [Bounds] (receiver : Nat) (name : String) (kind : MemberKind) : Query Ty := do
  match ← afterModule? q t receiver name kind with
  | some none => return .unknown
  | some (some d) => typeOnReceiver q (q.infer t receiver) d
  | none =>
    -- the type of the receiver is found once for the look-up and for the arguments
    let type ← q.infer t receiver
    match ← onReceiver? t type name kind with
    | none => return .unknown
    | some d => typeOnReceiver q (pure type) d

/-- The type of the access or call with receiver at a node. -/
def accessType [Bounds] (n : Nat) (name : String) (kind : MemberKind) : Query Ty :=
  match t.child? n 0 with
  | some receiver => qualifiedType q t receiver name kind
  | none => return .unknown

/-- The type of `this` as seen from nodes around each other, innermost first. -/
def thisTypeIn [Bounds] : List Nat → Query Ty
  | [] => return moduleType t
  | scope :: scopes =>
    match t.kind? scope with
    | some .objectBody => objectType q t scope
    | some (.class _) =>
      match declOf? t scope with
      | none => return .unknown
      | some d => return ((← classDef d).map ClassDef.selfType).getD .unknown
    | _ => thisTypeIn scopes

/-- The types of the parameters among some nodes, and the type of the last other node. -/
def lambdaParts : List Nat → Query (List Ty × Option Ty)
  | [] => return ([], none)
  | n :: ns =>
    match t.kind? n with
    | some (.parameter b) => do
      let param ← bindingType t n b
      let (params, result) ← lambdaParts ns
      return (param :: params, result)
    | _ => do
      let body ← q.infer t n
      let (params, result) ← lambdaParts ns
      return (params, result.or (some body))

/-- The type of an element of the object around an object member. -/
def elementType? (member : Nat) : Query (Option Ty) :=
  match t.parent? member with
  | none => return none
  | some body => do
    return (← elementTypes? (← q.infer t body)).map (·.2)

/-- What the place of a node says about its type. -/
def placeType? [Bounds] (n : Nat) : Query (Option Ty) :=
  match t.parent? n with
  | none => return none
  | some p =>
    match t.kind? p with
    | some (.property _) => declaredPropertyType? t p
    | some (.objectProperty b) =>
      match b.type with
      | some a => some <$> resolveType t p a
      | none => objectMemberType? q t p b.name
    | some (.letIn b) => b.type.mapM (resolveType t p)
    | some .objectElement => elementType? q t p
    | some .objectEntry => if t.child? p 1 = some n then elementType? q t p else return none
    | _ => return none

/-- The type that a `new` without a type takes from its place. -/
def expectedType [Bounds] (n : Nat) : Query Ty := do
  match (← placeType? q t n).map nonNull with
  | none | some .unknown => return dynamicType
  | some type => return type

/-- One step towards the type of a node. -/
def inferNode [Bounds] (n : Nat) : NodeKind → Query Ty
  | .literal value => return literalType value
  | .ident _ | .call _ false => referenceType q t n
  | .access name nullSafe => do
    let type ← accessType q t n name .property
    return if nullSafe then type.orNull BaseModule.types else type
  | .call name true => accessType q t n name .method
  | .this => thisTypeIn q t (t.ancestors n)
  | .moduleRef | .module .. => return moduleType t
  | .letIn _ =>
    match t.child? n 1 with
    | some body => q.infer t body
    | none => return .unknown
  | .lambda => do
    let (params, result) ← lambdaParts q t (t.children n)
    return .function params (result.getD .unknown)
  | .new (some a) => resolveType t n a
  | .new none => expectedType q t n
  | .amend =>
    match t.child? n 0 with
    | some parent => q.infer t parent
    | none => return .unknown
  | .conditional => do
    return Ty.unionOf BaseModule.types (← ((t.children n).drop 1).mapM (q.infer t))
  | .importExpr i | .importClause i => importedType t i.uri
  | .objectBody => objectType q t n
  | .property h => q.typed (Declared.atNode t n .property h.name)
  | .method h => q.typed (Declared.atNode t n .method h.name)
  | .parameter b => q.typed (Declared.atNode t n .parameter b.name)
  | .objectProperty b => q.typed (Declared.atNode t n .objectProperty b.name)
  | .clause .. | .class _ | .typeAlias _ | .objectElement | .objectEntry | .generator .. | .when =>
    return .unknown

/-! ## Declarations -/

/-- The type of the value of a declaration, if it has one. -/
def valueType? (n : Nat) : Query (Option Ty) := (t.value? n).mapM (q.infer t)

/-- Whether an object body is a child of a node. -/
def hasObjectBody (n : Nat) : Bool :=
  (t.children n).any fun c => t.kind? c = some .objectBody

/-- The type of a property: its annotation, that of a property that it overrides, or that of its
value. -/
def propertyType (n : Nat) : Query Ty := do
  if let some type ← declaredPropertyType? t n then return type
  if let some type ← valueType? q t n then return type
  return if hasObjectBody t n then dynamicType else .unknown

/-- The type of an object property without annotation: that of its value, or that which the object
declares for it. -/
def objectPropertyType [Bounds] (n : Nat) (name : String) : Query Ty := do
  if let some type ← valueType? q t n then return type
  return (← objectMemberType? q t n name).getD dynamicType

/-- The type of a variable of a generator: a key or a value of what is iterated over. -/
def generatorType (n : Nat) (isKey : Bool) : Query Ty :=
  match t.child? n 0 with
  | none => return .unknown
  | some iterable => do
    match ← elementTypes? (← q.infer t iterable) with
    | some (key, value) => return if isKey then key else value
    | none => return .unknown

/-- One step towards the type of what a node declares under a name. -/
def nodeType [Bounds] (n : Nat) (name : String) : NodeKind → Query Ty
  | .property _ => propertyType q t n
  | .objectProperty b =>
    match b.type with
    | some a => resolveType t n a
    | none => objectPropertyType q t n b.name
  | .method h =>
    match h.returns with
    | some a => resolveType t n a
    | none => return (← valueType? q t n).getD .unknown
  | .parameter b => bindingType t n b
  | .letIn b =>
    match b.type, t.child? n 0 with
    | some a, _ => resolveType t n a
    | none, some value => q.infer t value
    | none, none => return .unknown
  | .generator key _ => generatorType q t n (key.any (·.name = name))
  | .importClause i => importedType t i.uri
  | .module .. => return moduleType t
  | _ => return .unknown

end Steps

/-- One step towards the type of a declaration. -/
def declarationType [Bounds] (q : Typing) (d : Declared) : Query Ty := do
  match ← tree? d.site.module with
  | none => return .unknown
  | some t =>
    match t.kind? d.site.node with
    | some kind => nodeType q t d.site.node d.name kind
    | none => return .unknown

/-! ## All steps -/

/-- Types found in so many steps, while those of some declarations are being found. -/
def typingWithin [Bounds] : Nat → List Site → Typing
  | 0, _ => ⟨fun _ _ => return .unknown, fun _ => return .unknown⟩
  | depth + 1, inProgress =>
    { infer := fun t n =>
        match t.kind? n with
        | some kind => inferNode (typingWithin depth inProgress) t n kind
        | none => return .unknown
      typed := fun d =>
        if inProgress.contains d.site then return .unknown
        else declarationType (typingWithin depth (d.site :: inProgress)) d }

/-- How many steps are followed. -/
def maxTypingDepth : Nat := 64

/-- The types that a question about a module starts with. -/
def typing [Bounds] : Typing := typingWithin maxTypingDepth []

/-! ## Questions -/

/-- What the reference at a node resolves to. -/
def resolve [Bounds] (t : Tree) (n : Nat) : Query (Option Declared) := do
  adopt t
  resolveIn typing t n

/-- The type of the expression or declaration at a node. -/
def typeOf [Bounds] (t : Tree) (n : Nat) : Query Ty := do
  adopt t
  typing.infer t n

end PklAnalysis.Session
