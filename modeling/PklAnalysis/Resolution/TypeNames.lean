import PklAnalysis.Resolution.Session

/-!
# From annotations to types

`Session.resolveType` reads an annotation at a node.  A name is looked for among the type parameters
around the node, then the classes and type aliases of the module and of those that it inherits from,
then its imports, and last the base module.  A name that is found nowhere is the unknown type.
-/

namespace PklAnalysis.Session

/-! ## Type parameters -/

/-- The type parameters that a node declares. -/
def typeParamsOf : NodeKind → List TypeParam
  | .class h => h.typeParams
  | .typeAlias h => h.typeParams
  | .method h => h.typeParams
  | _ => []

/-- A type parameter of a node, by its name. -/
def ownTypeParam? (t : Tree) (name : String) (n : Nat) : Option Ty := do
  let kind ← t.kind? n
  let index ← (typeParamsOf kind).findIdx? (·.name = name)
  return .param ⟨siteOf t n, index, name⟩

/-- The type parameter with a name that is declared closest around a node. -/
def typeParam? (t : Tree) (context : Nat) (name : String) : Option Ty :=
  (context :: t.ancestors context).findSome? (ownTypeParam? t name)

/-! ## Declared types -/

/-- Arguments, cut or filled up with the unknown type to a number. -/
def padded (args : List Ty) (arity : Nat) : List Ty :=
  (List.range arity).map fun i => args[i]?.getD .unknown

/-- The class or type alias with a name in a module, applied to arguments. -/
def typeIn? (t : Tree) (name : String) (args : List Ty) : Option Ty := do
  let n ← t.findType? name
  match ← t.kind? n with
  | .class h => some (.class ⟨siteOf t n, name⟩ (padded args h.typeParams.length))
  | .typeAlias h => some (.typeAlias ⟨siteOf t n, name⟩ (padded args h.typeParams.length))
  | _ => none

/-- Whether a node is declared local. -/
def isLocalNode (t : Tree) (n : Nat) : Bool := (t.kind? n).any (·.isLocal)

/-- The class or type alias with a name in a module, as seen from other modules. -/
def exportedTypeIn? (t : Tree) (name : String) (args : List Ty) : Option Ty := do
  let n ← t.findType? name
  if isLocalNode t n then none else typeIn? t name args

/-- The first type with a name that modules show to others. -/
def firstExported? (ts : List Tree) (name : String) (args : List Ty) : Option Ty :=
  ts.findSome? fun t => exportedTypeIn? t name args

/-! ## Names -/

/-- The module that an import binds to a name. -/
def importTarget? (t : Tree) (name : String) : Query (Option Tree) :=
  match t.imports.find? fun (_, i) => !i.isGlob && i.bindingName = name with
  | some (_, i) => resolveModule? t i.uri
  | none => return none

/-- The type of a name with a dot: that of a module that is imported. -/
def qualifiedType? (t : Tree) (binding name : String) (args : List Ty) : Query (Option Ty) := do
  match ← importTarget? t binding with
  | none => return none
  | some m => return firstExported? (m :: (← supermodules m)) name args

/-- The type of a name without a dot. -/
def simpleType? (t : Tree) (name : String) (args : List Ty) : Query (Option Ty) := do
  if let some found := typeIn? t name args then return some found
  if let some found := firstExported? (← supermodules t) name args then return some found
  match ← importTarget? t name with
  | some m => return some (moduleType m)
  | none => return typeIn? BaseModule.tree name args

/-- The type of a name, applied to arguments. -/
def namedType (t : Tree) (name : String) (args : List Ty) : Query Ty := do
  let found ←
    match Text.cut? '.' name with
    | some (binding, rest) => qualifiedType? t binding rest args
    | none => simpleType? t name args
  return found.getD .unknown

mutual

/-- The type of an annotation that is written at a node. -/
def resolveType (t : Tree) (context : Nat) : TypeExpr → Query Ty
  | .unknown => return .unknown
  | .nothing => return .nothing
  | .enclosingModule => return moduleType t
  | .literal text => return .literal text
  | .nullable a => return Ty.orNull BaseModule.types (← resolveType t context a)
  | .union as => return Ty.unionOf BaseModule.types (← resolveTypes t context as)
  | .function ps r => do
    let params ← resolveTypes t context ps
    return .function params (← resolveType t context r)
  | .named name args =>
    match if args.isEmpty then typeParam? t context name else none with
    | some param => return param
    | none => do namedType t name (← resolveTypes t context args)

/-- The types of annotations, from left to right. -/
def resolveTypes (t : Tree) (context : Nat) : List TypeExpr → Query (List Ty)
  | [] => return []
  | a :: as => do
    let first ← resolveType t context a
    return first :: (← resolveTypes t context as)

end

end PklAnalysis.Session
