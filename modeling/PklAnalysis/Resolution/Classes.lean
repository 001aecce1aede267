import PklAnalysis.Lattice.Subtyping
import PklAnalysis.Resolution.TypeNames

/-!
# Classes and type aliases of modules

What the declarations of modules are: a module counts as a class whose superclass is the module that
it amends or extends.  A class without a superclass of its own extends `Typed`, a module `Module`,
and a module whose clause leads nowhere has the unknown type for its superclass.
-/

namespace PklAnalysis.Session

/-- The answer that is remembered for a place, or a new one, which is remembered. -/
def remembered {α : Type} (site : Site) (table : Session → Dict Site α)
    (store : Session → Dict Site α → Session) (compute : Query α) : Query α := do
  match (table (← get)).get? site with
  | some answer => return answer
  | none =>
    let answer ← compute
    modify fun s => store s ((table s).insertNew site answer)
    return answer

/-! ## Definitions -/

/-- The properties and methods among the children of a node. -/
def membersOf (t : Tree) (n : Nat) (owner : DeclRef) : List MemberDef :=
  (t.children n).filterMap fun c =>
    match t.kind? c with
    | some (.property h) =>
      some ⟨h.name, .property, siteOf t c, owner, h.modifiers.isAbstract, h.modifiers.isLocal⟩
    | some (.method h) =>
      some ⟨h.name, .method, siteOf t c, owner, h.modifiers.isAbstract, h.modifiers.isLocal⟩
    | _ => none

/-- The superclass of a class. -/
def superclassOf (t : Tree) (n : Nat) (h : ClassHeader) : Query (Option Ty) :=
  match h.superclass with
  | some a => some <$> resolveType t n a
  | none =>
    if t.id = BaseModule.id then
      return if h.name = "Any" then none else some BaseModule.types.anyType
    else return some (BaseTypes.plain BaseModule.types.typed)

/-- The superclass of a module. -/
def moduleSuperclass (t : Tree) : Query Ty :=
  match t.clause? with
  | none => return BaseTypes.plain BaseModule.types.module
  | some (_, _, uri) => do
    match ← resolveModule? t uri with
    | some parent => return moduleType parent
    | none => return .unknown

/-- The definition of what a node declares as a class. -/
def classAt? (t : Tree) (d : DeclRef) : Query (Option ClassDef) :=
  match t.kind? d.site.node with
  | some (.class h) => do
    let superclass ← superclassOf t d.site.node h
    return some {
      decl := d
      typeParams := h.typeParams
      superclass := superclass
      isAbstract := h.modifiers.isAbstract
      isOpen := h.modifiers.isOpen || h.modifiers.isAbstract
      isModule := false
      members := membersOf t d.site.node d }
  | some (.module _ isOpen) => do
    let superclass ← moduleSuperclass t
    return some {
      decl := d
      typeParams := []
      superclass := some superclass
      isAbstract := false
      isOpen := isOpen
      isModule := true
      members := membersOf t d.site.node d }
  | _ => return none

/-- The definition of what a node declares as a type alias. -/
def aliasAt? (t : Tree) (d : DeclRef) : Query (Option AliasDef) :=
  match t.kind? d.site.node with
  | some (.typeAlias h) => return some ⟨d, h.typeParams, ← resolveType t d.site.node h.target⟩
  | _ => return none

/-- The definition of a class. -/
def classDef (d : DeclRef) : Query (Option ClassDef) :=
  remembered d.site (·.classes) (fun s classes => { s with classes }) do
    match ← tree? d.site.module with
    | some t => classAt? t d
    | none => return none

/-- The definition of a type alias. -/
def aliasDef (d : DeclRef) : Query (Option AliasDef) :=
  remembered d.site (·.aliases) (fun s aliases => { s with aliases }) do
    match ← tree? d.site.module with
    | some t => aliasAt? t d
    | none => return none

/-- The classes and type aliases of all modules. -/
def env : TypeEnv Query where
  classDef := classDef
  aliasDef := aliasDef
  base := BaseModule.types
  classCount := return (← get).capacity

/-! ## Ancestors and members -/

/-- The ancestors of a class. -/
def ancestors (d : DeclRef) : Query AncestorChain :=
  remembered d.site (·.chains) (fun s chains => { s with chains }) (env.ancestors d)

/-- The members of a class, inherited ones included. -/
def membersOfClass (d : DeclRef) : Query MemberCache :=
  remembered d.site (·.members) (fun s members => { s with members }) do
    return MemberCache.build (← ancestors d).classes

/-- A member of a class by its name. -/
def memberOfClass? (d : DeclRef) (name : String) (kind : MemberKind) : Query (Option MemberDef) :=
  return ((← membersOfClass d).lookup name kind).map (·.member)

/-- Whether the ancestors of a class cannot all be known: the chain leads back into itself or ends
in the unknown type. -/
def hasUnknownAncestor (d : DeclRef) : Query Bool := do
  let chain ← ancestors d
  return chain.isCyclic || (chain.classes.getLast?.bind (·.superclass)) = some .unknown

end PklAnalysis.Session
