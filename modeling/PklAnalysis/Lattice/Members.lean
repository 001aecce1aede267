import PklAnalysis.Lattice.Env

/-!
# Ancestors and members

Every class has at most one superclass, so its ancestors form a chain, the class itself first.
`MemberCache.build` collects the members along such a chain: the first declaration of a name wins,
local members count only in the class that the chain starts with, and a member that is not
abstract remembers the abstract one that it implements.
-/

namespace PklAnalysis

/-- A class and its ancestors, most derived first. -/
structure AncestorChain where
  classes : List ClassDef
  /-- Whether the chain leads back to one of its classes. -/
  isCyclic : Bool
  deriving DecidableEq, Inhabited

namespace AncestorChain

def contains (c : AncestorChain) (site : Site) : Bool := c.classes.any (·.decl.site = site)

end AncestorChain

namespace TypeEnv

variable {m : Type → Type} [Monad m] (env : TypeEnv m)

/-- The chain from a definition on, at most so long; `seen` holds the classes already met. -/
def chainFrom : Nat → List Site → Option ClassDef → m AncestorChain
  | _, _, none => pure ⟨[], false⟩
  | n, seen, some c =>
    if seen.contains c.decl.site then pure ⟨[], true⟩
    else
      match n with
      | 0 => pure ⟨[], false⟩
      | n + 1 => do
        let next ←
          match c.superclass with
          | none => pure none
          | some s =>
            match ← env.expand s with
            | .class d _ => env.classDef d
            | _ => pure none
        let rest ← chainFrom n (c.decl.site :: seen) next
        pure ⟨c :: rest.classes, rest.isCyclic⟩

/-- The ancestors of a class. -/
def ancestors (d : DeclRef) : m AncestorChain := do
  let c ← env.classDef d
  env.chainFrom ((← env.classCount) + 1) [] c

end TypeEnv

/-- A member, with the abstract declaration that it implements. -/
structure CachedMember where
  member : MemberDef
  implements : Option MemberDef
  deriving DecidableEq, Inhabited

/-- The members of a class, inherited ones included, in the order in which their names are first
met. -/
structure MemberCache where
  properties : List CachedMember
  methods : List CachedMember
  deriving DecidableEq, Inhabited

namespace MemberCache

/-- A declaration met after those already collected. -/
def note (table : List CachedMember) (d : MemberDef) : List CachedMember :=
  if table.any (·.member.name = d.name) then
    table.map fun e =>
      if e.member.name = d.name && !e.member.isAbstract && d.isAbstract && e.implements.isNone then
        { e with implements := some d }
      else e
  else table ++ [⟨d, none⟩]

/-- A declaration entered into the table of its kind. -/
def add (cache : MemberCache) (d : MemberDef) : MemberCache :=
  match d.kind with
  | .property => { cache with properties := note cache.properties d }
  | .method => { cache with methods := note cache.methods d }

/-- The members that a chain of classes shows, class by class: local ones only of the first. -/
def visible : List ClassDef → List MemberDef
  | [] => []
  | c :: rest => c.members ++ rest.flatMap fun a => a.members.filter fun d => !d.isLocal

/-- The members of a chain of classes, most derived first. -/
def build (classes : List ClassDef) : MemberCache := (visible classes).foldl add ⟨[], []⟩

def table (cache : MemberCache) : MemberKind → List CachedMember
  | .property => cache.properties
  | .method => cache.methods

def lookup (cache : MemberCache) (name : String) (kind : MemberKind) : Option CachedMember :=
  (cache.table kind).find? (·.member.name = name)

/-- The names with their kinds, properties first. -/
def names (cache : MemberCache) : List (String × MemberKind) :=
  cache.properties.map (fun e => (e.member.name, .property))
    ++ cache.methods.map fun e => (e.member.name, .method)

def size (cache : MemberCache) : Nat := cache.properties.length + cache.methods.length

def isEmpty (cache : MemberCache) : Bool := cache.properties.isEmpty && cache.methods.isEmpty

end MemberCache

end PklAnalysis
