import PklAnalysis.BaseModule
import PklAnalysis.Lattice.Members
import PklAnalysis.Modules.Store

/-!
# Sessions

A `Session` answers questions about the modules of a store and remembers what it has found out:
the trees that its answers are about, the modules that URIs lead to, and the definitions, ancestors
and members of classes.  `Session.adopt`, with which each question begins, takes over the trees that
are newer in the store; whenever a tree is replaced by another one, all answers are forgotten.
-/

namespace PklAnalysis

structure Session where
  store : Store
  /-- The trees that the answers are about. -/
  trees : Dict ModuleId Tree
  classes : Dict Site (Option ClassDef)
  aliases : Dict Site (Option AliasDef)
  chains : Dict Site AncestorChain
  members : Dict Site MemberCache
  /-- Where URIs lead, by the module in which they are written. -/
  targets : Dict (ModuleId × String) (Except ResolveError ModuleId)

/-- A question to a session, which may remember more after it. -/
abbrev Query := StateM Session

namespace Session

/-- A session without answers. -/
def new (store : Store) : Session where
  store := store
  trees := Dict.empty
  classes := Dict.empty
  aliases := Dict.empty
  chains := Dict.empty
  members := Dict.empty
  targets := Dict.empty

/-- Forgets all answers, but not the trees. -/
def invalidate (s : Session) : Session := { new s.store with trees := s.trees }

/-- Takes the tree of a module over. -/
def setTree (s : Session) (t : Tree) : Session := { s with trees := s.trees.insert t.id t }

/-- Takes another tree of a module over. -/
def updateModule (s : Session) (t : Tree) : Session := (s.setTree t).invalidate

/-- An action on the store of a session. -/
def onStore {α : Type} (act : StateM Store α) : Query α := fun s =>
  let (a, store) := act.run s.store
  (a, { s with store })

/-- A number that no chain of different classes or modules exceeds: the number of nodes there are,
under all the identities that modules can have. -/
def capacity (s : Session) : Nat :=
  let nodes (ts : List Tree) : Nat := ts.foldl (fun n t => n + t.size) 0
  let loadable := (s.store.loader.map (·.capacity)).getD 0
  let n := nodes s.store.trees.values + nodes s.trees.values + BaseModule.tree.size + loadable
  n * (n + s.store.config.sourceRoots.length + 4)

/-! ## Trees -/

/-- The trees of the store that are newer than those taken over, one module left out. -/
def newerTrees (s : Session) (except : ModuleId) : List Tree :=
  s.trees.entries.filterMap fun (id, own) =>
    if id = except then none
    else (s.store.tree? id).filter fun stored => own.version < stored.version

/-- Whether a tree given with a question replaces what the session knows of its module. -/
inductive Arrival where
  | known
  /-- The module is new, and the tree is that of the store. -/
  | first
  | replaces
  deriving DecidableEq, Repr

def arrival (s : Session) (t : Tree) : Arrival :=
  match s.trees.get? t.id, s.store.tree? t.id with
  | some own, _ =>
    if t.version ≤ own.version || t.id = BaseModule.id then .known else .replaces
  | none, some stored =>
    if stored.version = t.version then .first
    else if t.id = BaseModule.id then .known
    else .replaces
  | none, none => if t.id = BaseModule.id then .known else .replaces

/-- Makes a tree the one that the session knows of its module, unless it knows a newer one, and
takes over what is newer in the store. -/
def adopt (t : Tree) : Query Unit := modify fun s =>
  let newer := s.newerTrees t.id
  match s.arrival t with
  | .known => if newer.isEmpty then s else (newer.foldl setTree s).invalidate
  | .first =>
    let s := s.setTree t
    if newer.isEmpty then s else (newer.foldl setTree s).invalidate
  | .replaces => ((newer ++ [t]).foldl setTree s).invalidate

/-- The tree of a module that the answers are about; that of the store becomes it if there is
none. -/
def tree? (id : ModuleId) : Query (Option Tree) := do
  if id = BaseModule.id then return some BaseModule.tree
  let s ← get
  match s.trees.get? id with
  | some own => return some own
  | none =>
    match s.store.tree? id with
    | none => return none
    | some stored =>
      set (s.setTree stored)
      return some stored

/-! ## Modules -/

/-- The module that a URI leads to in another module. -/
def resolveModule (importer : Tree) (uri : String) : Query (Except ResolveError Tree) := do
  if uri = BaseModule.uri then return .ok BaseModule.tree
  let key := (importer.id, uri)
  match (← get).targets.get? key with
  | some (.error e) => return .error e
  | some (.ok id) =>
    match ← tree? id with
    | some t => return .ok t
    | none => return .error (.notFound uri importer.id)
  | none =>
    let result ← onStore (Store.resolve uri importer.id)
    modify fun s =>
      { s with
        trees := match result with
          | .ok t => s.trees.insertNew t.id t
          | .error _ => s.trees
        targets := s.targets.insertNew key (result.map (·.id)) }
    return result

/-- The module that a URI leads to, if there is one. -/
def resolveModule? (importer : Tree) (uri : String) : Query (Option Tree) := do
  return (← resolveModule importer uri).toOption

/-- The module that a module amends or extends. -/
def supermodule? (t : Tree) : Query (Option Tree) :=
  match t.clause? with
  | none => return none
  | some (_, _, uri) => resolveModule? t uri

/-- The modules that a module inherits from, at most so many; `seen` holds those already met. -/
def supermodulesFrom : Nat → List ModuleId → Option Tree → Query (List Tree)
  | _, _, none => return []
  | n, seen, some t =>
    if seen.contains t.id then return []
    else
      match n with
      | 0 => return []
      | n + 1 => do
        let rest ← supermodulesFrom n (t.id :: seen) (← supermodule? t)
        return t :: rest

/-- The modules that a module inherits from, nearest first. -/
def supermodules (t : Tree) : Query (List Tree) := do
  let first ← supermodule? t
  supermodulesFrom ((← get).capacity + 1) [t.id] first

/-! ## Modules as classes -/

/-- The declared name of a module, or the last segment of its identity without extension. -/
def moduleName (t : Tree) : String :=
  match t.moduleName? with
  | some name => name
  | none =>
    let text := t.id.text
    let path := (Text.pieces (· = '#') text).getLast?.getD text
    let segments := Text.pieces (fun c => c = '/' || c = ':') path
    Text.withoutEnding ".pkl" ((segments.reverse.find? (· ≠ "")).getD path)

/-- The place of a node. -/
def siteOf (t : Tree) (n : Nat) : Site := ⟨t.id, n⟩

/-- A module, seen as a class. -/
def moduleDecl (t : Tree) : DeclRef := ⟨siteOf t Tree.root, moduleName t⟩

def moduleType (t : Tree) : Ty := .class (moduleDecl t) []

/-- The class, type alias or module that a node declares. -/
def declOf? (t : Tree) (n : Nat) : Option DeclRef :=
  match t.kind? n with
  | some (.class h) => some ⟨siteOf t n, h.name⟩
  | some (.typeAlias h) => some ⟨siteOf t n, h.name⟩
  | some (.module ..) => some (moduleDecl t)
  | _ => none

/-- The class or module in which the member at a node is declared. -/
def ownerOf? (t : Tree) (n : Nat) : Option DeclRef := do
  let p ← t.parent? n
  match t.kind? p with
  | some (.class _) | some (.module ..) => declOf? t p
  | _ => none

end Session

end PklAnalysis
