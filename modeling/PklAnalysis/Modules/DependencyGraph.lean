import PklAnalysis.Modules.Store

/-!
# Dependency graphs

A `DependencyGraph` numbers modules in the order in which they are added and joins them by
references.  `DependencyGraph.topologicalOrder?` lists dependencies before their dependents, in the
order in which a depth-first search finishes with them, and `DependencyGraph.cycles` groups the
modules that depend on each other.
-/

namespace PklAnalysis

/-- How a module refers to another one. -/
inductive DependencyKind where
  | amends
  | extends
  | import
  deriving DecidableEq, Repr

namespace DependencyKind

def text : DependencyKind → String
  | .amends => "amends"
  | .extends => "extends"
  | .import => "import"

def ofClause : ClauseKind → DependencyKind
  | .amends => .amends
  | .extends => .extends

/-- Whether the referring module inherits from the other one. -/
def isInheritance : DependencyKind → Bool
  | .amends | .extends => true
  | .import => false

end DependencyKind

/-- A reference between modules, given by their numbers. -/
structure DependencyEdge where
  source : Nat
  target : Nat
  kind : DependencyKind
  deriving DecidableEq, Repr

/-- A reference that leads nowhere. -/
structure BrokenReference where
  source : ModuleId
  uri : String
  kind : DependencyKind
  error : ResolveError
  deriving DecidableEq, Repr

structure DependencyGraph where
  /-- The modules by their numbers. -/
  modules : List ModuleId
  /-- The references, oldest first. -/
  edges : List DependencyEdge
  broken : List BrokenReference
  deriving Inhabited

namespace DependencyGraph

def empty : DependencyGraph := ⟨[], [], []⟩

def contains (g : DependencyGraph) (id : ModuleId) : Bool := g.modules.contains id

/-- The number of a module. -/
def number? (g : DependencyGraph) (id : ModuleId) : Option Nat := g.modules.findIdx? (· = id)

/-- The graph with a module in it. -/
def addModule (g : DependencyGraph) (id : ModuleId) : DependencyGraph :=
  if g.contains id then g else { g with modules := g.modules ++ [id] }

/-- The graph with a reference between two of its modules; references from or to other modules are
left out. -/
def addDependency (g : DependencyGraph) (source target : ModuleId) (kind : DependencyKind) :
    DependencyGraph :=
  match g.number? source, g.number? target with
  | some m, some n => { g with edges := g.edges ++ [⟨m, n, kind⟩] }
  | _, _ => g

/-! ## Following references -/

/-- The references of a module: that of its clause, then those of its imports. -/
def references (t : Tree) : List (String × DependencyKind) :=
  (t.clause?.toList.map fun (_, kind, uri) => (uri, .ofClause kind))
    ++ (t.imports.filter fun (_, i) => !i.isGlob).map fun (_, i) => (i.uri, .import)

/-- A reference of a module followed and entered. -/
def addReference (id : ModuleId) (g : DependencyGraph) (reference : String × DependencyKind) :
    StateM Store DependencyGraph := do
  let (uri, kind) := reference
  match ← Store.resolve uri id with
  | .ok t => return (g.addModule t.id).addDependency id t.id kind
  | .error e => return { g with broken := g.broken ++ [⟨id, uri, kind, e⟩] }

/-- A module entered with its references, unless it is in the graph already. -/
def addRoot (g : DependencyGraph) (id : ModuleId) : StateM Store DependencyGraph := do
  if g.contains id then return g
  let g := g.addModule id
  match (← get).tree? id with
  | none => return g
  | some t => (references t).foldlM (addReference id) g

/-- The graph of some modules and the modules that they refer to, the last module first. -/
def build (roots : List ModuleId) : StateM Store DependencyGraph :=
  roots.reverse.foldlM addRoot empty

/-! ## Order -/

/-- The targets of the references of a module, oldest first. -/
def successors (edges : List DependencyEdge) (n : Nat) : List Nat :=
  (edges.filter fun e => e.source = n).map (·.target)

/-- How far a depth-first search has come. -/
structure Search where
  discovered : List Nat
  /-- The nodes that the search is done with, the latest first. -/
  finished : List Nat

/-- The search continued at a node, at most so deep: unless it was discovered before, first all its
successors are searched, then the node is finished. -/
def Search.visit (next : Nat → List Nat) : Nat → Search → Nat → Search
  | 0, s, _ => s
  | depth + 1, s, n =>
    if s.discovered.contains n then s
    else
      let s := (next n).foldl (Search.visit next depth) { s with discovered := n :: s.discovered }
      { s with finished := n :: s.finished }

/-- A depth-first search from some nodes among so many, one after the other. -/
def searchFrom (count : Nat) (next : Nat → List Nat) (starts : List Nat) : Search :=
  starts.foldl (Search.visit next count) ⟨[], []⟩

/-- All modules in the order in which a depth-first search finishes with them. -/
def finishingOrder (g : DependencyGraph) : List Nat :=
  let count := g.modules.length
  (searchFrom count (successors g.edges) (List.range count)).finished.reverse

/-- Whether the target of a reference stands before its source. -/
def respects (order : List Nat) (e : DependencyEdge) : Bool :=
  order.idxOf e.target < order.idxOf e.source

/-- The modules with the given numbers. -/
def named (g : DependencyGraph) (ns : List Nat) : List ModuleId := ns.filterMap (g.modules[·]?)

/-- All modules, dependencies before dependents; none if there is no such order. -/
def topologicalOrder? (g : DependencyGraph) : Option (List ModuleId) :=
  let order := g.finishingOrder
  if g.edges.all (respects order) then some (g.named order) else none

/-! ## Cycles -/

/-- The order of identities. -/
def compareIds (a b : ModuleId) : Ordering := compareOfLessAndEq a.text b.text

/-- The order of lists of identities. -/
def compareGroups : List ModuleId → List ModuleId → Ordering
  | [], [] => .eq
  | [], _ :: _ => .lt
  | _ :: _, [] => .gt
  | a :: as, b :: bs => (compareIds a b).then (compareGroups as bs)

def sortIds (ids : List ModuleId) : List ModuleId :=
  ids.mergeSort fun a b => (compareIds a b).isLE

/-- What each of so many nodes reaches, itself included. -/
def reachable (count : Nat) (edges : List DependencyEdge) : Array (List Nat) :=
  let next := (List.range count).toArray.map (successors edges)
  (List.range count).toArray.map fun n => (searchFrom count (next.getD · []) [n]).discovered

@[simp] theorem size_reachable (count : Nat) (edges : List DependencyEdge) :
    (reachable count edges).size = count := by
  simp [reachable]

/-- The nodes that reach a node and are reached from it. -/
def component (reach : Array (List Nat)) (n : Nat) : List Nat :=
  let own := reach.getD n []
  (List.range reach.size).filter fun m => own.contains m && (reach.getD m []).contains n

/-- Whether a group of nodes that reach each other is more than a single node by itself. -/
def isCyclic (edges : List DependencyEdge) : List Nat → Bool
  | [] => false
  | [n] => edges.any fun e => e.source = n && e.target = n
  | _ => true

/-- The groups of modules that reach each other by references of some kinds. -/
def cyclesBy (keep : DependencyKind → Bool) (g : DependencyGraph) : List (List ModuleId) :=
  let edges := g.edges.filter fun e => keep e.kind
  let reach := reachable g.modules.length edges
  let groups := (List.range g.modules.length).filterMap fun n =>
    -- a group is taken up at its first node
    let group := component reach n
    if group.head? = some n && isCyclic edges group then some group else none
  (groups.map fun group => sortIds (g.named group)).mergeSort fun a b =>
    (compareGroups a b).isLE

/-- The groups of modules that depend on each other, and modules that depend on themselves. -/
def cycles : DependencyGraph → List (List ModuleId) := cyclesBy fun _ => true

/-- The cycles of clauses alone. -/
def inheritanceCycles : DependencyGraph → List (List ModuleId) :=
  cyclesBy DependencyKind.isInheritance

/-! ## Neighbours -/

/-- The modules with the given numbers, sorted, each once. -/
def sortedModules (g : DependencyGraph) (ns : List Nat) : List ModuleId :=
  (sortIds (g.named ns)).eraseDups

/-- The modules to which a module refers. -/
def dependencies (g : DependencyGraph) (id : ModuleId) : List ModuleId :=
  match g.number? id with
  | some n => g.sortedModules (successors g.edges n)
  | none => []

/-- The modules that refer to a module. -/
def dependents (g : DependencyGraph) (id : ModuleId) : List ModuleId :=
  match g.number? id with
  | some n => g.sortedModules ((g.edges.filter fun e => e.target = n).map (·.source))
  | none => []

end DependencyGraph

end PklAnalysis
