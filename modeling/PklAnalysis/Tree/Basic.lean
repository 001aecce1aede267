import PklAnalysis.Binary64.Basic
import PklAnalysis.Declaration
import PklAnalysis.Span

/-!
# Syntax trees

A syntax tree is the array of its nodes in pre-order.  What a node is stands in its kind; its
sub-nodes are its children, in the order given by the kind:

* module: a clause if any, imports, classes, type aliases, properties, methods;
* class: properties, methods;
* property and object property: a value or an object body if any;
* method: parameters, a body if any;
* access: the receiver; call: the receiver if any, the arguments;
* let: the value, the body; lambda: parameters, the body; if: condition, consequent, alternative;
* new: an object body; amend: the parent, an object body;
* object element: the value; object entry: the key, the value;
* for: the iterable, an object body; when: the condition, one or two object bodies.

All other kinds have no children.
-/

namespace PklAnalysis

inductive Literal where
  | string (value : String)
  | int (value : Int)
  | float (value : Binary64)
  | boolean (value : Bool)
  | null
  deriving DecidableEq, Inhabited

inductive ClauseKind where
  | amends
  | extends
  deriving DecidableEq, Repr

def ClauseKind.text : ClauseKind → String
  | .amends => "amends"
  | .extends => "extends"

structure ClassHeader where
  name : String
  typeParams : List TypeParam
  superclass : Option TypeExpr
  modifiers : Modifiers
  deriving DecidableEq

structure AliasHeader where
  name : String
  typeParams : List TypeParam
  target : TypeExpr
  modifiers : Modifiers
  deriving DecidableEq

structure PropertyHeader where
  name : String
  type : Option TypeExpr
  modifiers : Modifiers
  deriving DecidableEq

structure MethodHeader where
  name : String
  typeParams : List TypeParam
  returns : Option TypeExpr
  modifiers : Modifiers
  hasBody : Bool
  deriving DecidableEq

/-- What a node is. -/
inductive NodeKind where
  | module (name : Option String) (isOpen : Bool)
  | clause (kind : ClauseKind) (uri : String)
  | importClause (clause : Import)
  | class (header : ClassHeader)
  | typeAlias (header : AliasHeader)
  | property (header : PropertyHeader)
  | method (header : MethodHeader)
  | parameter (binding : Binding)
  | literal (value : Literal)
  | ident (name : String)
  | access (name : String) (nullSafe : Bool)
  | call (name : String) (hasReceiver : Bool)
  | this
  | moduleRef
  | letIn (binding : Binding)
  | lambda
  | new (type : Option TypeExpr)
  | amend
  | conditional
  | importExpr (clause : Import)
  | objectBody
  | objectProperty (binding : Binding)
  | objectElement
  | objectEntry
  | generator (key : Option Binding) (value : Binding)
  | when
  deriving DecidableEq, Inhabited

namespace NodeKind

/-- The name that a declaration introduces. -/
def declaredName? : NodeKind → Option String
  | .module name _ => name
  | .class h => some h.name
  | .typeAlias h => some h.name
  | .property h => some h.name
  | .method h => some h.name
  | .parameter b | .letIn b | .objectProperty b => some b.name
  | _ => none

def modifiers? : NodeKind → Option Modifiers
  | .class h => some h.modifiers
  | .typeAlias h => some h.modifiers
  | .property h => some h.modifiers
  | .method h => some h.modifiers
  | _ => none

def isLocal (k : NodeKind) : Bool := k.modifiers?.any (·.isLocal)

def isExpression : NodeKind → Bool
  | .literal _ | .ident _ | .access .. | .call .. | .this | .moduleRef | .letIn _ | .lambda
  | .new _ | .amend | .conditional | .importExpr _ => true
  | _ => false

/-- Whether a node declares a class, type alias, property or method. -/
def isDeclaration : NodeKind → Bool
  | .class _ | .typeAlias _ | .property _ | .method _ => true
  | _ => false

/-- The word for a kind; literals are told apart by their values. -/
def text : NodeKind → String
  | .module .. => "module"
  | .clause .. => "module_clause"
  | .importClause _ => "import"
  | .class _ => "class"
  | .typeAlias _ => "typealias"
  | .property _ => "property"
  | .method _ => "method"
  | .parameter _ => "parameter"
  | .literal (.string _) => "string"
  | .literal (.int _) => "int"
  | .literal (.float _) => "float"
  | .literal (.boolean _) => "boolean"
  | .literal .null => "null"
  | .ident _ => "ident"
  | .access .. => "access"
  | .call .. => "call"
  | .this => "this"
  | .moduleRef => "module_ref"
  | .letIn _ => "let"
  | .lambda => "lambda"
  | .new _ => "new"
  | .amend => "amend"
  | .conditional => "if"
  | .importExpr _ => "import_expr"
  | .objectBody => "object_body"
  | .objectProperty _ => "object_property"
  | .objectElement => "object_element"
  | .objectEntry => "object_entry"
  | .generator .. => "for"
  | .when => "when"

end NodeKind

structure Node where
  kind : NodeKind
  parent : Option Nat
  children : List Nat
  span : Span
  deriving DecidableEq, Inhabited

/-- The syntax tree of one version of a module. -/
structure Tree where
  id : ModuleId
  version : Nat
  nodes : Array Node
  deriving DecidableEq, Inhabited

namespace Tree

/-- The index of the module's own node. -/
def root : Nat := 0

/-- The number of nodes. -/
def size (t : Tree) : Nat := t.nodes.size

def node? (t : Tree) (n : Nat) : Option Node := t.nodes[n]?

def kind? (t : Tree) (n : Nat) : Option NodeKind := (t.node? n).map (·.kind)

/-- The children of a node in order; none for an index that is no node. -/
def children (t : Tree) (n : Nat) : List Nat :=
  match t.node? n with
  | some node => node.children
  | none => []

def child? (t : Tree) (n i : Nat) : Option Nat := (t.children n)[i]?

/-- The span of a node; empty for an index that is no node. -/
def span (t : Tree) (n : Nat) : Span :=
  match t.node? n with
  | some node => node.span
  | none => ⟨0, 0⟩

/-- The parent of a node, which in pre-order stands before it. -/
def parent? (t : Tree) (n : Nat) : Option (Fin n) := do
  let p ← (← t.node? n).parent
  if h : p < n then some ⟨p, h⟩ else none

/-- The ancestors of a node, innermost first, without the node itself. -/
def ancestors (t : Tree) (n : Nat) : List Nat :=
  match t.parent? n with
  | some p => p.val :: ancestors t p.val
  | none => []
termination_by n
decreasing_by exact p.isLt

/-- The first child of a node that is an expression. -/
def value? (t : Tree) (n : Nat) : Option Nat :=
  (t.children n).find? fun c => (t.kind? c).any (·.isExpression)

/-- All node indices, in order. -/
def indices (t : Tree) : List Nat := List.range t.size

/-- The first nodes of a subtree in pre-order, down to a depth. -/
def descendantsWithin (t : Tree) : Nat → Nat → List Nat
  | 0, _ => []
  | d + 1, n => n :: (t.children n).flatMap (descendantsWithin t d)

/-- A node and all below it, in pre-order. -/
def descendants (t : Tree) (n : Nat) : List Nat := t.descendantsWithin t.size n

/-! ## The module node and its children -/

/-- The name in the module's header. -/
def moduleName? (t : Tree) : Option String :=
  match t.kind? root with
  | some (.module name _) => name
  | _ => none

/-- The clause by which the module amends or extends another one, with its node. -/
def clause? (t : Tree) : Option (Nat × ClauseKind × String) :=
  (t.children root).findSome? fun n =>
    match t.kind? n with
    | some (.clause kind uri) => some (n, kind, uri)
    | _ => none

/-- The import clauses with their nodes. -/
def imports (t : Tree) : List (Nat × Import) :=
  (t.children root).filterMap fun n =>
    match t.kind? n with
    | some (.importClause i) => some (n, i)
    | _ => none

/-- The top-level classes, type aliases, properties and methods. -/
def declarations (t : Tree) : List Nat :=
  (t.children root).filter fun n => (t.kind? n).any (·.isDeclaration)

/-- The top-level class or type alias with a name. -/
def findType? (t : Tree) (name : String) : Option Nat :=
  t.declarations.find? fun n =>
    match t.kind? n with
    | some (.class h) => h.name = name
    | some (.typeAlias h) => h.name = name
    | _ => false

/-- The first property or method with a name among the children of a node. -/
def findMemberOf? (t : Tree) (owner : Nat) (name : String) : Option Nat :=
  (t.children owner).find? fun n =>
    match t.kind? n with
    | some (.property h) => h.name = name
    | some (.method h) => h.name = name
    | _ => false

/-- The property or method with a path: `name` at top level, `Class.name` in a class. -/
def findMember? (t : Tree) (path : String) : Option Nat :=
  match Text.cut? '.' path with
  | some (owner, name) => (t.findType? owner).bind fun n => t.findMemberOf? n name
  | none => t.findMemberOf? root path

/-- From a node down to the first children that contain an offset, at most so many levels. -/
def innermostWithin (t : Tree) (offset : Nat) : Nat → Nat → Nat
  | 0, n => n
  | d + 1, n =>
    match (t.children n).find? fun c => (t.span c).contains offset with
    | some c => innermostWithin t offset d c
    | none => n

/-- The innermost node whose span contains an offset. -/
def nodeAt? (t : Tree) (offset : Nat) : Option Nat :=
  if !(t.span root).contains offset && !(t.span root).isEmpty then none
  else some (t.innermostWithin offset t.size root)

end Tree

end PklAnalysis
