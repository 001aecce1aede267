import PklAnalysis.Source.Basic
import PklAnalysis.Tree.Outline

/-!
# The syntax tree of a description

`Source.Module.tree` gives each declaration, parameter, expression, object body and object member
of a description a node, with the children that the layout of `Tree` prescribes.  A property has
its value as its child, or its body if it has no value.
-/

namespace PklAnalysis.Source

/-- Parameters. -/
def parameterOutlines (ps : List Binding) : List Outline :=
  ps.map fun p => .leaf (.parameter p)

mutual

def exprOutline : Expr → Outline
  | .string value => .leaf (.literal (.string value))
  | .int value => .leaf (.literal (.int value))
  | .float value => .leaf (.literal (.float value))
  | .boolean value => .leaf (.literal (.boolean value))
  | .null => .leaf (.literal .null)
  | .ident name => .leaf (.ident name)
  | .access receiver name nullSafe => .node (.access name nullSafe) none [exprOutline receiver]
  | .call receiver name args =>
    .node (.call name receiver.isSome) none (receiverOutline receiver ++ exprOutlines args)
  | .this => .leaf .this
  | .module => .leaf .moduleRef
  | .letIn name type value body =>
    .node (.letIn ⟨name, type⟩) none [exprOutline value, exprOutline body]
  | .lambda params body => .node .lambda none (parameterOutlines params ++ [exprOutline body])
  | .new type body => .node (.new type) none [.node .objectBody none (memberOutlines body)]
  | .amend parent body =>
    .node .amend none [exprOutline parent, .node .objectBody none (memberOutlines body)]
  | .conditional condition consequent alternative =>
    .node .conditional none
      [exprOutline condition, exprOutline consequent, exprOutline alternative]
  | .importExpr uri isGlob => .leaf (.importExpr ⟨uri, none, isGlob⟩)

/-- An expression that may be absent. -/
def receiverOutline : Option Expr → List Outline
  | none => []
  | some e => [exprOutline e]

def exprOutlines : List Expr → List Outline
  | [] => []
  | e :: es => exprOutline e :: exprOutlines es

def memberOutline : Member → Outline
  | .property name type value body =>
    .node (.objectProperty ⟨name, type⟩) none
      (match value with
        | some e => [exprOutline e]
        | none => bodyOutline body)
  | .element value => .node .objectElement none [exprOutline value]
  | .entry key value => .node .objectEntry none [exprOutline key, exprOutline value]
  | .generator key value iterable body =>
    .node (.generator (key.map fun k => ⟨k, none⟩) ⟨value, none⟩) none
      [exprOutline iterable, .node .objectBody none (memberOutlines body)]
  | .when condition body otherwise =>
    .node .when none
      (exprOutline condition :: .node .objectBody none (memberOutlines body)
        :: bodyOutline otherwise)

/-- An object body that may be absent. -/
def bodyOutline : Option (List Member) → List Outline
  | none => []
  | some ms => [.node .objectBody none (memberOutlines ms)]

def memberOutlines : List Member → List Outline
  | [] => []
  | m :: ms => memberOutline m :: memberOutlines ms

end

def importOutline (i : Import) : Outline := .node (.importClause i.clause) i.span []

def propertyOutline (p : Property) : Outline :=
  .node (.property ⟨p.name, p.type, modifiersOf p.modifiers⟩) p.span
    (match p.value with
      | some e => [exprOutline e]
      | none => bodyOutline p.body)

def methodOutline (m : Method) : Outline :=
  .node (.method ⟨m.name, m.typeParams, m.returns, modifiersOf m.modifiers, m.body.isSome⟩) m.span
    (parameterOutlines m.params ++ receiverOutline m.body)

def classOutline (c : Class) : Outline :=
  .node (.class ⟨c.name, c.typeParams, c.superclass, modifiersOf c.modifiers⟩) c.span
    (c.properties.map propertyOutline ++ c.methods.map methodOutline)

def aliasOutline (a : Alias) : Outline :=
  .node (.typeAlias ⟨a.name, a.typeParams, a.target, modifiersOf a.modifiers⟩) a.span []

/-- The clause of a module; a description with two clauses amends. -/
def clauseOutline (m : Module) : List Outline :=
  match m.amends, m.superModule with
  | some uri, _ => [.leaf (.clause .amends uri)]
  | none, some uri => [.leaf (.clause .extends uri)]
  | none, none => []

def Module.outline (m : Module) : Outline :=
  .node (.module m.name m.isOpen) none
    (clauseOutline m ++ m.imports.map importOutline ++ m.classes.map classOutline
      ++ m.aliases.map aliasOutline ++ m.properties.map propertyOutline
      ++ m.methods.map methodOutline)

/-- The tree of a description under an identity. -/
def Module.treeAs (m : Module) (id : ModuleId) (version : Nat) : Tree :=
  m.outline.tree id version

/-- The tree of a description under its own URI. -/
def Module.tree (m : Module) (version : Nat) : Tree := m.treeAs ⟨m.uri⟩ version

end PklAnalysis.Source
