import Mathlib.Computability.Language
import PklAnalysis.Proofs.Source.PreOrder

/-!
# The layout of children

The kind of a node says which kinds its children have, how many they are and in what order they
stand.  The layout of a kind is the language of the words that the kinds of its children can form,
and the children of every node of the tree of a description form a word of its layout.
-/

namespace PklAnalysis

open Computability

def NodeKind.isObjectMember : NodeKind → Bool
  | .objectProperty _ | .objectElement | .objectEntry | .generator .. | .when => true
  | _ => false

namespace Layout

/-- Words of a single kind that passes a test. -/
def one (test : NodeKind → Prop) : Language NodeKind := {ks | ∃ k, ks = [k] ∧ test k}

/-- A single node of the kind with a word. -/
def named (word : String) : Language NodeKind := one fun k => k.text = word

/-- A single expression. -/
def expression : Language NodeKind := one fun k => k.isExpression

def body : Language NodeKind := named "object_body"

/-- A single member of an object body. -/
def objectMember : Language NodeKind := one fun k => k.isObjectMember

end Layout

open Layout in
/-- The words that the kinds of the children of a node can form. -/
def NodeKind.layout : NodeKind → Language NodeKind
  | .module .. =>
    (1 + named "module_clause") * (named "import")∗ * (named "class")∗ * (named "typealias")∗
      * (named "property")∗ * (named "method")∗
  | .class _ => (named "property")∗ * (named "method")∗
  | .property _ | .objectProperty _ => 1 + (expression + body)
  | .method h => (named "parameter")∗ * if h.hasBody then expression else 1
  | .access .. => expression
  | .call _ hasReceiver => (if hasReceiver then expression else 1) * expression∗
  | .letIn _ => expression * expression
  | .lambda => (named "parameter")∗ * expression
  | .new _ => body
  | .amend => expression * body
  | .conditional => expression * expression * expression
  | .objectBody => objectMember∗
  | .objectElement => expression
  | .objectEntry => expression * expression
  | .generator .. => expression * body
  | .when => expression * body * (1 + body)
  | .clause .. | .importClause _ | .typeAlias _ | .parameter _ | .literal _ | .ident _ | .this
  | .moduleRef | .importExpr _ => 1

/-- The children of every node form a word of the layout of its kind. -/
def Tree.IsLaidOut (t : Tree) : Prop :=
  ∀ n node, t.node? n = some node →
    ∃ kinds ∈ node.kind.layout, node.children.map t.kind? = kinds.map some

namespace Outline

/-- The children of the first node form a word of the layout of its kind. -/
def IsLaidOut (o : Outline) : Prop := o.children.map kind ∈ o.kind.layout

/-- Siblings form a word of a language, and everything in them is laid out. -/
structure Forms (os : List Outline) (l : Language NodeKind) : Prop where
  kinds : os.map kind ∈ l
  parts : ∀ o ∈ os, o.Everywhere IsLaidOut

namespace Forms

variable {os os' : List Outline} {l l' : Language NodeKind}

theorem nil : Forms [] 1 := ⟨Language.nil_mem_one, List.forall_mem_nil _⟩

theorem append (h : Forms os l) (h' : Forms os' l') : Forms (os ++ os') (l * l') where
  kinds := by
    rw [List.map_append]
    exact Language.append_mem_mul h.kinds h'.kinds
  parts := List.forall_mem_append.mpr ⟨h.parts, h'.parts⟩

theorem left (h : Forms os l) : Forms os (l + l') := ⟨.inl h.kinds, h.parts⟩

theorem right (h : Forms os l') : Forms os (l + l') := ⟨.inr h.kinds, h.parts⟩

theorem many_nil : Forms [] l∗ := ⟨Language.nil_mem_kstar l, List.forall_mem_nil _⟩

theorem many_append (h : Forms os l) (h' : Forms os' l∗) : Forms (os ++ os') l∗ := by
  rw [← Language.one_add_self_mul_kstar_eq_kstar]
  exact (h.append h').right

theorem many_map {α : Type} {f : α → Outline} (xs : List α) (h : ∀ x, Forms [f x] l) :
    Forms (xs.map f) l∗ := by
  induction xs with
  | nil => exact many_nil
  | cons x xs ih => exact (h x).many_append ih

/-- A node of a kind that passes a test, with children that form a word of its layout. -/
theorem node {test : NodeKind → Prop} {kind : NodeKind} {span : Option Span}
    (hkind : test kind) (h : Forms os kind.layout) :
    Forms [.node kind span os] (Layout.one test) where
  kinds := ⟨kind, rfl, hkind⟩
  parts := List.forall_mem_singleton.mpr (.node h.kinds h.parts)

theorem leaf {test : NodeKind → Prop} {kind : NodeKind} (hkind : test kind)
    (h : kind.layout = 1) : Forms [.leaf kind] (Layout.one test) := by
  refine node hkind ?_
  rw [h]
  exact nil

end Forms

end Outline

namespace Source

open Layout Outline

theorem forms_parameterOutlines (ps : List Binding) :
    Forms (parameterOutlines ps) (named "parameter")∗ :=
  .many_map ps fun _ => .leaf rfl rfl

theorem forms_objectBody {os : List Outline} (h : Forms os objectMember∗) :
    Forms [.node .objectBody none os] Layout.body := .node rfl h

theorem forms_value {e : Expr} (h : Forms [exprOutline e] expression) :
    Forms [exprOutline e] (1 + (expression + Layout.body)) := h.left.right

/-- The body of a property that has no value. -/
theorem forms_noValue {body : Option (List Member)}
    (h : Forms (bodyOutline body) (1 + Layout.body)) :
    Forms (bodyOutline body) (1 + (expression + Layout.body)) :=
  ⟨h.kinds.imp_right .inr, h.parts⟩

mutual

theorem forms_exprOutline (e : Expr) : Forms [exprOutline e] expression := by
  cases e with
  | string | int | float | boolean | null | ident | this | module | importExpr =>
    exact .leaf rfl rfl
  | access receiver name nullSafe => exact .node rfl (forms_exprOutline receiver)
  | call receiver name args =>
    exact .node rfl ((forms_receiverOutline receiver).append (forms_exprOutlines args))
  | letIn name type value body =>
    exact .node rfl ((forms_exprOutline value).append (forms_exprOutline body))
  | lambda params body =>
    exact .node rfl ((forms_parameterOutlines params).append (forms_exprOutline body))
  | new type body => exact .node rfl (forms_objectBody (forms_memberOutlines body))
  | amend parent body =>
    have hbody := forms_objectBody (forms_memberOutlines body)
    exact .node rfl ((forms_exprOutline parent).append hbody)
  | conditional condition consequent alternative =>
    exact .node rfl (((forms_exprOutline condition).append (forms_exprOutline consequent)).append
      (forms_exprOutline alternative))
termination_by structural e

theorem forms_receiverOutline (e : Option Expr) :
    Forms (receiverOutline e) (if e.isSome then expression else 1) := by
  cases e with
  | none => exact .nil
  | some e => exact forms_exprOutline e
termination_by structural e

theorem forms_exprOutlines (es : List Expr) : Forms (exprOutlines es) expression∗ := by
  cases es with
  | nil => exact .many_nil
  | cons e es => exact (forms_exprOutline e).many_append (forms_exprOutlines es)
termination_by structural es

theorem forms_memberOutline (m : Member) : Forms [memberOutline m] objectMember := by
  cases m with
  | property name type value body =>
    cases value with
    | some e => exact .node rfl (forms_value (forms_exprOutline e))
    | none => exact .node rfl (forms_noValue (forms_bodyOutline body))
  | element value => exact .node rfl (forms_exprOutline value)
  | entry key value =>
    exact .node rfl ((forms_exprOutline key).append (forms_exprOutline value))
  | generator key value iterable body =>
    have hbody := forms_objectBody (forms_memberOutlines body)
    exact .node rfl ((forms_exprOutline iterable).append hbody)
  | when condition body otherwise =>
    exact .node rfl (((forms_exprOutline condition).append
      (forms_objectBody (forms_memberOutlines body))).append (forms_bodyOutline otherwise))
termination_by structural m

/-- An object body that may be absent. -/
theorem forms_bodyOutline (body : Option (List Member)) :
    Forms (bodyOutline body) (1 + Layout.body) := by
  cases body with
  | none => exact Forms.nil.left
  | some ms => exact (forms_objectBody (forms_memberOutlines ms)).right
termination_by structural body

theorem forms_memberOutlines (ms : List Member) :
    Forms (memberOutlines ms) objectMember∗ := by
  cases ms with
  | nil => exact .many_nil
  | cons m ms => exact (forms_memberOutline m).many_append (forms_memberOutlines ms)
termination_by structural ms

end

/-! ## Declarations -/

theorem forms_propertyOutline (p : Property) : Forms [propertyOutline p] (named "property") := by
  rw [propertyOutline]
  cases p.value with
  | some e => exact .node rfl (forms_value (forms_exprOutline e))
  | none => exact .node rfl (forms_noValue (forms_bodyOutline p.body))

theorem forms_methodOutline (m : Method) : Forms [methodOutline m] (named "method") :=
  .node rfl ((forms_parameterOutlines m.params).append (forms_receiverOutline m.body))

theorem forms_classOutline (c : Class) : Forms [classOutline c] (named "class") :=
  .node rfl ((Forms.many_map c.properties forms_propertyOutline).append
    (.many_map c.methods forms_methodOutline))

theorem forms_aliasOutline (a : Alias) : Forms [aliasOutline a] (named "typealias") :=
  .node rfl .nil

theorem forms_importOutline (i : Import) : Forms [importOutline i] (named "import") :=
  .node rfl .nil

theorem forms_clauseOutline (m : Module) :
    Forms (clauseOutline m) (1 + named "module_clause") := by
  rw [clauseOutline]
  split
  · exact .right (.leaf rfl rfl)
  · exact .right (.leaf rfl rfl)
  · exact .left .nil

theorem forms_outline (m : Module) : Forms [m.outline] (named "module") :=
  .node rfl ((((((forms_clauseOutline m).append
    (.many_map m.imports forms_importOutline)).append
    (.many_map m.classes forms_classOutline)).append
    (.many_map m.aliases forms_aliasOutline)).append
    (.many_map m.properties forms_propertyOutline)).append
    (.many_map m.methods forms_methodOutline))

end Source

/-- Where everything in an outline is laid out, so are the nodes of its tree. -/
theorem Outline.Everywhere.isLaidOut_tree {o : Outline} (h : o.Everywhere IsLaidOut)
    (id : ModuleId) (version : Nat) : (o.tree id version).IsLaidOut := by
  intro n node hnode
  have hn : n < o.size := by
    rw [← Outline.size_tree o id version]
    exact (Array.getElem?_eq_some_iff.mp hnode).1
  obtain ⟨parent, part, hholds, hpart, -⟩ := (Tree.holds_tree o id version).exists_part h
    n.zero_le (by rwa [Tree.root, Nat.zero_add])
  obtain ⟨span, hnode'⟩ := hholds.node?
  obtain rfl := Option.some.inj (hnode.symm.trans hnode')
  exact ⟨part.children.map kind, hpart.self, hholds.children.map_kind?⟩

/-- The tree of a description is laid out. -/
theorem Source.Module.isLaidOut_treeAs (m : Source.Module) (id : ModuleId) (version : Nat) :
    (m.treeAs id version).IsLaidOut :=
  ((forms_outline m).parts _ List.mem_cons_self).isLaidOut_tree id version

end PklAnalysis
