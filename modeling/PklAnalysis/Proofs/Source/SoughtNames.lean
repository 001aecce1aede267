import PklAnalysis.BaseModule

/-!
# Names at nodes

What names stand at the nodes of a tree, which of them are declared as members, and which are looked
for: identifiers, accesses and calls look for a name, and so do properties and object properties
without an annotation, whose type is that of another property of their name.  For some of them no
types have to be known.
-/

namespace PklAnalysis

/-- The names in an annotation that may be absent. -/
def TypeExpr.namesOf? (a : Option TypeExpr) : List String := (a.map names).getD []

def Binding.names (b : Binding) : List String := b.name :: TypeExpr.namesOf? b.type

namespace NodeKind

/-- All names that stand at a node. -/
def names : NodeKind → List String
  | .module name _ => name.toList
  | .importClause i | .importExpr i => [i.bindingName]
  | .class h => h.name :: h.typeParams.map (·.name) ++ TypeExpr.namesOf? h.superclass
  | .typeAlias h => h.name :: h.typeParams.map (·.name) ++ h.target.names
  | .property h => h.name :: TypeExpr.namesOf? h.type
  | .method h => h.name :: h.typeParams.map (·.name) ++ TypeExpr.namesOf? h.returns
  | .parameter b | .letIn b | .objectProperty b => b.names
  | .ident name | .access name _ | .call name _ => [name]
  | .new type => TypeExpr.namesOf? type
  | .generator key value => ((key.map Binding.names).getD []) ++ value.names
  | .clause .. | .literal _ | .this | .moduleRef | .lambda | .amend | .conditional | .objectBody
  | .objectElement | .objectEntry | .when => []

/-- The name of a property or a method. -/
def memberName? : NodeKind → Option String
  | .property h => some h.name
  | .method h => some h.name
  | _ => none

/-- The name that a node looks for. -/
def sought? : NodeKind → Option String
  | .ident name | .access name _ | .call name _ => some name
  | .property h => some h.name
  | .objectProperty b => some b.name
  | _ => none

/-- Whether a node looks for a name after a receiver. -/
def isQualified : NodeKind → Bool
  | .access .. => true
  | .call _ hasReceiver => hasReceiver
  | _ => false

/-- Whether nodes of a kind look for no names among the members of types, wherever they stand. -/
def isSettled : NodeKind → Bool
  | .ident _ | .access .. | .call .. => false
  | .property h => h.type.isSome
  | .objectProperty b => b.type.isSome
  | _ => true

theorem mem_names_of_sought? {kind : NodeKind} {name : String} (h : kind.sought? = some name) :
    name ∈ kind.names := by
  cases kind with
  | ident | access | call | property | objectProperty =>
    rw [← Option.some.inj h]
    exact List.mem_cons_self
  | _ => cases h

end NodeKind

namespace Tree

theorem kind?_of_size_le {t : Tree} {n : Nat} (hn : t.size ≤ n) : t.kind? n = none := by
  rw [kind?, node?, Array.getElem?_eq_none hn, Option.map_none]

theorem mem_indices_of_kind? {t : Tree} {n : Nat} {kind : NodeKind} (h : t.kind? n = some kind) :
    n ∈ t.indices := by
  refine List.mem_range.mpr (Nat.lt_of_not_le fun hn => ?_)
  rw [kind?_of_size_le hn] at h
  cases h

/-- Whether one of the nodes of a tree is of a kind. -/
def Has (t : Tree) (p : NodeKind → Prop) : Prop := ∃ n kind, t.kind? n = some kind ∧ p kind

theorem has_iff {t : Tree} {p : NodeKind → Prop} :
    t.Has p ↔ ∃ node ∈ t.nodes.toList, p node.kind := by
  constructor
  · rintro ⟨n, kind, hkind, hp⟩
    obtain ⟨node, hnode, rfl⟩ := Option.map_eq_some_iff.mp hkind
    exact ⟨node, Array.mem_toList_iff.mpr (Array.mem_of_getElem? hnode), hp⟩
  · rintro ⟨node, hnode, hp⟩
    obtain ⟨n, hn⟩ := Array.mem_iff_getElem?.mp (Array.mem_toList_iff.mp hnode)
    exact ⟨n, node.kind, congrArg (Option.map Node.kind) hn, hp⟩

instance (t : Tree) (p : NodeKind → Prop) [DecidablePred p] : Decidable (t.Has p) :=
  decidable_of_iff _ has_iff.symm

/-- Whether something holds of each node of a tree and its kind. -/
def Each (t : Tree) (p : Nat → NodeKind → Prop) : Prop := ∀ n kind, t.kind? n = some kind → p n kind

theorem each_iff {t : Tree} {p : Nat → NodeKind → Prop} :
    t.Each p ↔ ∀ entry ∈ t.nodes.toList.zipIdx, p entry.2 entry.1.kind := by
  constructor
  · intro h entry hentry
    have hnode : t.nodes[entry.2]? = some entry.1 := by
      rw [← Array.getElem?_toList]
      exact List.mem_zipIdx_iff_getElem?.mp hentry
    exact h _ _ (congrArg (Option.map Node.kind) hnode)
  · intro h n kind hkind
    obtain ⟨node, hnode, rfl⟩ := Option.map_eq_some_iff.mp hkind
    have hentry : (node, n) ∈ t.nodes.toList.zipIdx :=
      List.mk_mem_zipIdx_iff_getElem?.mpr (Array.getElem?_toList.trans hnode)
    exact h _ hentry

instance (t : Tree) (p : Nat → NodeKind → Prop) [∀ n, DecidablePred (p n)] : Decidable (t.Each p) :=
  decidable_of_iff _ each_iff.symm

/-- Whether a name stands somewhere in a tree. -/
abbrev Mentions (t : Tree) (name : String) : Prop := t.Has fun kind => name ∈ kind.names

/-- Whether a tree declares a property or a method with a name. -/
abbrev Declares (t : Tree) (name : String) : Prop := t.Has fun kind => kind.memberName? = some name

/-- Whether a node looks for no name among the members of a type: names without a receiver outside
of object bodies, names after `module`, and properties with an annotation do not. -/
def isDirect (t : Tree) (n : Nat) : Bool :=
  match t.kind? n with
  | some (.ident _) | some (.call _ false) =>
    (t.ancestors n).all fun scope => t.kind? scope != some .objectBody
  | some (.access ..) | some (.call _ true) =>
    (t.child? n 0).all fun receiver => t.kind? receiver = some .moduleRef
  | some (.property h) => h.type.isSome
  | some (.objectProperty b) => b.type.isSome
  | _ => true

/-- A node looks for no name among the members of a type if its kind does not let it do so. -/
theorem isDirect_of_isSettled {t : Tree} {n : Nat}
    (h : ∀ kind, t.kind? n = some kind → kind.isSettled = true) : t.isDirect n = true := by
  rw [isDirect]
  cases hkind : t.kind? n with
  | none => rfl
  | some kind =>
    have hsettled := h kind hkind
    cases kind with
    | ident | access | call => cases hsettled
    | property | objectProperty => exact hsettled
    | _ => rfl

/-- The base module looks for no names among the members of types. -/
theorem isDirect_base (n : Nat) : BaseModule.tree.isDirect n = true := by
  have hsettled : BaseModule.tree.Each fun _ kind => kind.isSettled = true := by
    decide +kernel
  exact isDirect_of_isSettled (hsettled n)

end Tree

end PklAnalysis
