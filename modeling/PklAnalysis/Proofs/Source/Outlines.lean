import PklAnalysis.Source.Outline

/-!
# The nodes of an outline

A numbered outline holds each of its sub-outlines in one piece: the nodes of a sub-outline stand one
after the other, its first node first, and then those of its children.  So the children of a node
are of the kinds of its sub-outlines, and the tree of a description has the import clauses of the
description, in their order.
-/

namespace PklAnalysis

namespace Outline

/-- The kind of the first node. -/
def kind : Outline → NodeKind
  | .node kind _ _ => kind

theorem exists_nodes_eq_cons (parent : Option Nat) (index cursor : Nat) (o : Outline) :
    ∃ node rest, o.nodes parent index cursor = node :: rest ∧ node.kind = o.kind := by
  cases o with
  | node kind span children => exact ⟨_, _, rfl, rfl⟩

/-- The children of the first node. -/
def children : Outline → List Outline
  | .node _ _ children => children

/-- The known span of the first node. -/
def span : Outline → Option Span
  | .node _ span _ => span

/-- The span of the first node if the outline opens at a position. -/
def placeFrom (cursor : Nat) (o : Outline) : Span :=
  o.span.getD ⟨cursor, cursor + 2 * o.size⟩

theorem size_pos (o : Outline) : 0 < o.size := by
  cases o with
  | node kind span children => exact Nat.succ_pos _

theorem kind?_tree (o : Outline) (id : ModuleId) (version n : Nat) :
    (o.tree id version).kind? n = ((o.nodes none 0 0)[n]?).map (·.kind) := by
  rw [Tree.kind?, Tree.node?, tree, List.getElem?_toArray]

end Outline

namespace Tree

/-! ## Where outlines stand in a tree -/

/-- From an index on, the nodes of a tree are those of an outline that opens at a position and whose
first node has a parent. -/
def HoldsAt (t : Tree) (parent : Option Nat) (n cursor : Nat) (o : Outline) : Prop :=
  ∃ before after : List Node, before.length = n ∧
    t.nodes.toList = before ++ o.nodes parent n cursor ++ after

/-- From an index on, the nodes of a tree are those of siblings below a node, the first of which
opens at a position. -/
def HoldsAllAt (t : Tree) (parent n cursor : Nat) (os : List Outline) : Prop :=
  ∃ before after : List Node, before.length = n ∧
    t.nodes.toList = before ++ Outline.nodesOfAll parent n cursor os ++ after

/-- From an index on, the nodes of a tree are those of an outline whose first node has a parent. -/
def Holds (t : Tree) (parent : Option Nat) (n : Nat) (o : Outline) : Prop :=
  ∃ (before after : List Node) (cursor : Nat), before.length = n ∧
    t.nodes.toList = before ++ o.nodes parent n cursor ++ after

/-- From an index on, the nodes of a tree are those of siblings below a node. -/
def HoldsAll (t : Tree) (parent n : Nat) (os : List Outline) : Prop :=
  ∃ (before after : List Node) (cursor : Nat), before.length = n ∧
    t.nodes.toList = before ++ Outline.nodesOfAll parent n cursor os ++ after

variable {t : Tree} {parent : Option Nat} {p n cursor : Nat} {o : Outline} {os : List Outline}

theorem holds_iff : t.Holds parent n o ↔ ∃ cursor, t.HoldsAt parent n cursor o := by
  constructor
  · rintro ⟨before, after, cursor, h⟩
    exact ⟨cursor, before, after, h⟩
  · rintro ⟨cursor, before, after, h⟩
    exact ⟨before, after, cursor, h⟩

theorem holdsAll_iff : t.HoldsAll p n os ↔ ∃ cursor, t.HoldsAllAt p n cursor os := by
  constructor
  · rintro ⟨before, after, cursor, h⟩
    exact ⟨cursor, before, after, h⟩
  · rintro ⟨cursor, before, after, h⟩
    exact ⟨before, after, cursor, h⟩

theorem holdsAt_tree (o : Outline) (id : ModuleId) (version : Nat) :
    (o.tree id version).HoldsAt none root 0 o :=
  ⟨[], [], rfl, by rw [Outline.tree, List.append_nil, List.nil_append]; rfl⟩

theorem holds_tree (o : Outline) (id : ModuleId) (version : Nat) :
    (o.tree id version).Holds none root o :=
  holds_iff.mpr ⟨0, holdsAt_tree o id version⟩

/-- The first node of an outline. -/
theorem HoldsAt.node? (h : t.HoldsAt parent n cursor o) : t.node? n =
    some ⟨o.kind, parent, Outline.siblingIndices (n + 1) o.children, o.placeFrom cursor⟩ := by
  obtain ⟨before, after, rfl, hnodes⟩ := h
  cases o with
  | node kind span children =>
    rw [Tree.node?, ← Array.getElem?_toList, hnodes, List.append_assoc,
      List.getElem?_append_right (Nat.le_refl _), Nat.sub_self]
    rfl

theorem HoldsAt.span_eq (h : t.HoldsAt parent n cursor o) : t.span n = o.placeFrom cursor := by
  rw [span, h.node?]

theorem HoldsAt.children_eq (h : t.HoldsAt parent n cursor o) :
    t.children n = Outline.siblingIndices (n + 1) o.children := by
  rw [Tree.children, h.node?]

/-- Behind the first node of an outline stand its children. -/
theorem HoldsAt.children (h : t.HoldsAt parent n cursor o) :
    t.HoldsAllAt n (n + 1) (cursor + 1) o.children := by
  obtain ⟨before, after, hn, hnodes⟩ := h
  cases o with
  | node kind span children =>
    rw [Outline.nodes] at hnodes
    generalize hfirst : Node.mk kind parent _ _ = first at hnodes
    refine ⟨before ++ [first], after, ?_, ?_⟩
    · rw [List.length_append, List.length_singleton, hn]
    · rw [hnodes, Outline.children, List.append_assoc before [first], List.singleton_append]

theorem HoldsAllAt.head (h : t.HoldsAllAt p n cursor (o :: os)) :
    t.HoldsAt (some p) n cursor o := by
  obtain ⟨before, after, hn, hnodes⟩ := h
  refine ⟨before, Outline.nodesOfAll p (n + o.size) (cursor + 2 * o.size) os ++ after, hn, ?_⟩
  rw [hnodes, Outline.nodesOfAll]
  simp only [List.append_assoc]

theorem HoldsAllAt.tail (h : t.HoldsAllAt p n cursor (o :: os)) :
    t.HoldsAllAt p (n + o.size) (cursor + 2 * o.size) os := by
  obtain ⟨before, after, hn, hnodes⟩ := h
  refine ⟨before ++ o.nodes (some p) n cursor, after, ?_, ?_⟩
  · rw [List.length_append, Outline.length_nodes, hn]
  · rw [hnodes, Outline.nodesOfAll]
    simp only [List.append_assoc]

namespace Holds

theorem add_size_le (h : t.Holds parent n o) : n + o.size ≤ t.size := by
  obtain ⟨before, after, cursor, rfl, hnodes⟩ := h
  have hlength := congrArg List.length hnodes
  rw [List.length_append, List.length_append, Outline.length_nodes, Array.length_toList] at hlength
  exact Nat.le.intro hlength.symm

/-- The first node of an outline. -/
theorem node? (h : t.Holds parent n o) : ∃ span,
    t.node? n = some ⟨o.kind, parent, Outline.siblingIndices (n + 1) o.children, span⟩ := by
  obtain ⟨cursor, h⟩ := holds_iff.mp h
  exact ⟨o.placeFrom cursor, h.node?⟩

theorem children_eq (h : t.Holds parent n o) :
    t.children n = Outline.siblingIndices (n + 1) o.children := by
  obtain ⟨cursor, h⟩ := holds_iff.mp h
  exact h.children_eq

/-- Behind the first node of an outline stand its children. -/
theorem children (h : t.Holds parent n o) : t.HoldsAll n (n + 1) o.children := by
  obtain ⟨cursor, h⟩ := holds_iff.mp h
  exact holdsAll_iff.mpr ⟨cursor + 1, h.children⟩

end Holds

namespace HoldsAll

theorem head (h : t.HoldsAll p n (o :: os)) : t.Holds (some p) n o := by
  obtain ⟨cursor, h⟩ := holdsAll_iff.mp h
  exact holds_iff.mpr ⟨cursor, h.head⟩

theorem tail (h : t.HoldsAll p n (o :: os)) : t.HoldsAll p (n + o.size) os := by
  obtain ⟨cursor, h⟩ := holdsAll_iff.mp h
  exact holdsAll_iff.mpr ⟨cursor + 2 * o.size, h.tail⟩

/-- At each index of a sibling stands the outline of one. -/
theorem exists_holds (h : t.HoldsAll p n os) {c : Nat} (hc : c ∈ Outline.siblingIndices n os) :
    ∃ o ∈ os, t.Holds (some p) c o := by
  induction os generalizing n with
  | nil => exact absurd hc List.not_mem_nil
  | cons o os ih =>
    rcases List.mem_cons.mp hc with rfl | hc
    · exact ⟨o, List.mem_cons_self, h.head⟩
    · obtain ⟨o', ho', hholds⟩ := ih h.tail hc
      exact ⟨o', List.mem_cons_of_mem _ ho', hholds⟩

/-- The siblings have the kinds of their outlines. -/
theorem map_kind? (h : t.HoldsAll p n os) :
    (Outline.siblingIndices n os).map t.kind? = (os.map Outline.kind).map some := by
  induction os generalizing n with
  | nil => rfl
  | cons o os ih =>
    obtain ⟨span, hnode⟩ := h.head.node?
    rw [Outline.siblingIndices, List.map_cons, ih h.tail, Tree.kind?, hnode]
    rfl

end HoldsAll

end Tree

/-- The children of the first node of a numbered outline are its sub-outlines. -/
theorem Outline.map_kind?_children_tree (o : Outline) (id : ModuleId) (version : Nat) :
    ((o.tree id version).children Tree.root).map (o.tree id version).kind? =
      o.children.map fun c => some c.kind := by
  have hholds := Tree.holds_tree o id version
  rw [hholds.children_eq, hholds.children.map_kind?, List.map_map]
  rfl

/-- The clause of an import among the kinds of nodes. -/
def NodeKind.import? : NodeKind → Option Import
  | .importClause i => some i
  | _ => none

theorem Tree.map_imports (t : Tree) : t.imports.map (·.2) =
    ((t.children Tree.root).map t.kind?).filterMap fun k => k.bind NodeKind.import? := by
  rw [Tree.imports, List.map_filterMap, List.filterMap_map]
  congr 1
  funext n
  rw [Function.comp_apply]
  cases t.kind? n with
  | none => rfl
  | some k => cases k <;> rfl

namespace Source

/-- The import clauses of the tree of a description are those of the description. -/
theorem Module.map_imports_treeAs (m : Module) (id : ModuleId) (version : Nat) :
    (m.treeAs id version).imports.map (·.2) = m.imports.map Import.clause := by
  have hother : ∀ os : List Outline, (∀ o ∈ os, o.kind.import? = none) →
      os.filterMap (fun o => o.kind.import?) = [] :=
    fun os hos => List.filterMap_eq_nil_iff.mpr hos
  have hclause : (clauseOutline m).filterMap (fun o => o.kind.import?) = [] := by
    refine hother _ fun o ho => ?_
    rw [clauseOutline] at ho
    split at ho
    · rw [List.mem_singleton.mp ho]
      rfl
    · rw [List.mem_singleton.mp ho]
      rfl
    · exact absurd ho List.not_mem_nil
  have himports : (m.imports.map importOutline).filterMap (fun o => o.kind.import?)
      = m.imports.map Import.clause := by
    rw [List.filterMap_map]
    show m.imports.filterMap (some ∘ Import.clause) = _
    rw [List.filterMap_eq_map]
  rw [Tree.map_imports, Module.treeAs, Outline.map_kind?_children_tree, List.filterMap_map]
  show (clauseOutline m ++ m.imports.map importOutline ++ m.classes.map classOutline
      ++ m.aliases.map aliasOutline ++ m.properties.map propertyOutline
      ++ m.methods.map methodOutline).filterMap (fun o => o.kind.import?) = _
  simp only [List.filterMap_append, hclause, himports]
  rw [hother (m.classes.map _) (List.forall_mem_map.mpr fun _ _ => rfl),
    hother (m.aliases.map _) (List.forall_mem_map.mpr fun _ _ => rfl),
    hother (m.properties.map _) (List.forall_mem_map.mpr fun _ _ => rfl),
    hother (m.methods.map _) (List.forall_mem_map.mpr fun _ _ => rfl)]
  simp only [List.nil_append, List.append_nil]

end Source

end PklAnalysis
