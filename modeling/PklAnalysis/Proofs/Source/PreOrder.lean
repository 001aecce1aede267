import Mathlib.Data.List.Nodup
import PklAnalysis.Proofs.Source.Outlines

/-!
# Trees in pre-order

Each node of a numbered outline begins a part of it, and unless it is the first one its parent
stands before it and lists it.  A node with all below it therefore takes up a range of indices.
-/

namespace PklAnalysis

/-- A property of an outline and of all outlines in it. -/
inductive Outline.Everywhere (P : Outline → Prop) : Outline → Prop
  | node {kind : NodeKind} {span : Option Span} {children : List Outline}
      (first : P (.node kind span children)) (rest : ∀ o ∈ children, Everywhere P o) :
      Everywhere P (.node kind span children)

theorem Outline.Everywhere.children {P : Outline → Prop} {o : Outline} (h : o.Everywhere P) :
    ∀ c ∈ o.children, c.Everywhere P := by
  cases h with
  | node _ rest => exact rest

theorem Outline.Everywhere.self {P : Outline → Prop} {o : Outline} (h : o.Everywhere P) : P o := by
  cases h with
  | node first _ => exact first

mutual

theorem Outline.everywhere_of_forall {P : Outline → Prop} (h : ∀ o, P o) (o : Outline) :
    o.Everywhere P := by
  cases o with
  | node kind span children => exact .node (h _) (everywhere_of_forall_all h children)
termination_by structural o

theorem Outline.everywhere_of_forall_all {P : Outline → Prop} (h : ∀ o, P o) (os : List Outline) :
    ∀ o ∈ os, o.Everywhere P := by
  cases os with
  | nil => exact List.forall_mem_nil _
  | cons o os =>
    exact List.forall_mem_cons.mpr ⟨everywhere_of_forall h o, everywhere_of_forall_all h os⟩
termination_by structural os

end

namespace Tree

variable {t : Tree} {parent : Option Nat} {p n : Nat} {o : Outline} {os : List Outline}

/-! ## Every node -/

mutual

/-- Each node of an outline is the first node of a part of it, and unless it is the first one of
all its parent stands in the outline before it and lists it. -/
theorem Holds.exists_part {P : Outline → Prop} {o : Outline} {parent : Option Nat} {n m : Nat}
    (h : t.Holds parent n o) (hP : o.Everywhere P) (hn : n ≤ m) (hm : m < n + o.size) :
    ∃ parent' part, t.Holds parent' m part ∧ part.Everywhere P ∧ m + part.size ≤ n + o.size ∧
      (m = n ∧ parent' = parent ∨ ∃ p, parent' = some p ∧ n ≤ p ∧ p < m ∧ m ∈ t.children p) := by
  cases o with
  | node kind span children =>
    by_cases hfirst : m = n
    · subst hfirst
      exact ⟨parent, _, h, hP, Nat.le_refl _, .inl ⟨rfl, rfl⟩⟩
    · rw [Outline.size] at hm ⊢
      have hchildren : t.HoldsAll n (n + 1) children := h.children
      have hbelow : n + 1 ≤ m := Nat.lt_of_le_of_ne hn (Ne.symm hfirst)
      obtain ⟨parent', part, hholds, hpart, hend, hplace⟩ :=
        HoldsAll.exists_part hchildren hP.children hbelow (by omega)
      refine ⟨parent', part, hholds, hpart, by omega, .inr ?_⟩
      rcases hplace with ⟨hmem, rfl⟩ | ⟨p, rfl, hp, hrest⟩
      · exact ⟨n, rfl, Nat.le_refl _, by omega, by rwa [h.children_eq]⟩
      · exact ⟨p, rfl, by omega, hrest⟩
termination_by structural o

/-- Each node of siblings is the first node of a part of one of them, and unless that is the sibling
itself its parent stands among the siblings before it and lists it. -/
theorem HoldsAll.exists_part {P : Outline → Prop} {os : List Outline} {p n m : Nat}
    (h : t.HoldsAll p n os) (hP : ∀ o ∈ os, o.Everywhere P) (hn : n ≤ m)
    (hm : m < n + Outline.sizeOfAll os) :
    ∃ parent' part, t.Holds parent' m part ∧ part.Everywhere P ∧
      m + part.size ≤ n + Outline.sizeOfAll os ∧
        (m ∈ Outline.siblingIndices n os ∧ parent' = some p ∨
          ∃ q, parent' = some q ∧ n ≤ q ∧ q < m ∧ m ∈ t.children q) := by
  cases os with
  | nil =>
    rw [Outline.sizeOfAll] at hm
    omega
  | cons o os =>
    obtain ⟨ho, hos⟩ := List.forall_mem_cons.mp hP
    rw [Outline.sizeOfAll] at hm ⊢
    by_cases hhead : m < n + o.size
    · obtain ⟨parent', part, hholds, hpart, hend, hplace⟩ :=
        Holds.exists_part h.head ho hn hhead
      refine ⟨parent', part, hholds, hpart, by omega, ?_⟩
      rcases hplace with ⟨rfl, rfl⟩ | hplace
      · exact .inl ⟨List.mem_cons_self, rfl⟩
      · exact .inr hplace
    · obtain ⟨parent', part, hholds, hpart, hend, hplace⟩ :=
        HoldsAll.exists_part h.tail hos (Nat.le_of_not_lt hhead) (by omega)
      refine ⟨parent', part, hholds, hpart, by omega, ?_⟩
      rcases hplace with ⟨hmem, hparent⟩ | ⟨q, hparent, hq, hrest⟩
      · exact .inl ⟨List.mem_cons_of_mem _ hmem, hparent⟩
      · exact .inr ⟨q, hparent, by omega, hrest⟩
termination_by structural os

end

/-! ## Descendants -/

mutual

/-- A node and all below it take up the indices of its outline. -/
theorem Holds.descendantsWithin {o : Outline} {parent : Option Nat} {n depth : Nat}
    (h : t.Holds parent n o) (hdepth : o.size ≤ depth) :
    t.descendantsWithin depth n = List.range' n o.size := by
  cases o with
  | node kind span children =>
    rw [Outline.size] at hdepth ⊢
    obtain ⟨depth, rfl⟩ := Nat.exists_eq_add_of_le' (Nat.le_of_add_left_le hdepth)
    rw [Tree.descendantsWithin, h.children_eq, List.range'_succ]
    congr 1
    have hchildren : t.HoldsAll n (n + 1) children := h.children
    have hbelow : Outline.sizeOfAll children ≤ depth := by omega
    exact HoldsAll.descendantsWithin hchildren hbelow
termination_by structural o

/-- Siblings and all below them take up the indices of their outlines. -/
theorem HoldsAll.descendantsWithin {os : List Outline} {p n depth : Nat} (h : t.HoldsAll p n os)
    (hdepth : Outline.sizeOfAll os ≤ depth) :
    (Outline.siblingIndices n os).flatMap (t.descendantsWithin depth) =
      List.range' n (Outline.sizeOfAll os) := by
  cases os with
  | nil => rfl
  | cons o os =>
    rw [Outline.sizeOfAll] at hdepth ⊢
    rw [Outline.siblingIndices, List.flatMap_cons,
      Holds.descendantsWithin h.head (by omega),
      HoldsAll.descendantsWithin h.tail (by omega), List.range'_append_1]
termination_by structural os

end

theorem Holds.descendants (h : t.Holds parent n o) : t.descendants n = List.range' n o.size :=
  h.descendantsWithin (by have := h.add_size_le; omega)

/-! ## The order of all nodes -/

theorem bounds_of_mem_siblingIndices {c : Nat} (hc : c ∈ Outline.siblingIndices n os) :
    n ≤ c ∧ c < n + Outline.sizeOfAll os := by
  induction os generalizing n with
  | nil => exact absurd hc List.not_mem_nil
  | cons o os ih =>
    have hpos := o.size_pos
    rw [Outline.sizeOfAll]
    rcases List.mem_cons.mp hc with rfl | hc
    · omega
    · have hrest := ih hc
      omega

theorem pairwise_siblingIndices (n : Nat) (os : List Outline) :
    (Outline.siblingIndices n os).Pairwise (· < ·) := by
  induction os generalizing n with
  | nil => exact .nil
  | cons o os ih =>
    refine .cons (fun c hc => ?_) (ih _)
    have hpos := o.size_pos
    have hbounds := bounds_of_mem_siblingIndices hc
    omega

/-- The nodes of a tree stand in pre-order. -/
structure IsPreOrder (t : Tree) : Prop where
  /-- The first node is that of the module and has no parent. -/
  root : ∃ node name isOpen, t.node? root = some node ∧ node.kind = .module name isOpen ∧
    node.parent = none
  /-- Each other node has a parent, which stands before it and lists it once. -/
  parent : ∀ n node, t.node? n = some node → n ≠ Tree.root →
    ∃ p < n, node.parent = some p ∧ (t.children p).count n = 1
  /-- Children are listed in ascending order. -/
  ascending : ∀ n node, t.node? n = some node → node.children.Pairwise (· < ·)
  /-- What is listed as a child is a node with this parent. -/
  child : ∀ n node, t.node? n = some node → ∀ c ∈ node.children,
    ∃ child, t.node? c = some child ∧ child.parent = some n
  /-- A node and all below it take up a range of indices, which the node begins. -/
  range : ∀ n < t.size, ∃ k > 0, n + k ≤ t.size ∧ t.descendants n = List.range' n k
  /-- Below a node are the nodes of which it is an ancestor. -/
  below : ∀ n < t.size, ∀ m < t.size, m ∈ t.descendants n ↔ m = n ∨ n ∈ t.ancestors m
  /-- All nodes are below the first one. -/
  all : t.descendants Tree.root = t.indices
  /-- The last ancestor of each other node is the first node. -/
  ancestors : ∀ n < t.size, n ≠ Tree.root → (t.ancestors n).getLast? = some Tree.root

theorem parent?_of_parent {node : Node} (hnode : t.node? n = some node)
    (hparent : node.parent = some p) (hp : p < n) : t.parent? n = some ⟨p, hp⟩ := by
  rw [parent?, hnode, Option.bind_eq_bind, Option.bind_some, hparent, Option.bind_eq_bind,
    Option.bind_some, dif_pos hp]

theorem ancestors_of_parent {node : Node} (hnode : t.node? n = some node)
    (hparent : node.parent = some p) (hp : p < n) : t.ancestors n = p :: t.ancestors p := by
  rw [Tree.ancestors, parent?_of_parent hnode hparent hp]

theorem ancestors_of_no_parent {node : Node} (hnode : t.node? n = some node)
    (hparent : node.parent = none) : t.ancestors n = [] := by
  have hparent? : t.parent? n = none := by
    rw [parent?, hnode, Option.bind_eq_bind, Option.bind_some, hparent, Option.bind_eq_bind,
      Option.bind_none]
  rw [Tree.ancestors, hparent?]

section Whole

variable {whole : Outline} (h : t.Holds none root whole) (hsize : whole.size = t.size)
include h hsize

/-- At each index stands an outline, and unless it is the first index its parent is before it. -/
theorem Holds.exists_holds (hn : n < t.size) : ∃ parent part, t.Holds parent n part ∧
    (n = root ∧ parent = none ∨ ∃ p < n, parent = some p ∧ n ∈ t.children p) := by
  obtain ⟨parent, part, hpart, -, -, hplace⟩ := h.exists_part (m := n)
    (Outline.everywhere_of_forall (P := fun _ => True) (fun _ => trivial) whole) n.zero_le
    (by rw [hsize, root]; omega)
  refine ⟨parent, part, hpart, hplace.imp_right ?_⟩
  rintro ⟨p, hparent, -, hrest⟩
  exact ⟨p, hrest.1, hparent, hrest.2⟩

/-- A node is the first one of an outline. -/
theorem Holds.exists_holds_of_node? {node : Node} (hnode : t.node? n = some node) :
    ∃ part, t.Holds node.parent n part ∧
      node.children = Outline.siblingIndices (n + 1) part.children ∧
      (n = root ∧ node.parent = none ∨ ∃ p < n, node.parent = some p ∧ n ∈ t.children p) := by
  obtain ⟨parent, part, hpart, hplace⟩ :=
    h.exists_holds hsize (Array.getElem?_eq_some_iff.mp hnode).1
  obtain ⟨span, hnode'⟩ := hpart.node?
  obtain rfl := Option.some.inj (hnode.symm.trans hnode')
  exact ⟨part, hpart, rfl, hplace⟩

/-- What is below a node has it for an ancestor, and the other way round. -/
theorem Holds.mem_descendants_iff (hpart : t.Holds parent n o) {m : Nat} (hm : m < t.size) :
    m ∈ t.descendants n ↔ m = n ∨ n ∈ t.ancestors m := by
  have htrivial := Outline.everywhere_of_forall (P := fun _ => True) (fun _ => trivial) o
  rw [hpart.descendants, List.mem_range'_1]
  induction m using Nat.strongRecOn with
  | ind m ih =>
    constructor
    · rintro ⟨hn, hend⟩
      obtain ⟨parent', part, hholds, -, -, ⟨rfl, -⟩ | ⟨p, rfl, hnp, hp, -⟩⟩ :=
        hpart.exists_part htrivial hn hend
      · exact .inl rfl
      · obtain ⟨span, hnode⟩ := hholds.node?
        rw [ancestors_of_parent hnode rfl hp, List.mem_cons]
        exact .inr (((ih p hp (by omega)).mp ⟨hnp, by omega⟩).imp_left Eq.symm)
    · intro hplace
      rcases hplace with rfl | hplace
      · have hpos := o.size_pos
        omega
      · obtain ⟨parent', part, hholds, ⟨-, rfl⟩ | ⟨p, hp, rfl, hmem⟩⟩ := h.exists_holds hsize hm
        · obtain ⟨span, hnode⟩ := hholds.node?
          rw [ancestors_of_no_parent hnode rfl] at hplace
          exact absurd hplace List.not_mem_nil
        · obtain ⟨span, hnode⟩ := hholds.node?
          rw [ancestors_of_parent hnode rfl hp, List.mem_cons] at hplace
          -- the parent is below the node, so its outline is a part of that of the node
          obtain ⟨hnp, hpend⟩ := (ih p hp (by omega)).mpr (hplace.imp_left Eq.symm)
          obtain ⟨_, above, habove, -, hend, -⟩ := hpart.exists_part htrivial hnp hpend
          rw [habove.children_eq] at hmem
          have hbounds := bounds_of_mem_siblingIndices hmem
          cases above with
          | node kind span children =>
            rw [Outline.size] at hend
            rw [Outline.children] at hbounds
            omega

theorem Holds.getLast?_ancestors (hn : n < t.size) (hne : n ≠ root) :
    (t.ancestors n).getLast? = some root := by
  induction n using Nat.strongRecOn with
  | ind n ih =>
    obtain ⟨parent, part, hpart, ⟨rfl, -⟩ | ⟨p, hp, rfl, -⟩⟩ := h.exists_holds hsize hn
    · exact absurd rfl hne
    · obtain ⟨span, hnode⟩ := hpart.node?
      rw [ancestors_of_parent hnode rfl hp]
      by_cases hroot : p = root
      · subst hroot
        obtain ⟨span', hfirst⟩ := h.node?
        rw [ancestors_of_no_parent hfirst rfl, List.getLast?_singleton]
      · rw [List.getLast?_cons, ih p hp (Nat.lt_trans hp hn) hroot, Option.getD_some]

/-- The nodes of an outline of a module stand in pre-order. -/
theorem Holds.isPreOrder {name : Option String} {isOpen : Bool}
    (hkind : whole.kind = .module name isOpen) : t.IsPreOrder where
  root := by
    obtain ⟨span, hnode⟩ := h.node?
    exact ⟨_, name, isOpen, hnode, hkind, rfl⟩
  parent n node hnode hn := by
    obtain ⟨part, hpart, -, ⟨rfl, -⟩ | ⟨p, hp, hparent, hmem⟩⟩ :=
      h.exists_holds_of_node? hsize hnode
    · exact absurd rfl hn
    · refine ⟨p, hp, hparent, List.count_eq_one_of_mem ?_ hmem⟩
      have hlt : n < t.size := (Array.getElem?_eq_some_iff.mp hnode).1
      obtain ⟨_, above, habove, -⟩ := h.exists_holds hsize (Nat.lt_trans hp hlt)
      rw [habove.children_eq]
      exact (pairwise_siblingIndices _ _).imp Nat.ne_of_lt
  ascending n node hnode := by
    obtain ⟨part, -, hchildren, -⟩ := h.exists_holds_of_node? hsize hnode
    rw [hchildren]
    exact pairwise_siblingIndices _ _
  child n node hnode c hc := by
    obtain ⟨part, hpart, hchildren, -⟩ := h.exists_holds_of_node? hsize hnode
    rw [hchildren] at hc
    obtain ⟨o, -, ho⟩ := hpart.children.exists_holds hc
    obtain ⟨span, hchild⟩ := ho.node?
    exact ⟨_, hchild, rfl⟩
  range n hn := by
    obtain ⟨parent, part, hpart, -⟩ := h.exists_holds hsize hn
    exact ⟨part.size, part.size_pos, hpart.add_size_le, hpart.descendants⟩
  below n hn m hm := by
    obtain ⟨parent, part, hpart, -⟩ := h.exists_holds hsize hn
    exact h.mem_descendants_iff hsize hpart hm
  all := by
    rw [h.descendants, hsize, indices, List.range_eq_range', Tree.root]
  ancestors n hn hne := h.getLast?_ancestors hsize hn hne

end Whole

/-- What is listed as a child has the node for its parent. -/
theorem IsPreOrder.parent?_of_mem_children (h : t.IsPreOrder) {c : Nat} (hc : c ∈ t.children n) :
    ∃ hlt : n < c, t.parent? c = some ⟨n, hlt⟩ := by
  obtain ⟨node, hnode, hmem⟩ : ∃ node, t.node? n = some node ∧ c ∈ node.children := by
    rw [children] at hc
    split at hc
    · next node hnode => exact ⟨node, hnode, hc⟩
    · cases hc
  obtain ⟨child, hchild, hparent⟩ := h.child n node hnode c hmem
  have hne : c ≠ Tree.root := by
    rintro rfl
    obtain ⟨first, -, -, hfirst, -, hnone⟩ := h.root
    obtain rfl := Option.some.inj (hfirst.symm.trans hchild)
    rw [hnone] at hparent
    cases hparent
  obtain ⟨p, hlt, hp, -⟩ := h.parent c child hchild hne
  obtain rfl := Option.some.inj (hparent.symm.trans hp)
  exact ⟨hlt, parent?_of_parent hchild hparent hlt⟩

end Tree

/-- The tree of a description stands in pre-order. -/
theorem Source.Module.isPreOrder_treeAs (m : Source.Module) (id : ModuleId) (version : Nat) :
    (m.treeAs id version).IsPreOrder :=
  (Tree.holds_tree m.outline id version).isPreOrder (Outline.size_tree _ _ _).symm rfl

end PklAnalysis
