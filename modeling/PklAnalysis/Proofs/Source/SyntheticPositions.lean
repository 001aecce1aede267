import PklAnalysis.Proofs.Source.OffsetQueries

/-!
# Positions of nodes without places

Where a description says of no declaration where it stands, each node covers the positions from
where the cursor is when it opens to where the cursor is when it closes.  The nodes below it open and
close in between, one after the other.  So the spans of the tree are nested, and a query for an
offset finds the innermost node that contains it; at the start of a node it finds this node.
-/

namespace PklAnalysis

/-- The first node of an outline has no known span. -/
def Outline.IsUnplaced (o : Outline) : Prop := o.span = none

theorem Outline.IsUnplaced.placeFrom_eq {o : Outline} (h : o.IsUnplaced) (cursor : Nat) :
    o.placeFrom cursor = ⟨cursor, cursor + 2 * o.size⟩ := by
  rw [placeFrom, h, Option.getD_none]

namespace Tree

variable {t : Tree} {parent : Option Nat} {p n c cursor : Nat} {o : Outline} {os : List Outline}

/-- Siblings without known spans lie between the positions at which the first one opens and the last
one closes. -/
theorem HoldsAllAt.between (h : t.HoldsAllAt p n cursor os) (hos : ∀ o ∈ os, o.IsUnplaced)
    (hc : c ∈ Outline.siblingIndices n os) :
    cursor ≤ (t.span c).start ∧ (t.span c).stop ≤ cursor + 2 * Outline.sizeOfAll os := by
  induction os generalizing n cursor with
  | nil => exact absurd hc List.not_mem_nil
  | cons o os ih =>
    obtain ⟨ho, hrest⟩ := List.forall_mem_cons.mp hos
    rw [Outline.sizeOfAll]
    rcases List.mem_cons.mp hc with rfl | hc
    · rw [h.head.span_eq, ho.placeFrom_eq]
      dsimp only
      omega
    · have hbetween := ih h.tail hrest hc
      omega

/-- Siblings without known spans stand one after the other. -/
theorem HoldsAllAt.pairwise (h : t.HoldsAllAt p n cursor os) (hos : ∀ o ∈ os, o.IsUnplaced) :
    (Outline.siblingIndices n os).Pairwise fun b c => (t.span b).stop ≤ (t.span c).start := by
  induction os generalizing n cursor with
  | nil => exact .nil
  | cons o os ih =>
    obtain ⟨ho, hrest⟩ := List.forall_mem_cons.mp hos
    refine .cons ?_ (ih h.tail hrest)
    intro c hc
    rw [h.head.span_eq, ho.placeFrom_eq]
    exact (h.tail.between hrest hc).1

theorem lt_size_of_mem_children (hc : c ∈ t.children n) : n < t.size := by
  by_contra hn
  have hnone : t.node? n = none := Array.getElem?_eq_none (Nat.le_of_not_lt hn)
  rw [children, hnone] at hc
  cases hc

end Tree

section

variable {o : Outline}

/-- At each index of a numbered outline a part of it opens at some position. -/
theorem Outline.Everywhere.exists_holdsAt {P : Outline → Prop} (h : o.Everywhere P) (id : ModuleId)
    (version : Nat) {n : Nat} (hn : n < (o.tree id version).size) :
    ∃ parent cursor part, (o.tree id version).HoldsAt parent n cursor part ∧ part.Everywhere P := by
  rw [Outline.size_tree] at hn
  obtain ⟨parent, part, hpart, heverywhere, -⟩ := (Tree.holds_tree o id version).exists_part h
    n.zero_le (by rwa [Tree.root, Nat.zero_add])
  obtain ⟨cursor, hpart⟩ := Tree.holds_iff.mp hpart
  exact ⟨parent, cursor, part, hpart, heverywhere⟩

/-- Without known spans the spans of a numbered outline are nested. -/
theorem Outline.Everywhere.isNested_tree (h : o.Everywhere IsUnplaced) (id : ModuleId)
    (version : Nat) : (o.tree id version).IsNested where
  nonempty n hn := by
    obtain ⟨parent, cursor, part, hpart, hunplaced⟩ := h.exists_holdsAt id version hn
    have hpos := part.size_pos
    rw [hpart.span_eq, hunplaced.self.placeFrom_eq]
    dsimp only
    omega
  inside n c hc := by
    obtain ⟨parent, cursor, part, hpart, hunplaced⟩ :=
      h.exists_holdsAt id version (Tree.lt_size_of_mem_children hc)
    rw [hpart.children_eq] at hc
    have hbetween :=
      hpart.children.between (fun o ho => (hunplaced.children o ho).self) hc
    rw [hpart.span_eq, hunplaced.self.placeFrom_eq]
    cases part with
    | node kind span children =>
      rw [Outline.children] at hbetween
      rw [Outline.size]
      dsimp only
      omega
  apart n := by
    by_cases hn : n < (o.tree id version).size
    · obtain ⟨parent, cursor, part, hpart, hunplaced⟩ := h.exists_holdsAt id version hn
      rw [hpart.children_eq]
      exact hpart.children.pairwise fun o ho => (hunplaced.children o ho).self
    · have hnone : (o.tree id version).children n = [] :=
        List.eq_nil_iff_forall_not_mem.mpr fun c hc => hn (Tree.lt_size_of_mem_children hc)
      rw [hnone]
      exact .nil

end

namespace Source

/-! ## Expressions have no places -/

section

variable {P : Outline → Prop} (h : ∀ kind children, P (.node kind none children))

include h

theorem everywhere_parameterOutlines (ps : List Binding) :
    ∀ o ∈ parameterOutlines ps, o.Everywhere P :=
  List.forall_mem_map.mpr fun _ _ => .node (h _ _) (List.forall_mem_nil _)

-- three of the functions below use `h` in their calls of the others only
set_option linter.unusedSectionVars false in
mutual

/-- What holds of all nodes without a known span holds everywhere in an expression. -/
theorem everywhere_exprOutline (e : Expr) : (exprOutline e).Everywhere P := by
  cases e with
  | string | int | float | boolean | null | ident | this | module | importExpr =>
    exact .node (h _ _) (List.forall_mem_nil _)
  | access receiver name nullSafe =>
    exact .node (h _ _) (List.forall_mem_singleton.mpr (everywhere_exprOutline receiver))
  | call receiver name args =>
    exact .node (h _ _) (List.forall_mem_append.mpr
      ⟨everywhere_receiverOutline receiver, everywhere_exprOutlines args⟩)
  | letIn name type value body =>
    exact .node (h _ _) (List.forall_mem_cons.mpr
      ⟨everywhere_exprOutline value, List.forall_mem_singleton.mpr (everywhere_exprOutline body)⟩)
  | lambda params body =>
    exact .node (h _ _) (List.forall_mem_append.mpr ⟨everywhere_parameterOutlines h params,
      List.forall_mem_singleton.mpr (everywhere_exprOutline body)⟩)
  | new type body =>
    exact .node (h _ _) (List.forall_mem_singleton.mpr
      (.node (h _ _) (everywhere_memberOutlines body)))
  | amend parent body =>
    exact .node (h _ _) (List.forall_mem_cons.mpr ⟨everywhere_exprOutline parent,
      List.forall_mem_singleton.mpr (.node (h _ _) (everywhere_memberOutlines body))⟩)
  | conditional condition consequent alternative =>
    exact .node (h _ _) (List.forall_mem_cons.mpr ⟨everywhere_exprOutline condition,
      List.forall_mem_cons.mpr ⟨everywhere_exprOutline consequent,
        List.forall_mem_singleton.mpr (everywhere_exprOutline alternative)⟩⟩)
termination_by structural e

theorem everywhere_receiverOutline (e : Option Expr) :
    ∀ o ∈ receiverOutline e, o.Everywhere P := by
  cases e with
  | none => exact List.forall_mem_nil _
  | some e => exact List.forall_mem_singleton.mpr (everywhere_exprOutline e)
termination_by structural e

theorem everywhere_exprOutlines (es : List Expr) : ∀ o ∈ exprOutlines es, o.Everywhere P := by
  cases es with
  | nil => exact List.forall_mem_nil _
  | cons e es =>
    exact List.forall_mem_cons.mpr ⟨everywhere_exprOutline e, everywhere_exprOutlines es⟩
termination_by structural es

theorem everywhere_memberOutline (m : Member) : (memberOutline m).Everywhere P := by
  cases m with
  | property name type value body =>
    cases value with
    | some e => exact .node (h _ _) (List.forall_mem_singleton.mpr (everywhere_exprOutline e))
    | none => exact .node (h _ _) (everywhere_bodyOutline body)
  | element value =>
    exact .node (h _ _) (List.forall_mem_singleton.mpr (everywhere_exprOutline value))
  | entry key value =>
    exact .node (h _ _) (List.forall_mem_cons.mpr ⟨everywhere_exprOutline key,
      List.forall_mem_singleton.mpr (everywhere_exprOutline value)⟩)
  | generator key value iterable body =>
    exact .node (h _ _) (List.forall_mem_cons.mpr ⟨everywhere_exprOutline iterable,
      List.forall_mem_singleton.mpr (.node (h _ _) (everywhere_memberOutlines body))⟩)
  | when condition body otherwise =>
    exact .node (h _ _) (List.forall_mem_cons.mpr ⟨everywhere_exprOutline condition,
      List.forall_mem_cons.mpr ⟨.node (h _ _) (everywhere_memberOutlines body),
        everywhere_bodyOutline otherwise⟩⟩)
termination_by structural m

theorem everywhere_bodyOutline (body : Option (List Member)) :
    ∀ o ∈ bodyOutline body, o.Everywhere P := by
  cases body with
  | none => exact List.forall_mem_nil _
  | some ms =>
    exact List.forall_mem_singleton.mpr (.node (h _ _) (everywhere_memberOutlines ms))
termination_by structural body

theorem everywhere_memberOutlines (ms : List Member) :
    ∀ o ∈ memberOutlines ms, o.Everywhere P := by
  cases ms with
  | nil => exact List.forall_mem_nil _
  | cons m ms =>
    exact List.forall_mem_cons.mpr ⟨everywhere_memberOutline m, everywhere_memberOutlines ms⟩
termination_by structural ms

end

end

/-! ## Descriptions without places -/

/-- No declaration of a description says where it stands, nor does an import. -/
structure Module.IsUnplaced (m : Module) : Prop where
  imports : ∀ i ∈ m.imports, i.span = none
  classes : ∀ c ∈ m.classes, c.span = none ∧ (∀ p ∈ c.properties, p.span = none) ∧
    ∀ f ∈ c.methods, f.span = none
  aliases : ∀ a ∈ m.aliases, a.span = none
  properties : ∀ p ∈ m.properties, p.span = none
  methods : ∀ f ∈ m.methods, f.span = none

theorem isUnplaced_node (kind : NodeKind) (children : List Outline) :
    (Outline.node kind none children).IsUnplaced := rfl

theorem everywhere_propertyOutline {p : Property} (hp : p.span = none) :
    (propertyOutline p).Everywhere Outline.IsUnplaced := by
  refine .node hp ?_
  cases p.value with
  | some e => exact List.forall_mem_singleton.mpr (everywhere_exprOutline isUnplaced_node e)
  | none => exact everywhere_bodyOutline isUnplaced_node p.body

theorem everywhere_methodOutline {m : Method} (hm : m.span = none) :
    (methodOutline m).Everywhere Outline.IsUnplaced :=
  .node hm (List.forall_mem_append.mpr ⟨everywhere_parameterOutlines isUnplaced_node m.params,
    everywhere_receiverOutline isUnplaced_node m.body⟩)

theorem Module.IsUnplaced.everywhere_outline {m : Module} (h : m.IsUnplaced) :
    m.outline.Everywhere Outline.IsUnplaced := by
  have hclause : ∀ o ∈ clauseOutline m, o.Everywhere Outline.IsUnplaced := by
    rw [clauseOutline]
    split
    · exact List.forall_mem_singleton.mpr (.node rfl (List.forall_mem_nil _))
    · exact List.forall_mem_singleton.mpr (.node rfl (List.forall_mem_nil _))
    · exact List.forall_mem_nil _
  have hclass : ∀ c ∈ m.classes, (classOutline c).Everywhere Outline.IsUnplaced := by
    intro c hc
    obtain ⟨hspan, hproperties, hmethods⟩ := h.classes c hc
    refine .node hspan (List.forall_mem_append.mpr ⟨?_, ?_⟩)
    · exact List.forall_mem_map.mpr fun p hp => everywhere_propertyOutline (hproperties p hp)
    · exact List.forall_mem_map.mpr fun f hf => everywhere_methodOutline (hmethods f hf)
  refine .node rfl ?_
  simp only [List.forall_mem_append, List.forall_mem_map]
  refine ⟨⟨⟨⟨⟨hclause, fun i hi => ?_⟩, hclass⟩, fun a ha => ?_⟩, fun p hp => ?_⟩, fun f hf => ?_⟩
  · exact .node (h.imports i hi) (List.forall_mem_nil _)
  · exact .node (h.aliases a ha) (List.forall_mem_nil _)
  · exact everywhere_propertyOutline (h.properties p hp)
  · exact everywhere_methodOutline (h.methods f hf)

/-- Where a description says of nothing where it stands, the spans of its tree are nested: each
child lies strictly within its parent, and siblings follow one another.  A query for an offset finds
the innermost node that contains it, so that at the start of a node it finds this node. -/
theorem Module.nodeAt?_start_treeAs (m : Module) (hm : m.IsUnplaced) (id : ModuleId)
    (version : Nat) :
    (m.treeAs id version).IsNested ∧
      (∀ n < (m.treeAs id version).size,
        (m.treeAs id version).nodeAt? ((m.treeAs id version).span n).start = some n) ∧
      ∀ n < (m.treeAs id version).size, ∀ offset,
        (m.treeAs id version).nodeAt? offset = some n ↔
          ((m.treeAs id version).span n).contains offset = true ∧
            ∀ c ∈ (m.treeAs id version).children n,
              ¬((m.treeAs id version).span c).contains offset = true := by
  have hnested : (m.treeAs id version).IsNested := hm.everywhere_outline.isNested_tree id version
  have horder := m.isPreOrder_treeAs id version
  refine ⟨hnested, ?_, ?_⟩
  · intro n hn
    exact hnested.nodeAt?_start horder hn
  · intro n hn offset
    exact hnested.nodeAt?_eq_some_iff horder hn

/-- A module with a clause, imports, a class and a property whose value nests deeply. -/
def birds : Module where
  uri := "file:///project/birds.pkl"
  name := none
  isOpen := false
  amends := some "base.pkl"
  superModule := none
  imports := [⟨"pkl:json", none, false, none⟩, ⟨"lib/util.pkl", some "u", false, none⟩]
  classes := [⟨"Bird", [], none, [.open],
    [⟨"name", some (.named "String" []), [], none, none, none⟩], [], none⟩]
  aliases := []
  properties := [⟨"flock", none, [], none,
    some [.generator none "b" (.ident "birds") [.element (.ident "b")]], none⟩]
  methods := []

/-- The innermost node of the property is found where it starts. -/
theorem nodeAt?_start_birds : birds.IsUnplaced ∧
    (birds.tree 1).kind? 12 = some (.ident "b") ∧ (birds.tree 1).span 12 = ⟨18, 20⟩ ∧
      (birds.tree 1).nodeAt? 18 = some 12 := by
  have hbirds : birds.IsUnplaced := ⟨by decide, by decide, by decide, by decide, by decide⟩
  have hspan : (birds.tree 1).span 12 = ⟨18, 20⟩ := by decide
  refine ⟨hbirds, by decide, hspan, ?_⟩
  have hfound := (birds.nodeAt?_start_treeAs hbirds ⟨birds.uri⟩ 1).2.1 12 (by decide)
  rwa [← Module.tree, hspan] at hfound

end Source

end PklAnalysis
