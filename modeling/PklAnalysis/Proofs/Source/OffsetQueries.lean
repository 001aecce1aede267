import PklAnalysis.Proofs.Source.PreOrder

/-!
# Queries for offsets

A query for an offset goes down from the module, each time into the first child whose span contains
the offset.  The nodes through which it passes are the node that it finds and the ancestors of that
node, so what it finds lies below a node exactly if it passes through the node.  It passes through a
node if the node and each of its ancestors below the module contain the offset and no earlier
sibling of one of them does.

Nothing of this needs the spans to be nested.  If they are, the query passes through all nodes that
contain the offset.
-/

namespace PklAnalysis

theorem Span.contains_iff {s : Span} {offset : Nat} :
    s.contains offset = true ↔ s.start ≤ offset ∧ offset < s.stop := by
  rw [Span.contains, Bool.and_eq_true, decide_eq_true_eq, decide_eq_true_eq]

namespace Tree

variable {t : Tree} {offset n c p : Nat}

/-! ## The way down -/

/-- The child of a node into which a query for an offset goes. -/
def childAt? (t : Tree) (offset n : Nat) : Option Nat :=
  (t.children n).find? fun c => (t.span c).contains offset

/-- A query for an offset passes through a node. -/
inductive PassesThrough (t : Tree) (offset : Nat) : Nat → Prop
  | root : PassesThrough t offset root
  | child {p c : Nat} (parent : PassesThrough t offset p) (first : t.childAt? offset p = some c) :
      PassesThrough t offset c

/-- A query for an offset starts at all. -/
def Starts (t : Tree) (offset : Nat) : Prop :=
  (t.span root).contains offset = true ∨ (t.span root).isEmpty = true

/-- A node stands in front of a sibling at an offset: it comes before it and contains the offset. -/
structure Hides (t : Tree) (offset b c : Nat) : Prop where
  before : b < c
  siblings : ∃ p, b ∈ t.children p ∧ c ∈ t.children p
  contains : (t.span b).contains offset = true

theorem mem_children_of_childAt? (h : t.childAt? offset p = some c) : c ∈ t.children p :=
  List.mem_of_find?_eq_some h

theorem innermostWithin_succ (h : t.childAt? offset n = some c) (depth : Nat) :
    t.innermostWithin offset (depth + 1) n = t.innermostWithin offset depth c := by
  rw [innermostWithin, ← childAt?, h]

theorem innermostWithin_eq_self (h : t.childAt? offset n = none) (depth : Nat) :
    t.innermostWithin offset depth n = n := by
  cases depth with
  | zero => rfl
  | succ depth => rw [innermostWithin, ← childAt?, h]

theorem mem_ancestors_trans {a b : Nat} (h : a ∈ t.ancestors b) (h' : b ∈ t.ancestors n) :
    a ∈ t.ancestors n := by
  fun_induction t.ancestors n with
  | case1 n p hp ih =>
    rcases List.mem_cons.mp h' with rfl | hb
    · exact List.mem_cons_of_mem _ h
    · exact List.mem_cons_of_mem _ (ih hb)
  | case2 n hn => exact absurd h' List.not_mem_nil

section

variable (h : t.IsPreOrder)

include h

theorem IsPreOrder.root_lt_size : Tree.root < t.size := by
  obtain ⟨node, -, -, hnode, -⟩ := h.root
  exact (Array.getElem?_eq_some_iff.mp hnode).1

theorem IsPreOrder.ancestors_of_mem_children (hc : c ∈ t.children p) :
    t.ancestors c = p :: t.ancestors p := by
  obtain ⟨hlt, hparent⟩ := h.parent?_of_mem_children hc
  rw [Tree.ancestors, hparent]

theorem IsPreOrder.ancestors_root : t.ancestors Tree.root = [] := by
  obtain ⟨node, -, -, hnode, -, hparent⟩ := h.root
  exact ancestors_of_no_parent hnode hparent

theorem IsPreOrder.lt_of_mem_children (hc : c ∈ t.children p) : p < c ∧ c < t.size := by
  obtain ⟨hlt, hparent⟩ := h.parent?_of_mem_children hc
  refine ⟨hlt, ?_⟩
  by_contra hsize
  have hnone : t.node? c = none := Array.getElem?_eq_none (Nat.le_of_not_lt hsize)
  rw [parent?, hnone] at hparent
  cases hparent

theorem IsPreOrder.eq_of_mem_children {q : Nat} (hp : c ∈ t.children p) (hq : c ∈ t.children q) :
    p = q := by
  have hparents := h.ancestors_of_mem_children hp
  rw [h.ancestors_of_mem_children hq] at hparents
  exact (List.cons.inj hparents).1.symm

/-- Each node but the first is a child. -/
theorem IsPreOrder.exists_mem_children (hn : n < t.size) (hne : n ≠ Tree.root) :
    ∃ p < n, n ∈ t.children p := by
  have hnode : t.node? n = some t.nodes[n] := Array.getElem?_eq_getElem hn
  obtain ⟨p, hlt, -, hcount⟩ := h.parent n _ hnode hne
  exact ⟨p, hlt, List.count_pos_iff.mp (by omega)⟩

theorem IsPreOrder.pairwise_children (p : Nat) : (t.children p).Pairwise (· < ·) := by
  rw [children]
  split
  · next node hnode => exact h.ascending p node hnode
  · exact .nil

/-- A query goes into the first child that contains the offset. -/
theorem IsPreOrder.childAt?_eq_some_iff (hc : c ∈ t.children p) : t.childAt? offset p = some c ↔
    (t.span c).contains offset = true ∧ ∀ b, ¬t.Hides offset b c := by
  have hordered := h.pairwise_children p
  rw [childAt?, List.find?_eq_some_iff_append]
  apply and_congr_right
  intro _
  constructor
  · rintro ⟨before, after, hchildren, hbefore⟩ b hb
    obtain ⟨q, hbq, hcq⟩ := hb.siblings
    obtain rfl := h.eq_of_mem_children hc hcq
    -- what is listed behind the child comes after it
    rw [hchildren, List.pairwise_append, List.pairwise_cons] at hordered
    rw [hchildren] at hbq
    rcases List.mem_append.mp hbq with hmem | hmem
    · simpa [hb.contains] using hbefore b hmem
    · rcases List.mem_cons.mp hmem with rfl | hmem
      · exact absurd hb.before (Nat.lt_irrefl _)
      · exact absurd (hordered.2.1.1 b hmem) (Nat.lt_asymm hb.before)
  · intro hhidden
    obtain ⟨before, after, hchildren⟩ := List.append_of_mem hc
    refine ⟨before, after, hchildren, ?_⟩
    intro b hb
    have hbc : b < c := by
      rw [hchildren, List.pairwise_append] at hordered
      exact hordered.2.2 b hb c List.mem_cons_self
    have hbp : b ∈ t.children p := by
      rw [hchildren]
      exact List.mem_append_left _ hb
    have hnot : ¬(t.span b).contains offset = true := fun hcontains =>
      hhidden b ⟨hbc, ⟨p, hbp, hc⟩, hcontains⟩
    simpa using hnot

/-! ## The nodes passed through -/

theorem IsPreOrder.passesThrough_child_iff (hc : c ∈ t.children p) : t.PassesThrough offset c ↔
    t.PassesThrough offset p ∧ t.childAt? offset p = some c := by
  constructor
  · intro hpass
    cases hpass with
    | root => exact absurd (h.lt_of_mem_children hc).1 (Nat.not_lt_zero p)
    | child hparent hfirst =>
      obtain rfl := h.eq_of_mem_children hc (mem_children_of_childAt? hfirst)
      exact ⟨hparent, hfirst⟩
  · rintro ⟨hparent, hfirst⟩
    exact .child hparent hfirst

/-- A query passes through a node if the node and its ancestors below the first node contain the
offset and are not hidden by earlier siblings. -/
theorem IsPreOrder.passesThrough_iff (hn : n < t.size) : t.PassesThrough offset n ↔
    ∀ c ∈ n :: t.ancestors n, c ≠ Tree.root →
      (t.span c).contains offset = true ∧ ∀ b, ¬t.Hides offset b c := by
  induction n using Nat.strongRecOn with
  | ind n ih =>
    by_cases hroot : n = Tree.root
    · subst hroot
      rw [h.ancestors_root]
      refine iff_of_true .root ?_
      intro c hc hne
      exact absurd (List.mem_singleton.mp hc) hne
    · obtain ⟨p, hlt, hp⟩ := h.exists_mem_children hn hroot
      rw [h.passesThrough_child_iff hp, h.childAt?_eq_some_iff hp, h.ancestors_of_mem_children hp,
        List.forall_mem_cons, ih p hlt (Nat.lt_trans hlt hn), and_comm]
      exact and_congr_left' ⟨fun hgood _ => hgood, fun hgood => hgood hroot⟩

/-- A query that passes through a node passes through its ancestors. -/
theorem IsPreOrder.passesThrough_of_mem_ancestors {a : Nat} (hn : t.PassesThrough offset n)
    (ha : a ∈ t.ancestors n) : t.PassesThrough offset a := by
  induction hn with
  | root =>
    rw [h.ancestors_root] at ha
    exact absurd ha List.not_mem_nil
  | child hparent hfirst ih =>
    rw [h.ancestors_of_mem_children (mem_children_of_childAt? hfirst)] at ha
    rcases List.mem_cons.mp ha with rfl | ha
    · exact hparent
    · exact ih ha

/-- From each node that it passes through the query has enough levels left to reach the bottom. -/
theorem IsPreOrder.exists_depth (hn : t.PassesThrough offset n) :
    n < t.size ∧ ∃ depth, t.size ≤ n + depth ∧
      t.innermostWithin offset t.size Tree.root = t.innermostWithin offset depth n := by
  induction hn with
  | root => exact ⟨h.root_lt_size, t.size, Nat.le_add_left _ _, rfl⟩
  | @child p c _ hfirst ih =>
    obtain ⟨hp, depth, hdepth, heq⟩ := ih
    obtain ⟨hlt, hsize⟩ := h.lt_of_mem_children (mem_children_of_childAt? hfirst)
    obtain ⟨depth, rfl⟩ := Nat.exists_eq_add_of_lt (by omega : 0 < depth)
    rw [Nat.zero_add, innermostWithin_succ hfirst] at heq
    exact ⟨hsize, depth, by omega, heq⟩

/-- From a node on, the query goes down to a node from which it goes no further. -/
theorem IsPreOrder.innermostWithin_spec {depth : Nat} (hn : t.PassesThrough offset n)
    (hsize : n < t.size) (hdepth : t.size ≤ n + depth) :
    t.PassesThrough offset (t.innermostWithin offset depth n) ∧
      t.childAt? offset (t.innermostWithin offset depth n) = none ∧
      (t.innermostWithin offset depth n = n ∨
        n ∈ t.ancestors (t.innermostWithin offset depth n)) := by
  induction depth generalizing n with
  | zero => omega
  | succ depth ih =>
    cases hfirst : t.childAt? offset n with
    | none =>
      rw [innermostWithin_eq_self hfirst]
      exact ⟨hn, hfirst, .inl rfl⟩
    | some c =>
      have hc := mem_children_of_childAt? hfirst
      obtain ⟨hlt, hcsize⟩ := h.lt_of_mem_children hc
      obtain ⟨hpass, hend, hbelow⟩ := ih (.child hn hfirst) hcsize (by omega)
      rw [innermostWithin_succ hfirst]
      refine ⟨hpass, hend, .inr ?_⟩
      have hmem : n ∈ t.ancestors c := by
        rw [h.ancestors_of_mem_children hc]
        exact List.mem_cons_self
      rcases hbelow with heq | hbelow
      · rwa [heq]
      · exact mem_ancestors_trans hmem hbelow

/-! ## What a query finds -/

/-- A query finds the node through which it passes and from which it goes no further. -/
theorem IsPreOrder.nodeAt?_eq_some_iff : t.nodeAt? offset = some n ↔
    t.Starts offset ∧ t.PassesThrough offset n ∧ t.childAt? offset n = none := by
  have hstarts : (!(t.span Tree.root).contains offset && !(t.span Tree.root).isEmpty) = true ↔
      ¬t.Starts offset := by
    simp [Starts]
  rw [nodeAt?]
  by_cases hstart : t.Starts offset
  · rw [if_neg (mt hstarts.mp (not_not_intro hstart)), Option.some_inj, and_iff_right hstart]
    constructor
    · rintro rfl
      obtain ⟨hpass, hend, -⟩ :=
        h.innermostWithin_spec .root h.root_lt_size (Nat.le_add_left t.size Tree.root)
      exact ⟨hpass, hend⟩
    · rintro ⟨hpass, hend⟩
      obtain ⟨-, depth, -, heq⟩ := h.exists_depth hpass
      rw [heq, innermostWithin_eq_self hend]
  · rw [if_pos (hstarts.mpr hstart)]
    exact iff_of_false (Option.some_ne_none n).symm fun hfound => hstart hfound.1

/-- What a query finds lies below a node exactly if the query passes through the node. -/
theorem IsPreOrder.exists_nodeAt?_iff (hn : n < t.size) :
    (∃ k ∈ t.descendants n, t.nodeAt? offset = some k) ↔
      t.Starts offset ∧ t.PassesThrough offset n := by
  constructor
  · rintro ⟨k, hk, hfound⟩
    obtain ⟨hstart, hpass, -⟩ := h.nodeAt?_eq_some_iff.mp hfound
    refine ⟨hstart, ?_⟩
    rcases (h.below n hn k (h.exists_depth hpass).1).mp hk with rfl | hmem
    · exact hpass
    · exact h.passesThrough_of_mem_ancestors hpass hmem
  · rintro ⟨hstart, hpass⟩
    obtain ⟨-, depth, hdepth, -⟩ := h.exists_depth hpass
    obtain ⟨hfound, hend, hbelow⟩ := h.innermostWithin_spec hpass hn hdepth
    refine ⟨t.innermostWithin offset depth n, ?_, h.nodeAt?_eq_some_iff.mpr ⟨hstart, hfound, hend⟩⟩
    exact (h.below n hn _ (h.exists_depth hfound).1).mpr hbelow

end

/-! ## Nested spans -/

theorem rel_of_lt {l : List Nat} {r : Nat → Nat → Prop} {b : Nat} (hordered : l.Pairwise (· < ·))
    (h : l.Pairwise r) (hb : b ∈ l) (hc : c ∈ l) (hlt : b < c) : r b c := by
  obtain ⟨i, hi, rfl⟩ := List.mem_iff_getElem.mp hb
  obtain ⟨j, hj, rfl⟩ := List.mem_iff_getElem.mp hc
  rw [List.pairwise_iff_getElem] at hordered h
  apply h i j hi hj
  by_contra hle
  rcases Nat.lt_or_eq_of_le (Nat.le_of_not_lt hle) with hji | rfl
  · exact Nat.lt_asymm hlt (hordered j i hj hi hji)
  · exact Nat.lt_irrefl _ hlt

/-- Spans as the text of a module gives them: no node is empty, each child stands strictly within
its parent, and siblings stand one after the other. -/
structure IsNested (t : Tree) : Prop where
  nonempty : ∀ n < t.size, (t.span n).start < (t.span n).stop
  inside : ∀ n, ∀ c ∈ t.children n,
    (t.span n).start < (t.span c).start ∧ (t.span c).stop < (t.span n).stop
  apart : ∀ n, (t.children n).Pairwise fun b c => (t.span b).stop ≤ (t.span c).start

namespace IsNested

variable (h : t.IsNested) (horder : t.IsPreOrder)

include h horder

/-- A node that contains an offset is not hidden by a sibling. -/
theorem not_hides (hc : (t.span c).contains offset = true) (b : Nat) : ¬t.Hides offset b c := by
  rintro ⟨hlt, ⟨p, hb, hcp⟩, hcontains⟩
  have hapart : (t.span b).stop ≤ (t.span c).start :=
    rel_of_lt (r := fun b c => (t.span b).stop ≤ (t.span c).start) (horder.pairwise_children p)
      (h.apart p) hb hcp hlt
  rw [Span.contains_iff] at hc hcontains
  omega

/-- A query for an offset of a node passes through the node. -/
theorem passesThrough_iff (hn : n < t.size) (hroot : (t.span root).contains offset = true) :
    t.PassesThrough offset n ↔ (t.span n).contains offset = true := by
  induction n using Nat.strongRecOn with
  | ind n ih =>
    by_cases hne : n = root
    · subst hne
      exact iff_of_true .root hroot
    · obtain ⟨p, hlt, hp⟩ := horder.exists_mem_children hn hne
      rw [horder.passesThrough_child_iff hp, horder.childAt?_eq_some_iff hp,
        ih p hlt (Nat.lt_trans hlt hn)]
      constructor
      · rintro ⟨-, hcontains, -⟩
        exact hcontains
      · intro hcontains
        refine ⟨?_, hcontains, h.not_hides horder hcontains⟩
        obtain ⟨hstart, hstop⟩ := h.inside p n hp
        rw [Span.contains_iff] at hcontains ⊢
        omega

/-- The first node contains what any node contains. -/
theorem contains_root (hn : n < t.size) (hcontains : (t.span n).contains offset = true) :
    (t.span root).contains offset = true := by
  induction n using Nat.strongRecOn with
  | ind n ih =>
    by_cases hne : n = root
    · rwa [← hne]
    · obtain ⟨p, hlt, hp⟩ := horder.exists_mem_children hn hne
      apply ih p hlt (Nat.lt_trans hlt hn)
      obtain ⟨hstart, hstop⟩ := h.inside p n hp
      rw [Span.contains_iff] at hcontains ⊢
      omega

/-- A query finds the innermost node that contains the offset. -/
theorem nodeAt?_eq_some_iff (hn : n < t.size) : t.nodeAt? offset = some n ↔
    (t.span n).contains offset = true ∧ ∀ c ∈ t.children n, ¬(t.span c).contains offset = true := by
  have hnonempty : ¬(t.span root).isEmpty = true := by
    have hspan := h.nonempty root horder.root_lt_size
    rw [Span.isEmpty, decide_eq_true_eq]
    omega
  rw [horder.nodeAt?_eq_some_iff, Starts, or_iff_left hnonempty, childAt?, List.find?_eq_none,
    ← and_assoc]
  apply and_congr_left'
  constructor
  · rintro ⟨hroot, hpass⟩
    exact (h.passesThrough_iff horder hn hroot).mp hpass
  · intro hcontains
    have hroot := h.contains_root horder hn hcontains
    exact ⟨hroot, (h.passesThrough_iff horder hn hroot).mpr hcontains⟩

/-- At the start of a node a query finds this node. -/
theorem nodeAt?_start (hn : n < t.size) : t.nodeAt? (t.span n).start = some n := by
  rw [h.nodeAt?_eq_some_iff horder hn, Span.contains_iff]
  refine ⟨⟨Nat.le_refl _, h.nonempty n hn⟩, fun c hc hcontains => ?_⟩
  have hinside := h.inside n c hc
  rw [Span.contains_iff] at hcontains
  omega

end IsNested

end Tree

end PklAnalysis
