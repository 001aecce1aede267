import PklAnalysis.Proofs.Source.OffsetQueries

/-!
# Declarations with places

A description may say of its declarations and imports where they stand in a text, and then these
places are their spans.  The module and all expressions never have places of their own: they stand
where the cursor passes, which knows nothing of the text.  So a query for an offset in the place of
a declaration finds the declaration, or something below it, only if the offset also lies among the
positions of the module, two for each node, and no earlier sibling happens to cover it.
-/

namespace PklAnalysis

/-- The sub-outlines of an outline whose first node has an index, with the indices of their own
first nodes. -/
def Outline.numbered (n : Nat) (o : Outline) : List (Nat × Outline) :=
  (siblingIndices (n + 1) o.children).zip o.children

namespace Tree

variable {t : Tree} {parent : Option Nat} {p n c : Nat} {o q : Outline} {os : List Outline}

theorem HoldsAll.of_mem_zip (h : t.HoldsAll p n os)
    (hc : (c, q) ∈ (Outline.siblingIndices n os).zip os) : t.Holds (some p) c q := by
  induction os generalizing n with
  | nil => cases hc
  | cons o os ih =>
    rw [Outline.siblingIndices, List.zip_cons_cons] at hc
    rcases List.mem_cons.mp hc with heq | hc
    · obtain ⟨rfl, rfl⟩ := Prod.mk.inj heq
      exact h.head
    · exact ih h.tail hc

/-- The sub-outlines of an outline stand at the children of its first node. -/
theorem Holds.of_mem_numbered (h : t.Holds parent n o) (hc : (c, q) ∈ o.numbered n) :
    c ∈ t.children n ∧ t.Holds (some n) c q := by
  refine ⟨?_, h.children.of_mem_zip hc⟩
  rw [h.children_eq]
  exact (List.of_mem_zip hc).1

theorem Holds.span_eq_of_placed (h : t.Holds parent n o) {s : Span} (hs : o.span = some s) :
    t.span n = s := by
  obtain ⟨cursor, h⟩ := holds_iff.mp h
  rw [h.span_eq, Outline.placeFrom, hs, Option.getD_some]

end Tree

namespace Source

/-- The declarations and imports of a description and the members of its classes, with the indices
of their nodes. -/
inductive Module.HasPart (m : Module) : Nat → Outline → Prop
  | topLevel {n : Nat} {o : Outline} (h : (n, o) ∈ m.outline.numbered Tree.root) : HasPart m n o
  | member {n k : Nat} {o q : Outline} {header : ClassHeader}
      (h : (n, o) ∈ m.outline.numbered Tree.root) (hclass : o.kind = .class header)
      (hmember : (k, q) ∈ o.numbered n) : HasPart m k q

/-- The places that a description gives are not empty, those of different top-level declarations and
imports have no offset in common, and those of the members of a class lie within the class. -/
structure Module.IsWellPlaced (m : Module) (t : Tree) : Prop where
  nonempty : ∀ n o, m.HasPart n o → ∀ s ∈ o.span, s.isEmpty = false
  apart : ∀ n o, (n, o) ∈ m.outline.numbered Tree.root →
    ∀ b q, (b, q) ∈ m.outline.numbered Tree.root → b ≠ n → ∀ s ∈ o.span, ∀ s' ∈ q.span,
      ∀ offset, ¬(s.contains offset = true ∧ s'.contains offset = true)
  nested : ∀ n o header, (n, o) ∈ m.outline.numbered Tree.root → o.kind = .class header →
    ∀ k q, (k, q) ∈ o.numbered n → ∀ s ∈ q.span,
      (t.span n).start ≤ s.start ∧ s.stop ≤ (t.span n).stop

section

variable (m : Module) (id : ModuleId) (version : Nat) {n k offset : Nat} {o q : Outline}

theorem Module.holds_treeAs : (m.treeAs id version).Holds none Tree.root m.outline :=
  Tree.holds_tree m.outline id version

/-- The module covers two positions for each node. -/
theorem Module.span_root_treeAs :
    (m.treeAs id version).span Tree.root = ⟨0, 2 * (m.treeAs id version).size⟩ := by
  have hroot : (m.treeAs id version).HoldsAt none Tree.root 0 m.outline :=
    Tree.holdsAt_tree m.outline id version
  have hsize : (m.treeAs id version).size = m.outline.size := Outline.size_tree m.outline id version
  have hspan : m.outline.span = none := rfl
  rw [hroot.span_eq, hsize, Outline.placeFrom, hspan, Option.getD_none, Nat.zero_add]

theorem Module.starts_treeAs_iff :
    (m.treeAs id version).Starts offset ↔ offset < 2 * (m.treeAs id version).size := by
  have hpos := (m.isPreOrder_treeAs id version).root_lt_size
  rw [Tree.Starts, m.span_root_treeAs, Span.contains_iff, Span.isEmpty, decide_eq_true_eq]
  dsimp only
  omega

variable {m}

/-- A part stands in the tree below the module, and a member below its class. -/
theorem Module.HasPart.holds (h : m.HasPart n o) : n < (m.treeAs id version).size ∧
    ∃ parent, (m.treeAs id version).Holds parent n o := by
  have hroot := m.holds_treeAs id version
  cases h with
  | topLevel h =>
    obtain ⟨hn, hholds⟩ := hroot.of_mem_numbered h
    exact ⟨((m.isPreOrder_treeAs id version).lt_of_mem_children hn).2, _, hholds⟩
  | member h _ hmember =>
    obtain ⟨-, hclass⟩ := hroot.of_mem_numbered h
    obtain ⟨hn, hholds⟩ := hclass.of_mem_numbered hmember
    exact ⟨((m.isPreOrder_treeAs id version).lt_of_mem_children hn).2, _, hholds⟩

/-- What lies in the place of a part lies in the part and in its class. -/
theorem Module.IsWellPlaced.contains_of_mem_ancestors (hm : m.IsWellPlaced (m.treeAs id version))
    (hpart : m.HasPart n o) {s : Span} (hs : o.span = some s) (hoffset : s.contains offset = true)
    {c : Nat} (hc : c ∈ n :: (m.treeAs id version).ancestors n) (hne : c ≠ Tree.root) :
    ((m.treeAs id version).span c).contains offset = true := by
  have horder := m.isPreOrder_treeAs id version
  have hroot := m.holds_treeAs id version
  obtain ⟨-, parent, hholds⟩ := hpart.holds id version
  rcases List.mem_cons.mp hc with rfl | hc
  · rwa [hholds.span_eq_of_placed hs]
  · cases hpart with
    | topLevel h =>
      rw [horder.ancestors_of_mem_children (hroot.of_mem_numbered h).1, horder.ancestors_root] at hc
      exact absurd (List.mem_singleton.mp hc) hne
    | member h hkind hmember =>
      obtain ⟨hn, hclass⟩ := hroot.of_mem_numbered h
      rw [horder.ancestors_of_mem_children (hclass.of_mem_numbered hmember).1,
        horder.ancestors_of_mem_children hn, horder.ancestors_root] at hc
      rcases List.mem_cons.mp hc with rfl | hc
      · obtain ⟨hstart, hstop⟩ := hm.nested _ _ _ h hkind _ _ hmember s hs
        rw [Span.contains_iff] at hoffset ⊢
        omega
      · exact absurd (List.mem_singleton.mp hc) hne

/-- Only a sibling without a place hides a top-level declaration at an offset in its place. -/
theorem Module.IsWellPlaced.unplaced_of_hides (hm : m.IsWellPlaced (m.treeAs id version))
    (hn : (n, o) ∈ m.outline.numbered Tree.root) (hk : (k, q) ∈ m.outline.numbered Tree.root)
    {s : Span} (hs : o.span = some s) (hoffset : s.contains offset = true)
    (hhides : (m.treeAs id version).Hides offset k n) : q.span = none := by
  by_contra hplaced
  obtain ⟨s', hs'⟩ := Option.ne_none_iff_exists'.mp hplaced
  have hcontains := hhides.contains
  rw [((m.holds_treeAs id version).of_mem_numbered hk).2.span_eq_of_placed hs'] at hcontains
  exact hm.apart n o hn k q hk (Nat.ne_of_lt hhides.before) s hs s' hs' offset ⟨hoffset, hcontains⟩

end

/-- In a description with well-chosen places, a query for an offset in the place of a declaration or
an import finds this or something below it exactly if the offset lies among the positions of the
module, two for each node, and neither the declaration nor, if it is a member, its class is hidden by
an earlier sibling.  Only siblings without places hide a top-level declaration. -/
theorem Module.exists_nodeAt?_placed_iff (m : Module) (id : ModuleId) (version : Nat)
    (hm : m.IsWellPlaced (m.treeAs id version)) {n offset : Nat} {o : Outline} {s : Span}
    (hpart : m.HasPart n o) (hs : o.span = some s) (hoffset : s.contains offset = true) :
    ((∃ k ∈ (m.treeAs id version).descendants n, (m.treeAs id version).nodeAt? offset = some k) ↔
      offset < 2 * (m.treeAs id version).size ∧
        ∀ c ∈ n :: (m.treeAs id version).ancestors n, ∀ b,
          ¬(m.treeAs id version).Hides offset b c) ∧
    ∀ b q, (n, o) ∈ m.outline.numbered Tree.root → (b, q) ∈ m.outline.numbered Tree.root →
      (m.treeAs id version).Hides offset b n → q.span = none := by
  have horder := m.isPreOrder_treeAs id version
  obtain ⟨hsize, -⟩ := hpart.holds id version
  refine ⟨?_, fun b q hn hb hhides => hm.unplaced_of_hides id version hn hb hs hoffset hhides⟩
  rw [horder.exists_nodeAt?_iff hsize, m.starts_treeAs_iff, horder.passesThrough_iff hsize]
  apply and_congr_right
  intro _
  constructor
  · intro hpass c hc b hhides
    apply (hpass c hc ?_).2 b hhides
    -- the first node is no child and has no siblings
    rintro rfl
    obtain ⟨p, -, hchild⟩ := hhides.siblings
    exact absurd (horder.lt_of_mem_children hchild).1 (Nat.not_lt_zero p)
  · intro hhidden c hc hne
    exact ⟨hm.contains_of_mem_ancestors id version hpart hs hoffset hc hne, hhidden c hc⟩

/-! ## A class with a property -/

/-- A property in a class, both with their places, and nothing else. -/
def flock (inner : Span) : Property := ⟨"flock", none, [], some (.ident "birds"), none, some inner⟩

def aviaryClass (outer inner : Span) : Class :=
  ⟨"Aviary", [], none, [], [flock inner], [], some outer⟩

def aviary (outer inner : Span) : Module where
  uri := "file:///w/aviary.pkl"
  name := none
  isOpen := false
  amends := none
  superModule := none
  imports := []
  classes := [aviaryClass outer inner]
  aliases := []
  properties := []
  methods := []

section

variable {outer inner : Span} {n : Nat} {o : Outline}

theorem mem_numbered_aviary : (n, o) ∈ (aviary outer inner).outline.numbered Tree.root ↔
    (n, o) = (1, classOutline (aviaryClass outer inner)) := List.mem_singleton

theorem mem_numbered_aviaryClass :
    (n, o) ∈ (classOutline (aviaryClass outer inner)).numbered 1 ↔
      (n, o) = (2, propertyOutline (flock inner)) := List.mem_singleton

theorem hasPart_flock : (aviary outer inner).HasPart 2 (propertyOutline (flock inner)) :=
  .member (mem_numbered_aviary.mpr rfl) rfl (mem_numbered_aviaryClass.mpr rfl)

variable (outer inner) in
/-- The places are well chosen if that of the property lies within that of the class. -/
theorem isWellPlaced_aviary (hinner : inner.start < inner.stop)
    (hnested : outer.start ≤ inner.start ∧ inner.stop ≤ outer.stop) (id : ModuleId)
    (version : Nat) :
    (aviary outer inner).IsWellPlaced ((aviary outer inner).treeAs id version) where
  nonempty n o hpart s hs := by
    rw [Span.isEmpty, decide_eq_false_iff_not]
    cases hpart with
    | topLevel h =>
      obtain ⟨rfl, rfl⟩ := Prod.mk.inj (mem_numbered_aviary.mp h)
      obtain rfl : outer = s := Option.some.inj hs
      omega
    | member h hkind hmember =>
      obtain ⟨rfl, rfl⟩ := Prod.mk.inj (mem_numbered_aviary.mp h)
      obtain ⟨rfl, rfl⟩ := Prod.mk.inj (mem_numbered_aviaryClass.mp hmember)
      obtain rfl : inner = s := Option.some.inj hs
      omega
  apart n o h b q h' hne := by
    obtain ⟨rfl, rfl⟩ := Prod.mk.inj (mem_numbered_aviary.mp h)
    obtain ⟨rfl, rfl⟩ := Prod.mk.inj (mem_numbered_aviary.mp h')
    exact absurd rfl hne
  nested n o header h hkind k q hmember s hs := by
    obtain ⟨rfl, rfl⟩ := Prod.mk.inj (mem_numbered_aviary.mp h)
    obtain ⟨rfl, rfl⟩ := Prod.mk.inj (mem_numbered_aviaryClass.mp hmember)
    obtain rfl : inner = s := Option.some.inj hs
    exact hnested

end

/-- A small class, within the positions of its module. -/
def nest : Module := aviary ⟨1, 7⟩ ⟨2, 4⟩

/-- A property within the positions of its module is found. -/
theorem exists_nodeAt?_flock : nest.IsWellPlaced (nest.treeAs ⟨nest.uri⟩ 1) ∧
    nest.HasPart 2 (propertyOutline (flock ⟨2, 4⟩)) ∧
      (propertyOutline (flock ⟨2, 4⟩)).span = some ⟨2, 4⟩ ∧ Span.contains ⟨2, 4⟩ 3 = true ∧
        ∃ k ∈ (nest.treeAs ⟨nest.uri⟩ 1).descendants 2,
          (nest.treeAs ⟨nest.uri⟩ 1).nodeAt? 3 = some k := by
  have hplaced : nest.IsWellPlaced (nest.treeAs ⟨nest.uri⟩ 1) :=
    isWellPlaced_aviary ⟨1, 7⟩ ⟨2, 4⟩ (by decide) (by decide) _ _
  have hpart : nest.HasPart 2 (propertyOutline (flock ⟨2, 4⟩)) := hasPart_flock
  have hoffset : Span.contains ⟨2, 4⟩ 3 = true := by decide
  refine ⟨hplaced, hpart, rfl, hoffset, ?_⟩
  apply (nest.exists_nodeAt?_placed_iff ⟨nest.uri⟩ 1 hplaced hpart rfl hoffset).1.mpr
  refine ⟨by decide, ?_⟩
  rintro c - b ⟨hlt, ⟨p, hb, hc⟩, -⟩
  have hsmall : ∀ p < 4, ∀ b ∈ (nest.treeAs ⟨nest.uri⟩ 1).children p,
      ∀ c ∈ (nest.treeAs ⟨nest.uri⟩ 1).children p, ¬b < c := by decide
  obtain ⟨hpc, hsize⟩ := (nest.isPreOrder_treeAs ⟨nest.uri⟩ 1).lt_of_mem_children hc
  exact hsmall p (Nat.lt_trans hpc hsize) b hb c hc hlt

/-- A property beyond the positions of its module, two for each node, is not found. -/
theorem not_forall_exists_nodeAt? : ¬∀ (m : Module) (id : ModuleId) (version : Nat),
    m.IsWellPlaced (m.treeAs id version) → ∀ n o s offset, m.HasPart n o → o.span = some s →
      s.contains offset = true →
        ∃ k ∈ (m.treeAs id version).descendants n,
          (m.treeAs id version).nodeAt? offset = some k := by
  intro h
  obtain ⟨k, -, hfound⟩ := h (aviary ⟨100, 200⟩ ⟨120, 140⟩) ⟨"file:///w/aviary.pkl"⟩ 1
    (isWellPlaced_aviary _ _ (by decide) (by decide) _ _) 2 _ ⟨120, 140⟩ 130 hasPart_flock rfl
    (by decide)
  have hnone : ((aviary ⟨100, 200⟩ ⟨120, 140⟩).treeAs ⟨"file:///w/aviary.pkl"⟩ 1).nodeAt? 130
      = none := by decide
  exact nomatch hfound.symm.trans hnone

end Source

end PklAnalysis
