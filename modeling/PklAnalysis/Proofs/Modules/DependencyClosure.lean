import Mathlib.Data.List.Perm.Basic
import Mathlib.Logic.Relation
import PklAnalysis.Modules.DependencyGraph
import PklAnalysis.Proofs.Modules.BareStore

/-!
# What a dependency graph is built from

A graph is complete for some roots if it has all modules that they reach by references, and for
each of these modules an edge or a broken reference for each of its references.  A module that is
entered because another one refers to it is not walked any more, so `build` is complete only for
roots that are listed in the order `InOrder`.
-/

namespace PklAnalysis.DependencyGraph

/-! ## The references of a store -/

section References

variable (s : Store)

/-- The references of a module that the store holds. -/
def referencesOf (id : ModuleId) : List (String × DependencyKind) :=
  match s.tree? id with
  | some t => references t
  | none => []

/-- A module refers to another one if one of its references leads there. -/
def Refers (a b : ModuleId) : Prop :=
  ∃ r ∈ referencesOf s a, ∃ t, s.find r.1 a = .ok t ∧ t.id = b

theorem refers_iff (a b : ModuleId) : Refers s a b ↔
    ∃ r ∈ referencesOf s a, (s.find r.1 a).toOption.map (·.id) = some b := by
  refine exists_congr fun r => and_congr_right fun _ => ?_
  cases s.find r.1 a <;> simp [Except.toOption]

instance (a b : ModuleId) : Decidable (Refers s a b) := decidable_of_iff' _ (refers_iff s a b)

/-- A module is a root or can be reached from one. -/
def Reached (roots : List ModuleId) (id : ModuleId) : Prop :=
  ∃ root ∈ roots, Relation.ReflTransGen (Refers s) root id

/-- An edge by the modules at its ends. -/
abbrev NamedEdge := Option ModuleId × Option ModuleId × DependencyKind

/-- The edge that a reference stands for, if it leads somewhere. -/
def edgeFor? (id : ModuleId) (r : String × DependencyKind) : Option NamedEdge :=
  match s.find r.1 id with
  | .ok t => some (some id, some t.id, r.2)
  | .error _ => none

/-- The broken reference that a reference stands for, if it leads nowhere. -/
def brokenFor? (id : ModuleId) (r : String × DependencyKind) : Option BrokenReference :=
  match s.find r.1 id with
  | .ok _ => none
  | .error e => some ⟨id, r.1, r.2, e⟩

/-- The edges that a module should have. -/
def edgesOf (id : ModuleId) : List NamedEdge := (referencesOf s id).filterMap (edgeFor? s id)

/-- The broken references that a module should have. -/
def brokenOf (id : ModuleId) : List BrokenReference :=
  (referencesOf s id).filterMap (brokenFor? s id)

end References

/-- The edges of a graph by the modules at their ends. -/
def namedEdges (g : DependencyGraph) : List NamedEdge :=
  g.edges.map fun e => (g.modules[e.source]?, g.modules[e.target]?, e.kind)

/-- A graph has exactly the modules that can be reached from the roots, and one entry for each
reference of theirs. -/
structure IsComplete (s : Store) (roots : List ModuleId) (g : DependencyGraph) : Prop where
  nodup : g.modules.Nodup
  mem_modules : ∀ id, id ∈ g.modules ↔ Reached s roots id
  edges : ∀ id, Reached s roots id → (g.namedEdges.filter (·.1 = some id)).Perm (edgesOf s id)
  broken : ∀ id, Reached s roots id → (g.broken.filter (·.source = id)).Perm (brokenOf s id)
  edges_reached : ∀ e ∈ g.namedEdges, ∃ id, Reached s roots id ∧ e.1 = some id
  broken_reached : ∀ b ∈ g.broken, Reached s roots b.source

/-- Every module with references that is reached is a root, and is listed behind the other reached
modules that refer to it.  The last time that a module is listed counts. -/
def InOrder (s : Store) (roots : List ModuleId) : Prop :=
  ∀ id, Reached s roots id → referencesOf s id ≠ [] →
    id ∈ roots ∧ ∀ source, Reached s roots source → Refers s source id → source ≠ id →
      roots.reverse.idxOf id < roots.reverse.idxOf source

/-! ## The modules and edges of a graph -/

/-- The edges of a graph are between modules that it has. -/
def IsClosed (g : DependencyGraph) : Prop :=
  ∀ e ∈ g.edges, e.source < g.modules.length ∧ e.target < g.modules.length

theorem mem_modules_addModule {g : DependencyGraph} {id a : ModuleId} :
    a ∈ (g.addModule id).modules ↔ a ∈ g.modules ∨ a = id := by
  by_cases h : id ∈ g.modules
  · simp only [addModule, contains, List.contains_eq_mem, h, decide_true, if_true]
    exact ⟨.inl, fun ha => ha.elim (fun h => h) fun e => e ▸ h⟩
  · simp [addModule, contains, h]

theorem nodup_addModule {g : DependencyGraph} (h : g.modules.Nodup) (id : ModuleId) :
    (g.addModule id).modules.Nodup := by
  by_cases hid : id ∈ g.modules
  · simpa [addModule, contains, hid] using h
  · have hne : ∀ a ∈ g.modules, a ≠ id := fun a ha e => hid (e ▸ ha)
    simpa [addModule, contains, hid, List.nodup_append, h] using hne

theorem modules_addModule_extends (g : DependencyGraph) (id : ModuleId) :
    g.modules <+: (g.addModule id).modules := by
  rw [addModule]
  split
  · exact List.prefix_refl _
  · exact List.prefix_append _ _

theorem edges_addModule (g : DependencyGraph) (id : ModuleId) :
    (g.addModule id).edges = g.edges := by
  rw [addModule]
  split <;> rfl

theorem broken_addModule (g : DependencyGraph) (id : ModuleId) :
    (g.addModule id).broken = g.broken := by
  rw [addModule]
  split <;> rfl

theorem IsClosed.addModule {g : DependencyGraph} (h : g.IsClosed) (id : ModuleId) :
    (g.addModule id).IsClosed := by
  intro e he
  rw [edges_addModule] at he
  have hlength := (modules_addModule_extends g id).length_le
  exact ⟨Nat.lt_of_lt_of_le (h e he).1 hlength, Nat.lt_of_lt_of_le (h e he).2 hlength⟩

theorem namedEdges_addModule {g : DependencyGraph} (h : g.IsClosed) (id : ModuleId) :
    (g.addModule id).namedEdges = g.namedEdges := by
  obtain ⟨rest, hrest⟩ := modules_addModule_extends g id
  rw [namedEdges, edges_addModule, ← hrest]
  refine List.map_congr_left fun e he => ?_
  rw [List.getElem?_append_left (h e he).1, List.getElem?_append_left (h e he).2]

/-- A module of a graph has a number, under which it is found. -/
theorem exists_number {g : DependencyGraph} {id : ModuleId} (h : id ∈ g.modules) :
    ∃ n, g.number? id = some n ∧ n < g.modules.length ∧ g.modules[n]? = some id := by
  obtain ⟨n, hn⟩ : ∃ n, g.number? id = some n :=
    Option.isSome_iff_exists.mp (List.findIdx?_isSome.trans (by simpa using h))
  obtain ⟨hlt, hid, -⟩ := List.findIdx?_eq_some_iff_getElem.mp hn
  exact ⟨n, hn, hlt, by simpa [hlt] using hid⟩

/-- An edge between modules of a graph is added behind the others. -/
theorem addDependency_eq {g : DependencyGraph} {a b : ModuleId} (ha : a ∈ g.modules)
    (hb : b ∈ g.modules) (kind : DependencyKind) :
    ∃ m n, g.addDependency a b kind = { g with edges := g.edges ++ [⟨m, n, kind⟩] } ∧
      (m < g.modules.length ∧ g.modules[m]? = some a) ∧
      (n < g.modules.length ∧ g.modules[n]? = some b) := by
  obtain ⟨m, hm, ham⟩ := exists_number ha
  obtain ⟨n, hn, hbn⟩ := exists_number hb
  exact ⟨m, n, by rw [addDependency, hm, hn], ham, hbn⟩

/-! ## One module walked -/

section Walk

variable (s : Store)

/-- A reference of a module followed, given what the store finds for it. -/
def withReference (id : ModuleId) (g : DependencyGraph) (r : String × DependencyKind) :
    DependencyGraph :=
  match s.find r.1 id with
  | .ok t => (g.addModule t.id).addDependency id t.id r.2
  | .error e => { g with broken := g.broken ++ [⟨id, r.1, r.2, e⟩] }

/-- A root walked, unless it is in the graph already. -/
def withRoot (g : DependencyGraph) (id : ModuleId) : DependencyGraph :=
  if g.contains id then g else (referencesOf s id).foldl (withReference s id) (g.addModule id)

theorem reads_addReference (id : ModuleId) (g : DependencyGraph) (r : String × DependencyKind) :
    s.Reads (addReference id g r) (withReference s id g r) := by
  refine Store.Reads.bind (Store.Reads.resolve r.1 id) ?_
  rw [withReference]
  cases s.find r.1 id with
  | ok t => exact Store.Reads.pure _
  | error e => exact Store.Reads.pure _

theorem reads_addRoot (g : DependencyGraph) (id : ModuleId) :
    s.Reads (addRoot g id) (withRoot s g id) := by
  rw [addRoot, withRoot]
  split
  · exact Store.Reads.pure g
  · refine Store.Reads.get_bind fun answers => ?_
    rw [Store.tree?_withAnswers, referencesOf]
    cases s.tree? id with
    | none => exact Store.Reads.pure _
    | some t => exact Store.Reads.foldlM (reads_addReference s id) _ _

/-- In a bare store `build` walks the roots from the last one to the first. -/
theorem build_eq (h : s.IsBare) (roots : List ModuleId) :
    ((build roots).run s).1 = roots.reverse.foldl (withRoot s) empty :=
  (Store.Reads.foldlM (reads_addRoot s) empty roots.reverse).run_fst h

/-- A graph without repetitions, with edges between its modules only. -/
structure IsSound (g : DependencyGraph) : Prop where
  nodup : g.modules.Nodup
  closed : g.IsClosed

theorem IsSound.addModule {g : DependencyGraph} (h : g.IsSound) (id : ModuleId) :
    (g.addModule id).IsSound :=
  ⟨nodup_addModule h.nodup id, h.closed.addModule id⟩

/-- How a graph grows when references of a module are followed. -/
structure Follows (id : ModuleId) (rs : List (String × DependencyKind)) (g g' : DependencyGraph) :
    Prop where
  sound : g'.IsSound
  mem_modules : ∀ a, a ∈ g'.modules ↔
    a ∈ g.modules ∨ ∃ r ∈ rs, ∃ t, s.find r.1 id = .ok t ∧ t.id = a
  edges : g'.namedEdges = g.namedEdges ++ rs.filterMap (edgeFor? s id)
  broken : g'.broken = g.broken ++ rs.filterMap (brokenFor? s id)

variable {s} {g : DependencyGraph} (h : g.IsSound)
include h

theorem follows_withReference {id : ModuleId} (hid : id ∈ g.modules)
    (r : String × DependencyKind) : Follows s id [r] g (withReference s id g r) := by
  rw [withReference]
  cases hfind : s.find r.1 id with
  | error e =>
    exact {
      sound := ⟨h.nodup, h.closed⟩
      mem_modules := by simp [hfind]
      edges := by simp [edgeFor?, hfind, namedEdges]
      broken := by simp [brokenFor?, hfind] }
  | ok t =>
    have hsound := h.addModule t.id
    obtain ⟨m, n, hadd, ⟨hm, hidm⟩, hn, htn⟩ := addDependency_eq
      (mem_modules_addModule.mpr (.inl hid))
      (mem_modules_addModule.mpr (.inr (rfl : t.id = t.id))) r.2
    simp only [hadd]
    refine ⟨⟨hsound.nodup, ?_⟩, ?_, ?_, ?_⟩
    · intro e he
      rcases List.mem_append.mp he with he | he
      · exact hsound.closed e he
      · rw [List.mem_singleton.mp he]
        exact ⟨hm, hn⟩
    · simp [mem_modules_addModule, hfind, eq_comm]
    · have hedges := namedEdges_addModule h.closed t.id
      simp only [namedEdges] at hedges
      simp [namedEdges, edgeFor?, hfind, hidm, htn, hedges]
    · simp [brokenFor?, hfind, broken_addModule]

theorem follows_foldl {id : ModuleId} (hid : id ∈ g.modules)
    (rs : List (String × DependencyKind)) :
    Follows s id rs g (rs.foldl (withReference s id) g) := by
  induction rs generalizing g with
  | nil => exact ⟨h, by simp, by simp, by simp⟩
  | cons r rs ih =>
    have hr := follows_withReference (s := s) h hid r
    have hrs := ih hr.sound ((hr.mem_modules id).mpr (.inl hid))
    refine ⟨hrs.sound, fun a => ?_, ?_, ?_⟩
    · rw [List.foldl_cons, hrs.mem_modules, hr.mem_modules]
      simp only [List.mem_cons, List.not_mem_nil, or_false, exists_eq_or_imp, exists_eq_left,
        or_assoc]
    · rw [List.foldl_cons, hrs.edges, hr.edges, List.append_assoc, ← List.filterMap_append]
      rfl
    · rw [List.foldl_cons, hrs.broken, hr.broken, List.append_assoc, ← List.filterMap_append]
      rfl

end Walk

/-! ## The roots that are walked -/

/-- A graph after some roots were taken up, of which the modules `walked` were walked: those that no
module walked before them refers to. -/
structure Built (s : Store) (taken walked : List ModuleId) (g : DependencyGraph) : Prop where
  sound : g.IsSound
  mem_modules : ∀ a, a ∈ g.modules ↔ a ∈ taken ∨ ∃ b ∈ walked, Refers s b a
  edges : g.namedEdges = walked.flatMap (edgesOf s)
  broken : g.broken = walked.flatMap (brokenOf s)
  nodup : walked.Nodup
  subset : walked ⊆ taken
  /-- A root that is left out was referred to before it was taken up. -/
  left_out : ∀ a ∈ taken, a ∉ walked → ∃ b ∈ walked, Refers s b a ∧ taken.idxOf b < taken.idxOf a
  first : ∀ a ∈ walked, ∀ b ∈ walked, taken.idxOf b < taken.idxOf a → ¬Refers s b a

theorem built_empty (s : Store) : Built s [] [] empty where
  sound := ⟨List.nodup_nil, by simp [IsClosed, empty]⟩
  mem_modules := by simp [empty]
  edges := rfl
  broken := rfl
  nodup := List.nodup_nil
  subset := List.nil_subset []
  left_out := by simp
  first := by simp

section Built

variable {s : Store} {taken walked : List ModuleId} {g : DependencyGraph}
  (h : Built s taken walked g)
include h

theorem Built.subset_append (id : ModuleId) : walked ++ [id] ⊆ taken ++ [id] :=
  List.append_subset.mpr
    ⟨List.Subset.trans h.subset (List.subset_append_left _ _), List.subset_append_right _ _⟩

/-- The positions of the roots taken up do not change when another one is taken up. -/
theorem Built.left_out_append (id : ModuleId) {a : ModuleId} (ha : a ∈ taken) (hw : a ∉ walked) :
    ∃ b ∈ walked, Refers s b a ∧ (taken ++ [id]).idxOf b < (taken ++ [id]).idxOf a := by
  obtain ⟨b, hb, hba, hlt⟩ := h.left_out a ha hw
  refine ⟨b, hb, hba, ?_⟩
  rwa [List.idxOf_append_of_mem (h.subset hb), List.idxOf_append_of_mem ha]

theorem Built.first_append (id : ModuleId) {a b : ModuleId} (ha : a ∈ walked) (hb : b ∈ walked)
    (hlt : (taken ++ [id]).idxOf b < (taken ++ [id]).idxOf a) : ¬Refers s b a := by
  rw [List.idxOf_append_of_mem (h.subset hb), List.idxOf_append_of_mem (h.subset ha)] at hlt
  exact h.first a ha b hb hlt

/-- A root that is in the graph already is left out. -/
theorem Built.leave (id : ModuleId) (hid : id ∈ g.modules) : Built s (taken ++ [id]) walked g where
  sound := h.sound
  mem_modules a := by
    rw [h.mem_modules, List.mem_append, List.mem_singleton, or_right_comm]
    refine ⟨.inl, fun ha => ha.elim (fun ha => ha) fun e => ?_⟩
    exact (h.mem_modules a).mp (e ▸ hid)
  edges := h.edges
  broken := h.broken
  nodup := h.nodup
  subset := List.Subset.trans h.subset (List.subset_append_left _ _)
  left_out a ha hw := by
    by_cases hat : a ∈ taken
    · exact h.left_out_append id hat hw
    · obtain rfl : a = id := by simpa [hat] using ha
      -- it is in the graph and was no root, so a module that was walked refers to it
      obtain ⟨b, hb, hba⟩ := ((h.mem_modules a).mp hid).resolve_left hat
      refine ⟨b, hb, hba, ?_⟩
      rw [List.idxOf_append_of_mem (h.subset hb), List.idxOf_append_of_notMem hat]
      have := List.idxOf_lt_length_of_mem (h.subset hb)
      omega
  first _ ha _ hb := h.first_append id ha hb

/-- A root that is not in the graph is walked. -/
theorem Built.walk (id : ModuleId) (hid : id ∉ g.modules) :
    Built s (taken ++ [id]) (walked ++ [id])
      ((referencesOf s id).foldl (withReference s id) (g.addModule id)) := by
  have hnot : id ∉ taken := fun ht => hid ((h.mem_modules id).mpr (.inl ht))
  have hnotWalked : id ∉ walked := fun hw => hnot (h.subset hw)
  have hlast : (taken ++ [id]).idxOf id = taken.length := by
    simp [List.idxOf_append_of_notMem hnot]
  have hfollows := follows_foldl (s := s) (h.sound.addModule id)
    (mem_modules_addModule.mpr (.inr rfl)) (referencesOf s id)
  refine ⟨hfollows.sound, fun a => ?_, ?_, ?_, ?_, ?_, ?_, ?_⟩
  · have hmem : a ∈ ((referencesOf s id).foldl (withReference s id) (g.addModule id)).modules ↔
        ((a ∈ taken ∨ ∃ b ∈ walked, Refers s b a) ∨ a = id) ∨ Refers s id a := by
      rw [hfollows.mem_modules, mem_modules_addModule, h.mem_modules]
      rfl
    have hnew : (∃ b ∈ walked ++ [id], Refers s b a) ↔
        (∃ b ∈ walked, Refers s b a) ∨ Refers s id a := by
      simp only [List.mem_append, List.mem_singleton, or_and_right, exists_or, exists_eq_left]
    rw [hmem, hnew, List.mem_append, List.mem_singleton, or_assoc, or_assoc, or_assoc,
      or_left_comm (b := a = id)]
  · rw [hfollows.edges, namedEdges_addModule h.sound.closed, h.edges, List.flatMap_append]
    simp [edgesOf]
  · rw [hfollows.broken, broken_addModule, h.broken, List.flatMap_append]
    simp [brokenOf]
  · have hne : ∀ a ∈ walked, a ≠ id := fun a ha e => hnotWalked (e ▸ ha)
    simpa [List.nodup_append, h.nodup] using hne
  · exact h.subset_append id
  · intro a ha hw
    -- the new root is walked, so what is left out was taken up before it
    have hat : a ∈ taken := by
      rcases List.mem_append.mp ha with ha | ha
      · exact ha
      · exact absurd (List.mem_append_right _ ha) hw
    obtain ⟨b, hb, hba, hlt⟩ :=
      h.left_out_append id hat fun haw => hw (List.mem_append_left _ haw)
    exact ⟨b, List.mem_append_left _ hb, hba, hlt⟩
  · intro a ha b hb hlt
    rcases List.mem_append.mp hb with hbw | hbid
    · rcases List.mem_append.mp ha with haw | haid
      · exact h.first_append id haw hbw hlt
      · -- nothing that was walked before refers to the new root
        obtain rfl := List.mem_singleton.mp haid
        exact fun hba => hid ((h.mem_modules a).mpr (.inr ⟨b, hbw, hba⟩))
    · -- nothing is taken up behind the new root
      obtain rfl := List.mem_singleton.mp hbid
      have hle : (taken ++ [b]).idxOf a < taken.length + 1 := by
        simpa using List.idxOf_lt_length_of_mem (h.subset_append b ha)
      omega

theorem Built.withRoot (id : ModuleId) :
    ∃ walked', Built s (taken ++ [id]) walked' (withRoot s g id) := by
  rw [DependencyGraph.withRoot]
  by_cases hid : id ∈ g.modules
  · exact ⟨walked, by simpa [contains, hid] using h.leave id hid⟩
  · exact ⟨walked ++ [id], by simpa [contains, hid] using h.walk id hid⟩

theorem Built.foldl (roots : List ModuleId) :
    ∃ walked', Built s (taken ++ roots) walked' (roots.foldl (DependencyGraph.withRoot s) g) := by
  induction roots generalizing taken walked g with
  | nil => exact ⟨walked, by simpa using h⟩
  | cons id roots ih =>
    obtain ⟨_, hid⟩ := h.withRoot id
    simpa using ih hid

end Built

/-! ## Complete graphs -/

/-- The entries of one item among those of all items, each of which has entries of its own only. -/
theorem filter_flatMap_of_nodup {α β : Type} [DecidableEq α] {l : List α} {f : α → List β}
    {own : β → Bool} {a : α} (hl : l.Nodup) (hown : ∀ y ∈ f a, own y = true)
    (hothers : ∀ b ∈ l, b ≠ a → ∀ y ∈ f b, own y = false) :
    (l.flatMap f).filter own = if a ∈ l then f a else [] := by
  induction l with
  | nil => rfl
  | cons b l ih =>
    obtain ⟨hb, hl⟩ := List.nodup_cons.mp hl
    have hrest := ih hl fun c hc => hothers c (List.mem_cons_of_mem b hc)
    rw [List.flatMap_cons, List.filter_append, hrest]
    by_cases hba : b = a
    · subst hba
      rw [if_neg hb, if_pos List.mem_cons_self, List.append_nil]
      exact List.filter_eq_self.mpr hown
    · have hnone : (f b).filter own = [] :=
        List.filter_eq_nil_iff.mpr fun y hy => by simp [hothers b List.mem_cons_self hba y hy]
      simp [hnone, Ne.symm hba]

theorem fst_of_mem_edgesOf {s : Store} {id : ModuleId} {e : NamedEdge} (h : e ∈ edgesOf s id) :
    e.1 = some id := by
  obtain ⟨r, -, hr⟩ := List.mem_filterMap.mp h
  rw [edgeFor?] at hr
  split at hr
  · cases hr
    rfl
  · cases hr

theorem source_of_mem_brokenOf {s : Store} {id : ModuleId} {b : BrokenReference}
    (h : b ∈ brokenOf s id) : b.source = id := by
  obtain ⟨r, -, hr⟩ := List.mem_filterMap.mp h
  rw [brokenFor?] at hr
  split at hr
  · cases hr
  · cases hr
    rfl

/-- Every reference stands for an entry of one kind or the other. -/
theorem entries_ne_nil {s : Store} {id : ModuleId} (h : referencesOf s id ≠ []) :
    edgesOf s id ≠ [] ∨ brokenOf s id ≠ [] := by
  obtain ⟨r, hr⟩ := List.exists_mem_of_ne_nil _ h
  cases hfind : s.find r.1 id with
  | ok t =>
    have he : edgeFor? s id r = some (some id, some t.id, r.2) := by rw [edgeFor?, hfind]
    exact .inl (List.ne_nil_of_mem (List.mem_filterMap.mpr ⟨r, hr, he⟩))
  | error e =>
    have hb : brokenFor? s id r = some ⟨id, r.1, r.2, e⟩ := by rw [brokenFor?, hfind]
    exact .inr (List.ne_nil_of_mem (List.mem_filterMap.mpr ⟨r, hr, hb⟩))

theorem referencesOf_ne_nil {s : Store} {a b : ModuleId} (h : Refers s a b) :
    referencesOf s a ≠ [] := by
  obtain ⟨r, hr, -⟩ := h
  exact List.ne_nil_of_mem hr

section Complete

variable {s : Store} {roots walked : List ModuleId} {g : DependencyGraph}
  (h : Built s roots.reverse walked g)
include h

theorem Built.reached {a : ModuleId} (ha : a ∈ walked) : Reached s roots a :=
  ⟨a, List.mem_reverse.mp (h.subset ha), .refl⟩

theorem Built.filter_namedEdges (id : ModuleId) :
    g.namedEdges.filter (·.1 = some id) = if id ∈ walked then edgesOf s id else [] := by
  rw [h.edges]
  refine filter_flatMap_of_nodup h.nodup (fun e he => ?_) fun b _ hb e he => ?_
  · simpa using fst_of_mem_edgesOf he
  · simpa [fst_of_mem_edgesOf he] using hb

theorem Built.filter_broken (id : ModuleId) :
    g.broken.filter (·.source = id) = if id ∈ walked then brokenOf s id else [] := by
  rw [h.broken]
  refine filter_flatMap_of_nodup h.nodup (fun e he => ?_) fun b _ hb e he => ?_
  · simpa using source_of_mem_brokenOf he
  · simpa [source_of_mem_brokenOf he] using hb

/-- A graph is complete if all modules with references that are reached were walked. -/
theorem Built.isComplete (hall : ∀ id, Reached s roots id → referencesOf s id ≠ [] → id ∈ walked) :
    IsComplete s roots g where
  nodup := h.sound.nodup
  mem_modules id := by
    rw [h.mem_modules, List.mem_reverse]
    constructor
    · rintro (hid | ⟨b, hb, hid⟩)
      · exact ⟨id, hid, .refl⟩
      · obtain ⟨root, hroot, hpath⟩ := h.reached hb
        exact ⟨root, hroot, hpath.tail hid⟩
    · rintro ⟨root, hroot, hpath⟩
      rcases hpath.cases_tail with rfl | ⟨b, hb, hid⟩
      · exact .inl hroot
      · exact .inr ⟨b, hall b ⟨root, hroot, hb⟩ (referencesOf_ne_nil hid), hid⟩
  edges id hid := by
    rw [h.filter_namedEdges]
    split
    · exact .refl _
    · next hw =>
      rw [edgesOf, not_not.mp fun hne => hw (hall id hid hne)]
      exact .refl _
  broken id hid := by
    rw [h.filter_broken]
    split
    · exact .refl _
    · next hw =>
      rw [brokenOf, not_not.mp fun hne => hw (hall id hid hne)]
      exact .refl _
  edges_reached e he := by
    rw [h.edges] at he
    obtain ⟨a, ha, he⟩ := List.mem_flatMap.mp he
    exact ⟨a, h.reached ha, fst_of_mem_edgesOf he⟩
  broken_reached b hb := by
    rw [h.broken] at hb
    obtain ⟨a, ha, hb⟩ := List.mem_flatMap.mp hb
    exact source_of_mem_brokenOf hb ▸ h.reached ha

theorem Built.mem_walked (hg : IsComplete s roots g) {id : ModuleId} (hid : Reached s roots id)
    (hne : referencesOf s id ≠ []) : id ∈ walked := by
  by_contra hw
  have hedges := hg.edges id hid
  have hbroken := hg.broken id hid
  rw [h.filter_namedEdges, if_neg hw] at hedges
  rw [h.filter_broken, if_neg hw] at hbroken
  rcases entries_ne_nil hne with hne | hne
  · exact hne hedges.nil_eq.symm
  · exact hne hbroken.nil_eq.symm

theorem Built.inOrder (hall : ∀ id, Reached s roots id → referencesOf s id ≠ [] → id ∈ walked) :
    InOrder s roots := by
  intro id hid hne
  have hw := hall id hid hne
  refine ⟨List.mem_reverse.mp (h.subset hw), fun source hsource hrefers hdiff => ?_⟩
  have hsourceWalked := hall source hsource (referencesOf_ne_nil hrefers)
  have hle : ¬roots.reverse.idxOf source < roots.reverse.idxOf id :=
    fun hlt => h.first id hw source hsourceWalked hlt hrefers
  have hidx : roots.reverse.idxOf id ≠ roots.reverse.idxOf source :=
    fun he => hdiff ((List.idxOf_inj (h.subset hw)).mp he).symm
  omega

theorem Built.walked_of_inOrder (horder : InOrder s roots) {id : ModuleId}
    (hid : Reached s roots id) (hne : referencesOf s id ≠ []) : id ∈ walked := by
  obtain ⟨hroot, hbehind⟩ := horder id hid hne
  by_contra hw
  obtain ⟨b, hb, hba, hlt⟩ := h.left_out id (List.mem_reverse.mpr hroot) hw
  have hdiff : b ≠ id := fun e => hw (e ▸ hb)
  have := hbehind b (h.reached hb) hba hdiff
  omega

end Complete

/-- Complete graphs of the same roots have the same modules, and for each module the same
entries, in whatever order the roots are listed. -/
theorem IsComplete.agree {s : Store} {roots roots' : List ModuleId} {g g' : DependencyGraph}
    (h : IsComplete s roots g) (h' : IsComplete s roots' g')
    (hroots : ∀ id, id ∈ roots ↔ id ∈ roots') :
    (∀ id, id ∈ g.modules ↔ id ∈ g'.modules) ∧ ∀ id ∈ g.modules,
      (g.namedEdges.filter (·.1 = some id)).Perm (g'.namedEdges.filter (·.1 = some id)) ∧
      (g.broken.filter (·.source = id)).Perm (g'.broken.filter (·.source = id)) := by
  have hreached : ∀ id, Reached s roots id ↔ Reached s roots' id := by simp [Reached, hroots]
  refine ⟨fun id => by rw [h.mem_modules, h'.mem_modules, hreached], fun id hid => ?_⟩
  have hid := (h.mem_modules id).mp hid
  have hid' := (hreached id).mp hid
  exact ⟨(h.edges id hid).trans (h'.edges id hid').symm,
    (h.broken id hid).trans (h'.broken id hid').symm⟩

/-- A graph is complete for its roots exactly if they are listed in order: what a root refers to is
entered with it, and is not walked when it comes up as a root later, or not at all. -/
theorem isComplete_build_iff {s : Store} (h : s.IsBare) (roots : List ModuleId) :
    IsComplete s roots ((build roots).run s).1 ↔ InOrder s roots := by
  obtain ⟨walked, hbuilt⟩ := (built_empty s).foldl roots.reverse
  rw [List.nil_append, ← build_eq s h] at hbuilt
  constructor
  · intro hcomplete
    exact hbuilt.inOrder fun id hid hne => hbuilt.mem_walked hcomplete hid hne
  · intro horder
    exact hbuilt.isComplete fun id hid hne => hbuilt.walked_of_inOrder horder hid hne

/-! ## Three modules in a row -/

/-- A module of a directory that does nothing but import others. -/
def importing (name : String) (uris : List String) : Source.Module :=
  { bareModule ("file:///w/" ++ name) with imports := uris.map (⟨·, none, false, none⟩) }

/-- Three modules, each of which imports the next one. -/
def chain : Store :=
  [importing "a.pkl" ["b.pkl"], importing "b.pkl" ["c.pkl"], importing "c.pkl" []].foldl
    Store.insertSource (Store.new default .none none)

/-- The modules of the chain. -/
def links : List ModuleId := [⟨"file:///w/a.pkl"⟩, ⟨"file:///w/b.pkl"⟩, ⟨"file:///w/c.pkl"⟩]

theorem isBare_chain : chain.IsBare where
  loader := rfl
  registered _ := rfl
  manifests := ProjectIndex.manifestIn?_none
  answers := List.forall_mem_nil _

/-- What has references in the chain is one of its modules. -/
theorem mem_links {id : ModuleId} (h : referencesOf chain id ≠ []) : id ∈ links := by
  rw [referencesOf] at h
  split at h
  · next t ht =>
    obtain ⟨e, he, hid, -⟩ := Dict.exists_mem_of_get? ht
    have hkeys : ∀ e ∈ chain.trees.entries, e.1 ∈ links := by decide +kernel
    exact eq_of_beq hid ▸ hkeys e he
  · exact absurd rfl h

/-- Each module of the chain refers to the next one. -/
theorem refers_chain_iff : ∀ source ∈ links, ∀ id ∈ links,
    Refers chain source id ↔ (source, id) ∈ links.zip links.tail := by
  decide +kernel

/-- The modules of the chain listed in its own order give the whole graph. -/
theorem isComplete_build_links : IsComplete chain links ((build links).run chain).1 := by
  have horder : ∀ p ∈ links.zip links.tail,
      links.reverse.idxOf p.2 < links.reverse.idxOf p.1 := by
    decide
  refine (isComplete_build_iff isBare_chain links).mpr fun id _ hid => ⟨mem_links hid, ?_⟩
  intro source _ hrefers _
  have hsource := mem_links (referencesOf_ne_nil hrefers)
  exact horder _ ((refers_chain_iff source hsource id (mem_links hid)).mp hrefers)

/-- From its first module alone the chain is not built to its end. -/
theorem not_isComplete_build_head :
    ¬IsComplete chain [⟨"file:///w/a.pkl"⟩] ((build [⟨"file:///w/a.pkl"⟩]).run chain).1 := by
  intro h
  have hab : Refers chain ⟨"file:///w/a.pkl"⟩ ⟨"file:///w/b.pkl"⟩ :=
    (refers_chain_iff _ (by decide) _ (by decide)).mpr (by decide)
  have hbc : Refers chain ⟨"file:///w/b.pkl"⟩ ⟨"file:///w/c.pkl"⟩ :=
    (refers_chain_iff _ (by decide) _ (by decide)).mpr (by decide)
  have hreached : Reached chain [⟨"file:///w/a.pkl"⟩] ⟨"file:///w/c.pkl"⟩ :=
    ⟨_, List.mem_singleton_self _, .tail (.single hab) hbc⟩
  have hnot : ⟨"file:///w/c.pkl"⟩ ∉ ((build [⟨"file:///w/a.pkl"⟩]).run chain).1.modules := by
    decide +kernel
  exact hnot ((h.mem_modules _).mpr hreached)

end PklAnalysis.DependencyGraph
