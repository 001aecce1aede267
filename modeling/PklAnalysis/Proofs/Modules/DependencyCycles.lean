import PklAnalysis.Proofs.Modules.DependencyClosure
import PklAnalysis.Proofs.Modules.DepthFirstSearch

/-!
# Cycles of dependency graphs

A graph that is entered module by module and reference by reference (`ofEntries`) reports exactly
its cycles: the modules that depend on themselves, grouped with those that they depend on in turn
(`IsCycleReport`).  The groups are those of the numbers of the modules, which the search from each
number finds; the reports of the names follow because every number stands for one module.
-/

namespace PklAnalysis.DependencyGraph

open Relation

/-! ## Graphs and their entries -/

/-- What can be entered into a graph. -/
inductive Entry where
  | module (id : ModuleId)
  | dependency (source target : ModuleId) (kind : DependencyKind)

/-- The graph with something entered. -/
def enter (g : DependencyGraph) : Entry → DependencyGraph
  | .module id => g.addModule id
  | .dependency source target kind => g.addDependency source target kind

/-- The graph of some entries, made in order. -/
def ofEntries (entries : List Entry) : DependencyGraph := entries.foldl enter empty

/-- A module refers to another one by a reference of a kind that counts. -/
def DependsOn (keep : DependencyKind → Bool) (g : DependencyGraph) (a b : ModuleId) : Prop :=
  ∃ kind, keep kind = true ∧ (some a, some b, kind) ∈ g.namedEdges

theorem getElem?_of_number? {g : DependencyGraph} {id : ModuleId} {n : Nat}
    (h : g.number? id = some n) : g.modules[n]? = some id := by
  obtain ⟨hlt, hid, -⟩ := List.findIdx?_eq_some_iff_getElem.mp h
  simpa [hlt] using hid

theorem mem_of_number? {g : DependencyGraph} {id : ModuleId} {n : Nat}
    (h : g.number? id = some n) : id ∈ g.modules :=
  List.mem_of_getElem? (getElem?_of_number? h)

/-- A reference is entered if both its ends were entered before. -/
theorem addDependency_cases (g : DependencyGraph) (a b : ModuleId) (kind : DependencyKind) :
    (∃ m n, g.addDependency a b kind = { g with edges := g.edges ++ [⟨m, n, kind⟩] } ∧
      g.modules[m]? = some a ∧ g.modules[n]? = some b) ∨
    (g.addDependency a b kind = g ∧ ¬(a ∈ g.modules ∧ b ∈ g.modules)) := by
  by_cases h : a ∈ g.modules ∧ b ∈ g.modules
  · obtain ⟨m, n, heq, ⟨-, hm⟩, -, hn⟩ := addDependency_eq h.1 h.2 kind
    exact .inl ⟨m, n, heq, hm, hn⟩
  · refine .inr ⟨?_, h⟩
    rw [addDependency]
    split
    · next m n hm hn => exact absurd ⟨mem_of_number? hm, mem_of_number? hn⟩ h
    · rfl

theorem modules_addDependency (g : DependencyGraph) (a b : ModuleId) (kind : DependencyKind) :
    (g.addDependency a b kind).modules = g.modules := by
  rw [addDependency]
  split <;> rfl

theorem IsSound.addDependency {g : DependencyGraph} (h : g.IsSound) (a b : ModuleId)
    (kind : DependencyKind) : (g.addDependency a b kind).IsSound := by
  rcases addDependency_cases g a b kind with ⟨m, n, heq, hm, hn⟩ | ⟨heq, -⟩
  · rw [heq]
    refine ⟨h.nodup, fun e he => ?_⟩
    rcases List.mem_append.mp he with he | he
    · exact h.closed e he
    · rw [List.mem_singleton.mp he]
      exact ⟨(List.getElem?_eq_some_iff.mp hm).1, (List.getElem?_eq_some_iff.mp hn).1⟩
  · rwa [heq]

theorem isSound_ofEntries (entries : List Entry) : (ofEntries entries).IsSound := by
  induction entries using List.reverseRecOn with
  | nil => exact ⟨List.nodup_nil, by simp [IsClosed, ofEntries, empty]⟩
  | append_singleton entries entry ih =>
    rw [ofEntries, List.foldl_append]
    cases entry with
    | module id => exact ih.addModule id
    | dependency a b kind => exact ih.addDependency a b kind

theorem mem_modules_ofEntries {entries : List Entry} {id : ModuleId} :
    id ∈ (ofEntries entries).modules ↔ .module id ∈ entries := by
  induction entries using List.reverseRecOn with
  | nil => simp [ofEntries, empty]
  | append_singleton entries entry ih =>
    rw [ofEntries, List.foldl_append]
    cases entry with
    | module a =>
      refine mem_modules_addModule.trans ?_
      simp [← ih, ofEntries]
    | dependency a b kind =>
      simp [enter, modules_addDependency, ← ih, ofEntries]

/-- An entry stands in a list that is made longer as it did before, or it is the new one. -/
theorem exists_before_append {entries : List Entry} {last entry : Entry} {p : List Entry → Prop} :
    (∃ before after, entries ++ [last] = before ++ entry :: after ∧ p before) ↔
      (∃ before after, entries = before ++ entry :: after ∧ p before) ∨
        last = entry ∧ p entries := by
  constructor
  · rintro ⟨before, after, heq, hp⟩
    rcases List.eq_nil_or_concat after with rfl | ⟨after, last', rfl⟩
    · obtain ⟨rfl, hlast⟩ := List.append_inj' heq rfl
      exact .inr ⟨by simpa using hlast, hp⟩
    · have heq : entries ++ [last] = (before ++ entry :: after) ++ [last'] := by simpa using heq
      exact .inl ⟨before, after, (List.append_inj' heq rfl).1, hp⟩
  · rintro (⟨before, after, rfl, hp⟩ | ⟨rfl, hp⟩)
    · exact ⟨before, after ++ [last], by simp, hp⟩
    · exact ⟨entries, [], rfl, hp⟩

/-- The references of a graph are those that were entered after both their ends. -/
theorem mem_namedEdges_ofEntries {entries : List Entry} {a b : ModuleId} {kind : DependencyKind} :
    (some a, some b, kind) ∈ (ofEntries entries).namedEdges ↔
      ∃ before after, entries = before ++ .dependency a b kind :: after ∧
        .module a ∈ before ∧ .module b ∈ before := by
  induction entries using List.reverseRecOn with
  | nil => simp [ofEntries, empty, namedEdges]
  | append_singleton entries entry ih =>
    have hsound := isSound_ofEntries entries
    rw [exists_before_append, ← ih, ofEntries, List.foldl_append]
    change _ ∈ (enter (ofEntries entries) entry).namedEdges ↔ _
    cases entry with
    | module id => simp [enter, namedEdges_addModule hsound.closed]
    | dependency x y k =>
      rw [← mem_modules_ofEntries, ← mem_modules_ofEntries]
      rcases addDependency_cases (ofEntries entries) x y k with ⟨m, n, heq, hm, hn⟩ | ⟨heq, hnot⟩
      · have hx := List.mem_of_getElem? hm
        have hy := List.mem_of_getElem? hn
        simp only [enter, heq, namedEdges, List.map_append, List.mem_append, List.map_cons,
          List.map_nil, List.mem_singleton, hm, hn, Prod.mk.injEq, Option.some.injEq,
          Entry.dependency.injEq]
        refine or_congr_right ⟨?_, ?_⟩
        · rintro ⟨rfl, rfl, rfl⟩
          exact ⟨⟨rfl, rfl, rfl⟩, hx, hy⟩
        · rintro ⟨⟨rfl, rfl, rfl⟩, -⟩
          exact ⟨rfl, rfl, rfl⟩
      · simp only [enter, heq, Entry.dependency.injEq]
        refine ⟨.inl, fun hnew => hnew.resolve_right ?_⟩
        rintro ⟨⟨rfl, rfl, rfl⟩, hends⟩
        exact hnot hends

/-- A module depends on another one if a reference was entered after both of them. -/
theorem dependsOn_ofEntries {keep : DependencyKind → Bool} {entries : List Entry} {a b : ModuleId} :
    (ofEntries entries).DependsOn keep a b ↔
      ∃ kind, keep kind = true ∧ ∃ before after,
        entries = before ++ .dependency a b kind :: after ∧
          .module a ∈ before ∧ .module b ∈ before := by
  simp only [DependsOn, mem_namedEdges_ofEntries]

/-! ## Numbers and names -/

/-- The references of the kinds that count. -/
def kept (keep : DependencyKind → Bool) (g : DependencyGraph) : List DependencyEdge :=
  g.edges.filter fun e => keep e.kind

/-- A number leads to another one by a reference of a kind that counts. -/
def Leads (keep : DependencyKind → Bool) (g : DependencyGraph) : Nat → Nat → Prop :=
  LeadsTo (successors (g.kept keep))

theorem leads_iff {keep : DependencyKind → Bool} {g : DependencyGraph} {m n : Nat} :
    g.Leads keep m n ↔ ∃ e ∈ g.edges, keep e.kind = true ∧ e.source = m ∧ e.target = n := by
  simp [Leads, LeadsTo, successors, kept, and_assoc, and_left_comm]

theorem dependsOn_iff {keep : DependencyKind → Bool} {g : DependencyGraph} {a b : ModuleId} :
    g.DependsOn keep a b ↔
      ∃ m n, g.modules[m]? = some a ∧ g.modules[n]? = some b ∧ g.Leads keep m n := by
  simp only [DependsOn, namedEdges, List.mem_map, Prod.mk.injEq, leads_iff]
  constructor
  · rintro ⟨_, hkeep, e, he, hm, hn, rfl⟩
    exact ⟨_, _, hm, hn, e, he, hkeep, rfl, rfl⟩
  · rintro ⟨_, _, hm, hn, e, he, hkeep, rfl, rfl⟩
    exact ⟨_, hkeep, e, he, hm, hn, rfl⟩

section Numbers

variable {keep : DependencyKind → Bool} {g : DependencyGraph} (h : g.IsSound)
include h

theorem IsSound.leads_lt {m n : Nat} (hmn : g.Leads keep m n) :
    m < g.modules.length ∧ n < g.modules.length := by
  obtain ⟨e, he, -, rfl, rfl⟩ := leads_iff.mp hmn
  exact h.closed e he

/-- A module has one number. -/
theorem IsSound.number_eq {a : ModuleId} {m n : Nat} (hm : g.modules[m]? = some a)
    (hn : g.modules[n]? = some a) : m = n :=
  (List.getElem?_inj (List.getElem?_eq_some_iff.mp hm).1 h.nodup).mp (hm.trans hn.symm)

/-- Paths of modules are paths of their numbers. -/
theorem IsSound.transGen_iff {a b : ModuleId} {m n : Nat} (hm : g.modules[m]? = some a)
    (hn : g.modules[n]? = some b) :
    TransGen (g.DependsOn keep) a b ↔ TransGen (g.Leads keep) m n := by
  constructor
  · intro hab
    have hpath : ∃ n, g.modules[n]? = some b ∧ TransGen (g.Leads keep) m n := by
      clear hn
      induction hab with
      | single hab =>
        obtain ⟨m', n', hm', hn', hleads⟩ := dependsOn_iff.mp hab
        exact ⟨n', hn', .single (h.number_eq hm' hm ▸ hleads)⟩
      | tail _ hbc ih =>
        obtain ⟨k, hk, hpath⟩ := ih
        obtain ⟨m', n', hm', hn', hleads⟩ := dependsOn_iff.mp hbc
        exact ⟨n', hn', hpath.tail (h.number_eq hm' hk ▸ hleads)⟩
    obtain ⟨n', hn', hpath⟩ := hpath
    exact h.number_eq hn' hn ▸ hpath
  · intro hmn
    induction hmn generalizing b with
    | single hleads => exact .single (dependsOn_iff.mpr ⟨_, _, hm, hn, hleads⟩)
    | tail _ hleads ih =>
      have hk := List.getElem?_eq_getElem (h.leads_lt hleads).1
      exact (ih hk).tail (dependsOn_iff.mpr ⟨_, _, hk, hn, hleads⟩)

end Numbers

/-- What depends on something has a number. -/
theorem exists_number_of_transGen {keep : DependencyKind → Bool} {g : DependencyGraph}
    {a b : ModuleId} (hab : TransGen (g.DependsOn keep) a b) :
    ∃ m : Nat, g.modules[m]? = some a := by
  obtain ⟨_, hstep, -⟩ := TransGen.head'_iff.mp hab
  obtain ⟨m, _, hm, -⟩ := dependsOn_iff.mp hstep
  exact ⟨m, hm⟩

/-! ## Groups of numbers -/

/-- The numbers that reach a number and are reached from it, in their order. -/
def componentOf (keep : DependencyKind → Bool) (g : DependencyGraph) (n : Nat) : List Nat :=
  component (reachable g.modules.length (g.kept keep)) n

/-- The group that is taken up at a number, if it is the least one of a cycle. -/
def groupAt? (keep : DependencyKind → Bool) (g : DependencyGraph) (n : Nat) : Option (List Nat) :=
  let group := g.componentOf keep n
  if group.head? = some n && isCyclic (g.kept keep) group then some group else none

/-- The groups of numbers that reach each other, each at its least number. -/
def groups (keep : DependencyKind → Bool) (g : DependencyGraph) : List (List Nat) :=
  (List.range g.modules.length).filterMap (g.groupAt? keep)

theorem cyclesBy_eq (keep : DependencyKind → Bool) (g : DependencyGraph) :
    g.cyclesBy keep = ((g.groups keep).map fun group => sortIds (g.named group)).mergeSort
      fun a b => (compareGroups a b).isLE :=
  rfl

section Groups

variable {keep : DependencyKind → Bool} {g : DependencyGraph} (h : g.IsSound)
include h

/-- The successors are looked up in a table that has all of them. -/
theorem IsSound.getD_successors :
    (((List.range g.modules.length).toArray.map (successors (g.kept keep))).getD · []) =
      successors (g.kept keep) := by
  funext n
  by_cases hn : n < g.modules.length
  · simp [Array.getD, hn]
  · have hnone : successors (g.kept keep) n = [] :=
      List.eq_nil_iff_forall_not_mem.mpr fun m (hm : g.Leads keep n m) => hn (h.leads_lt hm).1
    simp [Array.getD, hn, hnone]

theorem IsSound.mem_reachable {m n : Nat} (hm : m < g.modules.length) :
    n ∈ (reachable g.modules.length (g.kept keep)).getD m [] ↔ ReflTransGen (g.Leads keep) m n := by
  have hreach : (reachable g.modules.length (g.kept keep)).getD m [] =
      (searchFrom g.modules.length (successors (g.kept keep)) [m]).discovered := by
    rw [reachable, h.getD_successors]
    simp [Array.getD, hm]
  have hnext : ∀ m, ∀ n ∈ successors (g.kept keep) m, n < g.modules.length :=
    fun m n (hn : g.Leads keep m n) => (h.leads_lt hn).2
  rw [hreach, Search.mem_discovered_searchFrom hnext (by simpa using hm)]
  simp only [List.mem_singleton, exists_eq_left]
  rfl

theorem IsSound.mem_componentOf {m n : Nat} (hn : n < g.modules.length) :
    m ∈ g.componentOf keep n ↔
      ReflTransGen (g.Leads keep) n m ∧ ReflTransGen (g.Leads keep) m n := by
  have hlt : ReflTransGen (g.Leads keep) n m → m < g.modules.length := by
    intro hnm
    rcases hnm.cases_tail with rfl | ⟨_, -, hleads⟩
    · exact hn
    · exact (h.leads_lt hleads).2
  simp only [componentOf, component, List.mem_filter, List.mem_range, size_reachable,
    List.contains_eq_mem, Bool.and_eq_true, decide_eq_true_eq, h.mem_reachable hn]
  constructor
  · rintro ⟨hm, hnm, hmn⟩
    exact ⟨hnm, (h.mem_reachable hm).mp hmn⟩
  · rintro ⟨hnm, hmn⟩
    exact ⟨hlt hnm, hnm, (h.mem_reachable (hlt hnm)).mpr hmn⟩

theorem IsSound.self_mem_componentOf {n : Nat} (hn : n < g.modules.length) :
    n ∈ g.componentOf keep n :=
  (h.mem_componentOf hn).mpr ⟨.refl, .refl⟩

/-- A number has the same component as the others in its component. -/
theorem IsSound.componentOf_eq {m n : Nat} (hn : n < g.modules.length)
    (hm : m ∈ g.componentOf keep n) : g.componentOf keep m = g.componentOf keep n := by
  have hlt : m < g.modules.length := by
    simpa using (List.mem_filter.mp hm).1
  obtain ⟨hnm, hmn⟩ := (h.mem_componentOf hn).mp hm
  -- both are what is kept of the same list of numbers
  refine List.filter_congr fun k hk => ?_
  have hk : k < g.modules.length := by simpa using hk
  rw [Bool.eq_iff_iff]
  simp only [List.contains_eq_mem, Bool.and_eq_true, decide_eq_true_eq, h.mem_reachable hk,
    h.mem_reachable hn, h.mem_reachable hlt]
  exact ⟨fun ⟨hmk, hkm⟩ => ⟨hnm.trans hmk, hkm.trans hmn⟩,
    fun ⟨hnk, hkn⟩ => ⟨hmn.trans hnk, hkn.trans hnm⟩⟩

/-- A component is cyclic if a path leads from one of its numbers back to it. -/
theorem IsSound.isCyclic_iff {n : Nat} (hn : n < g.modules.length) :
    isCyclic (g.kept keep) (g.componentOf keep n) = true ↔ TransGen (g.Leads keep) n n := by
  have hself : n ∈ g.componentOf keep n := h.self_mem_componentOf hn
  have hmem : ∀ m, m ∈ g.componentOf keep n ↔ ReflTransGen (g.Leads keep) n m ∧
      ReflTransGen (g.Leads keep) m n := fun _ => h.mem_componentOf hn
  have hnodup : (g.componentOf keep n).Nodup := List.nodup_range.filter _
  match hgroup : g.componentOf keep n with
  | [] => simp [hgroup] at hself
  | [k] =>
    obtain rfl : n = k := by simpa [hgroup] using hself
    have hloop : isCyclic (g.kept keep) [n] = true ↔ g.Leads keep n n := by
      simp [isCyclic, leads_iff, kept]
    rw [hloop]
    refine ⟨.single, fun hpath => ?_⟩
    obtain ⟨m, hnm, hmn⟩ := TransGen.head'_iff.mp hpath
    obtain rfl : m = n := by simpa [hgroup] using (hmem m).mpr ⟨.single hnm, hmn⟩
    exact hnm
  | k :: l :: rest =>
    refine iff_of_true rfl ?_
    -- one of two different numbers is another one than the given one
    obtain ⟨m, hm, hne⟩ : ∃ m ∈ g.componentOf keep n, m ≠ n := by
      rw [hgroup] at hnodup ⊢
      by_cases hk : k = n
      · have hkl : k ≠ l := by simp_all
        exact ⟨l, by simp, fun hl => hkl (hk.trans hl.symm)⟩
      · exact ⟨k, by simp, hk⟩
    obtain ⟨hnm, hmn⟩ := (hmem m).mp hm
    exact ((reflTransGen_iff_eq_or_transGen.mp hnm).resolve_left hne).trans_left hmn

omit h in
theorem groupAt?_eq_some {n : Nat} {group : List Nat} : g.groupAt? keep n = some group ↔
    group = g.componentOf keep n ∧ group.head? = some n ∧ isCyclic (g.kept keep) group = true := by
  rw [groupAt?]
  split
  · next hcond =>
    rw [Bool.and_eq_true, decide_eq_true_eq] at hcond
    constructor
    · rintro ⟨⟩
      exact ⟨rfl, hcond⟩
    · rintro ⟨rfl, -⟩
      rfl
  · next hcond =>
    rw [Bool.and_eq_true, decide_eq_true_eq] at hcond
    refine iff_of_false nofun ?_
    rintro ⟨rfl, hgroup⟩
    exact hcond hgroup

theorem IsSound.mem_groups {group : List Nat} : group ∈ g.groups keep ↔
    ∃ n < g.modules.length, group = g.componentOf keep n ∧ group.head? = some n ∧
      TransGen (g.Leads keep) n n := by
  simp only [groups, List.mem_filterMap, List.mem_range, groupAt?_eq_some]
  refine exists_congr fun n => and_congr_right fun hn => and_congr_right fun heq => ?_
  rw [heq, h.isCyclic_iff hn]

/-- Groups that share a number are the same. -/
theorem IsSound.groups_unique {group group' : List Nat} (hg : group ∈ g.groups keep)
    (hg' : group' ∈ g.groups keep) {m : Nat} (hm : m ∈ group) (hm' : m ∈ group') :
    group = group' := by
  obtain ⟨n, hn, rfl, -, -⟩ := h.mem_groups.mp hg
  obtain ⟨n', hn', rfl, -, -⟩ := h.mem_groups.mp hg'
  exact (h.componentOf_eq hn hm).symm.trans (h.componentOf_eq hn' hm')

omit h in
theorem nodup_groups (keep : DependencyKind → Bool) (g : DependencyGraph) :
    (g.groups keep).Nodup := by
  refine List.nodup_range.filterMap fun n n' group hn hn' => ?_
  obtain ⟨-, hhead, -⟩ := groupAt?_eq_some.mp hn
  obtain ⟨-, hhead', -⟩ := groupAt?_eq_some.mp hn'
  exact Option.some.inj (hhead.symm.trans hhead')

/-- Numbers are in one group if each leads to the other. -/
theorem IsSound.mem_group_iff {m n : Nat} : (∃ group ∈ g.groups keep, m ∈ group ∧ n ∈ group) ↔
    TransGen (g.Leads keep) m n ∧ TransGen (g.Leads keep) n m := by
  constructor
  · rintro ⟨group, hgroup, hm, hn⟩
    obtain ⟨k, hk, rfl, -, hpath⟩ := h.mem_groups.mp hgroup
    obtain ⟨hkm, hmk⟩ := (h.mem_componentOf hk).mp hm
    obtain ⟨hkn, hnk⟩ := (h.mem_componentOf hk).mp hn
    exact ⟨.trans_right hmk (hpath.trans_left hkn), .trans_right hnk (hpath.trans_left hkm)⟩
  · rintro ⟨hmn, hnm⟩
    obtain ⟨_, hleads, -⟩ := TransGen.head'_iff.mp hmn
    have hm := (h.leads_lt hleads).1
    have hmself : m ∈ g.componentOf keep m := h.self_mem_componentOf hm
    -- the group is taken up at the first number of the component
    obtain ⟨k, hhead⟩ := Option.isSome_iff_exists.mp
      (List.isSome_head?.mpr (List.ne_nil_of_mem hmself))
    have hkmem := List.mem_of_mem_head? hhead
    have hk : k < g.modules.length := by simpa using (List.mem_filter.mp hkmem).1
    have hsame := h.componentOf_eq hm hkmem
    obtain ⟨hmk, hkm⟩ := (h.mem_componentOf hm).mp hkmem
    have hloop : TransGen (g.Leads keep) k k := .trans_right hkm ((hmn.trans hnm).trans_left hmk)
    exact ⟨_, h.mem_groups.mpr ⟨k, hk, hsame.symm, hhead, hloop⟩, hmself,
      (h.mem_componentOf hm).mpr ⟨hmn.to_reflTransGen, hnm.to_reflTransGen⟩⟩

end Groups

/-! ## Sorted groups of modules -/

instance : Std.TransCmp compareIds :=
  inferInstanceAs (Std.TransCmp (compareOn ModuleId.text))

instance : Std.LawfulEqCmp compareIds where
  eq_of_compare {a b} h := by
    have htext : compare a.text b.text = .eq := h
    have htext : a.text = b.text := Std.LawfulEqCmp.eq_of_compare htext
    cases a
    cases b
    exact congrArg ModuleId.mk htext

theorem compareGroups_eq : compareGroups = List.compareLex compareIds := by
  funext a b
  induction a generalizing b with
  | nil => cases b <;> rfl
  | cons x a ih => cases b with
    | nil => rfl
    | cons y b => rw [List.compareLex_cons_cons, ← ih, compareGroups]

instance : Std.TransCmp compareGroups := compareGroups_eq ▸ inferInstance

instance : Std.LawfulEqCmp compareGroups := compareGroups_eq ▸ inferInstance

/-- A list without repetitions is sorted strictly. -/
theorem pairwise_mergeSort_of_nodup {α : Type} {cmp : α → α → Ordering} [Std.TransCmp cmp]
    [Std.LawfulEqCmp cmp] {l : List α} (h : l.Nodup) :
    (l.mergeSort fun a b => (cmp a b).isLE).Pairwise (cmp · · = .lt) := by
  have htotal : ∀ a b, ((cmp a b).isLE || (cmp b a).isLE) = true := by
    intro a b
    have hswap : cmp a b = (cmp b a).swap := Std.OrientedCmp.eq_swap
    rw [hswap]
    cases cmp b a <;> rfl
  have htrans : ∀ a b c, (cmp a b).isLE = true → (cmp b c).isLE = true → (cmp a c).isLE = true :=
    fun _ _ _ hab hbc => Std.TransCmp.isLE_trans hab hbc
  have hsorted := List.pairwise_mergeSort htrans htotal l
  have hnodup : (l.mergeSort fun a b => (cmp a b).isLE).Nodup :=
    (List.mergeSort_perm l _).nodup_iff.mpr h
  refine hsorted.imp₂ (fun a b hle hne => ?_) hnodup
  exact (Ordering.isLE_iff_eq_lt_or_eq_eq.mp hle).resolve_right
    fun heq => hne (Std.LawfulEqCmp.eq_of_compare heq)

/-! ## Reports of cycles -/

/-- The groups are the cycles of a relation between modules: a module is listed if it depends on
itself, together with the modules that it depends on and that depend on it. -/
structure IsCycleReport (Depends : ModuleId → ModuleId → Prop) (groups : List (List ModuleId)) :
    Prop where
  listed : ∀ a, (∃ group ∈ groups, a ∈ group) ↔ TransGen Depends a a
  together : ∀ a b, (∃ group ∈ groups, a ∈ group ∧ b ∈ group) ↔
    TransGen Depends a b ∧ TransGen Depends b a
  unique : ∀ group ∈ groups, ∀ group' ∈ groups, ∀ a ∈ group, a ∈ group' → group = group'
  ne_nil : ∀ group ∈ groups, group ≠ []
  members_sorted : ∀ group ∈ groups, group.Pairwise (compareIds · · = .lt)
  sorted : groups.Pairwise (compareGroups · · = .lt)

section Report

variable {keep : DependencyKind → Bool} {g : DependencyGraph}

theorem mem_sortIds_named {group : List Nat} {a : ModuleId} :
    a ∈ sortIds (g.named group) ↔ ∃ m ∈ group, g.modules[m]? = some a := by
  simp [sortIds, named]

theorem mem_cyclesBy {group : List ModuleId} :
    group ∈ g.cyclesBy keep ↔ ∃ ns ∈ g.groups keep, sortIds (g.named ns) = group := by
  simp [cyclesBy_eq]

variable (h : g.IsSound)
include h

theorem IsSound.nodup_named {group : List Nat} (hgroup : group.Nodup) :
    (g.named group).Nodup :=
  hgroup.filterMap fun _ _ _ hm hn => h.number_eq hm hn

/-- Groups of modules that share a module come from one group of numbers. -/
theorem IsSound.groups_unique_of_named {ns ns' : List Nat} (hns : ns ∈ g.groups keep)
    (hns' : ns' ∈ g.groups keep) {a : ModuleId} (ha : a ∈ sortIds (g.named ns))
    (ha' : a ∈ sortIds (g.named ns')) : ns = ns' := by
  obtain ⟨m, hm, hma⟩ := mem_sortIds_named.mp ha
  obtain ⟨m', hm', hma'⟩ := mem_sortIds_named.mp ha'
  exact h.groups_unique hns hns' hm (h.number_eq hma' hma ▸ hm')

theorem IsSound.exists_mem_named {ns : List Nat} (hns : ns ∈ g.groups keep) :
    ∃ a, a ∈ sortIds (g.named ns) := by
  obtain ⟨n, hn, rfl, -, -⟩ := h.mem_groups.mp hns
  exact ⟨g.modules[n], mem_sortIds_named.mpr
    ⟨n, h.self_mem_componentOf hn, List.getElem?_eq_getElem hn⟩⟩

theorem IsSound.mem_cyclesBy_iff (a b : ModuleId) :
    (∃ group ∈ g.cyclesBy keep, a ∈ group ∧ b ∈ group) ↔
      TransGen (g.DependsOn keep) a b ∧ TransGen (g.DependsOn keep) b a := by
  constructor
  · rintro ⟨group, hgroup, ha, hb⟩
    obtain ⟨ns, hns, rfl⟩ := mem_cyclesBy.mp hgroup
    obtain ⟨m, hm, hma⟩ := mem_sortIds_named.mp ha
    obtain ⟨n, hn, hnb⟩ := mem_sortIds_named.mp hb
    rw [h.transGen_iff hma hnb, h.transGen_iff hnb hma]
    exact h.mem_group_iff.mp ⟨ns, hns, hm, hn⟩
  · rintro ⟨hab, hba⟩
    obtain ⟨m, hma⟩ := exists_number_of_transGen hab
    obtain ⟨n, hnb⟩ := exists_number_of_transGen hba
    rw [h.transGen_iff hma hnb] at hab
    rw [h.transGen_iff hnb hma] at hba
    obtain ⟨ns, hns, hm, hn⟩ := h.mem_group_iff.mpr ⟨hab, hba⟩
    exact ⟨_, mem_cyclesBy.mpr ⟨ns, hns, rfl⟩, mem_sortIds_named.mpr ⟨m, hm, hma⟩,
      mem_sortIds_named.mpr ⟨n, hn, hnb⟩⟩

/-- A sound graph reports exactly its cycles by references of the kinds that count. -/
theorem IsSound.isCycleReport (keep : DependencyKind → Bool) :
    IsCycleReport (g.DependsOn keep) (g.cyclesBy keep) where
  listed a := by
    have hmem : (∃ group ∈ g.cyclesBy keep, a ∈ group ∧ a ∈ group) ↔ _ := h.mem_cyclesBy_iff a a
    simpa using hmem
  together := h.mem_cyclesBy_iff
  unique group hgroup group' hgroup' a ha ha' := by
    obtain ⟨ns, hns, rfl⟩ := mem_cyclesBy.mp hgroup
    obtain ⟨ns', hns', rfl⟩ := mem_cyclesBy.mp hgroup'
    rw [h.groups_unique_of_named hns hns' ha ha']
  ne_nil group hgroup := by
    obtain ⟨ns, hns, rfl⟩ := mem_cyclesBy.mp hgroup
    obtain ⟨a, ha⟩ := h.exists_mem_named hns
    exact List.ne_nil_of_mem ha
  members_sorted group hgroup := by
    obtain ⟨ns, hns, rfl⟩ := mem_cyclesBy.mp hgroup
    obtain ⟨n, -, rfl, -, -⟩ := h.mem_groups.mp hns
    exact pairwise_mergeSort_of_nodup (h.nodup_named (List.nodup_range.filter _))
  sorted := by
    rw [cyclesBy_eq]
    refine pairwise_mergeSort_of_nodup ((nodup_groups keep g).map_on fun ns hns ns' hns' heq => ?_)
    obtain ⟨a, ha⟩ := h.exists_mem_named hns
    exact h.groups_unique_of_named hns hns' ha (heq ▸ ha)

end Report

/-- Where more references count, a cycle is part of a cycle. -/
theorem IsCycleReport.exists_superset {Depends Depends' : ModuleId → ModuleId → Prop}
    {groups groups' : List (List ModuleId)} (h : IsCycleReport Depends groups)
    (h' : IsCycleReport Depends' groups') (hle : ∀ a b, Depends a b → Depends' a b)
    {group : List ModuleId} (hgroup : group ∈ groups) : ∃ group' ∈ groups', group ⊆ group' := by
  obtain ⟨a, ha⟩ := List.exists_mem_of_ne_nil group (h.ne_nil group hgroup)
  have hpath : ∀ {a b}, TransGen Depends a b → TransGen Depends' a b :=
    fun hab => TransGen.mono hle _ _ hab
  obtain ⟨whole, hwhole, haw⟩ := (h'.listed a).mpr (hpath ((h.listed a).mp ⟨group, hgroup, ha⟩))
  refine ⟨whole, hwhole, fun b hb => ?_⟩
  obtain ⟨hab, hba⟩ := (h.together a b).mp ⟨group, hgroup, ha, hb⟩
  obtain ⟨whole', hwhole', haw', hbw'⟩ := (h'.together a b).mpr ⟨hpath hab, hpath hba⟩
  exact h'.unique whole hwhole whole' hwhole' a haw haw' ▸ hbw'

/-- Whatever modules and references a graph was made of, in whatever order, its reports list exactly
its cycles, and a cycle of clauses is part of a cycle of references. -/
theorem isCycleReport_ofEntries (entries : List Entry) :
    IsCycleReport ((ofEntries entries).DependsOn fun _ => true) (ofEntries entries).cycles ∧
    IsCycleReport ((ofEntries entries).DependsOn DependencyKind.isInheritance)
      (ofEntries entries).inheritanceCycles ∧
    ∀ group ∈ (ofEntries entries).inheritanceCycles,
      ∃ whole ∈ (ofEntries entries).cycles, group ⊆ whole := by
  have hsound := isSound_ofEntries entries
  have hall := hsound.isCycleReport fun _ => true
  have hclauses := hsound.isCycleReport DependencyKind.isInheritance
  exact ⟨hall, hclauses, fun group => hclauses.exists_superset hall
    fun _ _ ⟨kind, _, hedge⟩ => ⟨kind, rfl, hedge⟩⟩

end PklAnalysis.DependencyGraph
