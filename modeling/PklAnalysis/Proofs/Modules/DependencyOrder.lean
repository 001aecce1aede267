import PklAnalysis.Proofs.Modules.DependencyCycles

/-!
# The order of dependencies

The finishing order of a search through all modules puts a module behind those that it refers to,
unless these refer back to it.  So it is the order that `topologicalOrder?` looks for exactly if the
graph has no cycles.
-/

namespace PklAnalysis.DependencyGraph

open Relation

/-- A list of all modules of a graph, each once, with what a module refers to before it. -/
structure IsTopological (g : DependencyGraph) (order : List ModuleId) : Prop where
  nodup : order.Nodup
  mem_iff : ∀ id, id ∈ order ↔ id ∈ g.modules
  before : ∀ a b, g.DependsOn (fun _ => true) a b → order.idxOf b < order.idxOf a

/-- The finishing order as the search with a stack comes to it. -/
def stackOrder (steps : Nat) (g : DependencyGraph) : Option (List ModuleId) :=
  (Search.exhaustFrom (successors g.edges) steps (List.range g.modules.length)).map
    fun s => g.named s.finished.reverse

variable {g : DependencyGraph}

/-- Without a choice of kinds all references lead on. -/
theorem leads_true : g.Leads (fun _ => true) = LeadsTo (successors g.edges) := by
  rw [Leads, kept, List.filter_true]

theorem IsSound.successors_lt (h : g.IsSound) :
    ∀ m, ∀ n ∈ successors g.edges m, n < g.modules.length := by
  intro m n hn
  obtain ⟨e, he, rfl⟩ : ∃ e ∈ g.edges, e.target = n := by
    obtain ⟨e, he, hn⟩ := List.mem_map.mp hn
    exact ⟨e, List.mem_of_mem_filter he, hn⟩
  exact (h.closed e he).2

/-! ## The finishing order -/

section Finishing

variable (h : g.IsSound)
include h

theorem IsSound.nodup_finishingOrder : g.finishingOrder.Nodup := by
  have hstarts : ∀ n ∈ List.range g.modules.length, n < g.modules.length := by simp
  obtain ⟨hsound, -⟩ := Search.continues_searchFrom h.successors_lt hstarts
  exact List.nodup_reverse.mpr hsound.nodup_finished

theorem IsSound.mem_finishingOrder {n : Nat} : n ∈ g.finishingOrder ↔ n < g.modules.length := by
  have hstarts : ∀ n ∈ List.range g.modules.length, n < g.modules.length := by simp
  obtain ⟨hsound, hc⟩ := Search.continues_searchFrom h.successors_lt hstarts
  rw [finishingOrder, List.mem_reverse]
  constructor
  · intro hn
    exact hsound.bounded n (hsound.finished_subset hn)
  · intro hn
    exact (Search.mem_finished_searchFrom h.successors_lt hstarts).mpr
      (hc.starts_subset (List.mem_range.mpr hn))

/-- A reference against the finishing order is part of a cycle. -/
theorem IsSound.respects_or_transGen {e : DependencyEdge} (he : e ∈ g.edges) :
    respects g.finishingOrder e = true ∨ TransGen (g.Leads fun _ => true) e.source e.source := by
  have hleads : g.Leads (fun _ => true) e.source e.target := leads_iff.mpr ⟨e, he, rfl, rfl, rfl⟩
  by_cases hrespects : respects g.finishingOrder e = true
  · exact .inl hrespects
  · refine .inr (.head' hleads ?_)
    have hle : g.finishingOrder.idxOf e.source ≤ g.finishingOrder.idxOf e.target := by
      simpa [respects] using hrespects
    have hsource := h.mem_finishingOrder.mpr (h.closed e he).1
    have htarget := h.mem_finishingOrder.mpr (h.closed e he).2
    rcases Nat.eq_or_lt_of_le hle with heq | hlt
    · rw [(List.idxOf_inj hsource).mp heq]
    · have hstarts : ∀ n ∈ List.range g.modules.length, n < g.modules.length := by simp
      obtain ⟨hsound, -⟩ := Search.continues_searchFrom h.successors_lt hstarts
      have hordered := List.pairwise_iff_getElem.mp (List.pairwise_reverse.mpr hsound.ordered) _ _
        (List.idxOf_lt_length_of_mem hsource) (List.idxOf_lt_length_of_mem htarget) hlt
      rw [List.getElem_idxOf, List.getElem_idxOf] at hordered
      rw [leads_true] at hleads ⊢
      exact hordered hleads

/-- The finishing order respects all references exactly if there are no cycles. -/
theorem IsSound.respects_iff : g.edges.all (respects g.finishingOrder) = true ↔
    ∀ n, ¬TransGen (g.Leads fun _ => true) n n := by
  rw [List.all_eq_true]
  constructor
  · intro hall n hpath
    have hlt : ∀ {m k}, TransGen (g.Leads fun _ => true) m k →
        g.finishingOrder.idxOf k < g.finishingOrder.idxOf m := by
      intro m k hmk
      have hstep : ∀ {m k}, g.Leads (fun _ => true) m k →
          g.finishingOrder.idxOf k < g.finishingOrder.idxOf m := by
        intro m k hleads
        obtain ⟨e, he, -, rfl, rfl⟩ := leads_iff.mp hleads
        exact of_decide_eq_true (hall e he)
      induction hmk with
      | single hleads => exact hstep hleads
      | tail _ hleads ih => exact (hstep hleads).trans ih
    exact Nat.lt_irrefl _ (hlt hpath)
  · intro hnone e he
    exact (h.respects_or_transGen he).resolve_right (hnone e.source)

/-- The names of numbers stand where the numbers stand. -/
theorem IsSound.idxOf_named {ns : List Nat} (hns : ∀ n ∈ ns, n < g.modules.length) {n : Nat}
    {a : ModuleId} (hn : g.modules[n]? = some a) : (g.named ns).idxOf a = ns.idxOf n := by
  induction ns with
  | nil => rfl
  | cons k ns ih =>
    obtain ⟨hk, hns⟩ := List.forall_mem_cons.mp hns
    have hname := List.getElem?_eq_getElem hk
    have hsame : g.modules[k] = a ↔ k = n := by
      constructor
      · rintro rfl
        exact h.number_eq hname hn
      · rintro rfl
        exact Option.some.inj (hname.symm.trans hn)
    have hcons : g.named (k :: ns) = g.modules[k] :: g.named ns := by simp [named, hname]
    have hbeq : (g.modules[k] == a) = (k == n) := by
      rw [Bool.eq_iff_iff, beq_iff_eq, beq_iff_eq, hsame]
    rw [hcons, List.idxOf_cons, List.idxOf_cons, ih hns, hbeq]

theorem IsSound.isTopological_finishingOrder
    (hall : g.edges.all (respects g.finishingOrder) = true) :
    g.IsTopological (g.named g.finishingOrder) where
  nodup := h.nodup_named h.nodup_finishingOrder
  mem_iff id := by
    simp only [named, List.mem_filterMap, h.mem_finishingOrder]
    constructor
    · rintro ⟨n, -, hn⟩
      exact List.mem_of_getElem? hn
    · intro hid
      obtain ⟨n, -, hlt, hn⟩ := exists_number hid
      exact ⟨n, hlt, hn⟩
  before a b hab := by
    obtain ⟨m, n, hm, hn, hleads⟩ := dependsOn_iff.mp hab
    obtain ⟨e, he, -, rfl, rfl⟩ := leads_iff.mp hleads
    have hlt : ∀ n ∈ g.finishingOrder, n < g.modules.length := fun _ => h.mem_finishingOrder.mp
    rw [h.idxOf_named hlt hm, h.idxOf_named hlt hn]
    exact of_decide_eq_true (List.all_eq_true.mp hall e he)

end Finishing

/-! ## The order that is found -/

theorem IsSound.cycles_eq_nil_iff (h : g.IsSound) :
    g.cycles = [] ↔ ∀ n, ¬TransGen (g.Leads fun _ => true) n n := by
  have hreport := h.isCycleReport fun _ => true
  rw [List.eq_nil_iff_forall_not_mem]
  constructor
  · intro hnone n hpath
    obtain ⟨_, hleads, -⟩ := TransGen.head'_iff.mp hpath
    have hn := List.getElem?_eq_getElem (h.leads_lt hleads).1
    obtain ⟨group, hgroup, -⟩ := (hreport.listed _).mpr ((h.transGen_iff hn hn).mpr hpath)
    exact hnone group hgroup
  · intro hnone group hgroup
    obtain ⟨a, ha⟩ := List.exists_mem_of_ne_nil group (hreport.ne_nil group hgroup)
    have hpath := (hreport.listed a).mp ⟨group, hgroup, ha⟩
    obtain ⟨m, hm⟩ := exists_number_of_transGen hpath
    exact hnone m ((h.transGen_iff hm hm).mp hpath)

theorem topologicalOrder?_eq_some {order : List ModuleId} : g.topologicalOrder? = some order ↔
    g.edges.all (respects g.finishingOrder) = true ∧ g.named g.finishingOrder = order := by
  simp [topologicalOrder?]

theorem IsSound.exists_stackOrder (h : g.IsSound) :
    ∃ enough, ∀ steps ≥ enough, g.stackOrder steps = some (g.named g.finishingOrder) := by
  have hstarts : ∀ n ∈ List.range g.modules.length, n < g.modules.length := by simp
  obtain ⟨enough, hexhaust⟩ := Search.exists_exhaustFrom h.successors_lt hstarts
  refine ⟨enough, fun steps hsteps => ?_⟩
  rw [stackOrder, hexhaust steps hsteps]
  rfl

/-- Whatever modules and references a graph was made of, in whatever order: its modules can be put
in an order with dependencies first exactly if no cycles are reported, and the order that is given
then is such an order, the one in which a search with a stack finishes with them. -/
theorem topologicalOrder?_ofEntries (entries : List Entry) :
    ((∃ order, (ofEntries entries).topologicalOrder? = some order) ↔
      (ofEntries entries).cycles = []) ∧
    ∀ order, (ofEntries entries).topologicalOrder? = some order →
      (ofEntries entries).IsTopological order ∧
      ∃ enough, ∀ steps ≥ enough, (ofEntries entries).stackOrder steps = some order := by
  have h := isSound_ofEntries entries
  simp only [topologicalOrder?_eq_some, h.cycles_eq_nil_iff, ← h.respects_iff]
  refine ⟨by simp, ?_⟩
  rintro _ ⟨hall, rfl⟩
  exact ⟨h.isTopological_finishingOrder hall, h.exists_stackOrder⟩

/-- A reference to a module that is entered later is left out, others may be entered twice. -/
example : (ofEntries [.module ⟨"a"⟩, .dependency ⟨"a"⟩ ⟨"b"⟩ .import, .module ⟨"b"⟩,
    .dependency ⟨"b"⟩ ⟨"a"⟩ .import, .dependency ⟨"b"⟩ ⟨"a"⟩ .extends]).topologicalOrder? =
      some [⟨"a"⟩, ⟨"b"⟩] := by
  decide

end PklAnalysis.DependencyGraph
