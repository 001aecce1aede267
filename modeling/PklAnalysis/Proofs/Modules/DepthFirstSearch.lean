import Mathlib.Data.List.Perm.Subperm
import Mathlib.Data.List.Perm.Lattice
import Mathlib.Data.List.Range
import Mathlib.Logic.Relation
import PklAnalysis.Modules.DependencyGraph

/-!
# Depth-first search

A search discovers what its starts reach, and finishes with a node after the nodes that it leads
to, unless these lead back to it (`Search.IsSound`).  `exhaust` is the same search with a stack of
nodes instead of a recursion: a node may stand in the stack several times, but all its copies except
the one that discovers it come up when the search has finished with it.
-/

namespace PklAnalysis.DependencyGraph

/-- One node leads to another one directly. -/
def LeadsTo (next : Nat → List Nat) (m n : Nat) : Prop := n ∈ next m

/-- One node leads to another one in some steps, or is the same. -/
abbrev Reaches (next : Nat → List Nat) : Nat → Nat → Prop := Relation.ReflTransGen (LeadsTo next)

namespace Search

/-- The search is at a node or below it. -/
def IsOpen (s : Search) (n : Nat) : Prop := n ∈ s.discovered ∧ n ∉ s.finished

/-- A search among so many nodes that has followed every step from the nodes it has finished with.
What it finishes with later leads back only to nodes that it is part of a cycle with. -/
structure IsSound (count : Nat) (next : Nat → List Nat) (s : Search) : Prop where
  nodup : s.discovered.Nodup
  bounded : ∀ n ∈ s.discovered, n < count
  nodup_finished : s.finished.Nodup
  finished_subset : s.finished ⊆ s.discovered
  closed : ∀ m ∈ s.finished, ∀ n ∈ next m, n ∈ s.discovered
  ordered : s.finished.Pairwise fun later sooner => later ∈ next sooner → Reaches next later sooner

/-- What a search has done when it is continued at some nodes, one after the other. -/
structure Continues (next : Nat → List Nat) (starts : List Nat) (s s' : Search) : Prop where
  subset : s.discovered ⊆ s'.discovered
  isOpen_iff : ∀ n, s'.IsOpen n ↔ s.IsOpen n
  starts_subset : starts ⊆ s'.discovered
  reached : ∀ n ∈ s'.discovered, n ∈ s.discovered ∨ ∃ start ∈ starts, Reaches next start n

variable {count : Nat} {next : Nat → List Nat} {s s' s'' : Search} {starts : List Nat}

/-! ## The recursive search -/

theorem Continues.nil (s : Search) : Continues next [] s s :=
  ⟨List.Subset.refl _, fun _ => Iff.rfl, List.nil_subset _, fun _ h => .inl h⟩

/-- Nothing is done at a node that was discovered before. -/
theorem Continues.of_mem {n : Nat} (h : n ∈ s.discovered) : Continues next [n] s s :=
  ⟨List.Subset.refl _, fun _ => Iff.rfl, by simpa using h, fun _ h => .inl h⟩

theorem Continues.cons {n : Nat} (h : Continues next [n] s s') (h' : Continues next starts s' s'') :
    Continues next (n :: starts) s s'' where
  subset := List.Subset.trans h.subset h'.subset
  isOpen_iff m := (h'.isOpen_iff m).trans (h.isOpen_iff m)
  starts_subset := List.cons_subset.mpr
    ⟨h'.subset (h.starts_subset (List.mem_singleton_self n)), h'.starts_subset⟩
  reached m hm := by
    rcases h'.reached m hm with hm | ⟨start, hstart, hreach⟩
    · rcases h.reached m hm with hm | ⟨start, hstart, hreach⟩
      · exact .inl hm
      · obtain rfl := List.mem_singleton.mp hstart
        exact .inr ⟨start, List.mem_cons_self, hreach⟩
    · exact .inr ⟨start, List.mem_cons_of_mem n hstart, hreach⟩

/-- What was finished stays finished. -/
theorem Continues.finished_subset (h : Continues next starts s s') (hs : s.IsSound count next) :
    s.finished ⊆ s'.finished := by
  intro n hn
  by_contra hnot
  have hopen : s'.IsOpen n := ⟨h.subset (hs.finished_subset hn), hnot⟩
  exact ((h.isOpen_iff n).mp hopen).2 hn

theorem IsSound.empty : IsSound count next ⟨[], []⟩ :=
  ⟨List.nodup_nil, by simp, List.nodup_nil, List.Subset.refl _, by simp, .nil⟩

/-- Only so many nodes can be discovered. -/
theorem IsSound.length_lt (h : s.IsSound count next) {n : Nat} (hn : n < count)
    (hnew : n ∉ s.discovered) : s.discovered.length < count := by
  have hsub : (n :: s.discovered).Subperm (List.range count) := by
    refine (List.nodup_cons.mpr ⟨hnew, h.nodup⟩).subperm fun m hm => List.mem_range.mpr ?_
    rcases List.mem_cons.mp hm with rfl | hm
    · exact hn
    · exact h.bounded m hm
  simpa [Nat.succ_le_iff] using hsub.length_le

/-- A node is discovered, and the search goes on below it. -/
def discover (s : Search) (n : Nat) : Search := { s with discovered := n :: s.discovered }

/-- The search is done with a node. -/
def finish (s : Search) (n : Nat) : Search := { s with finished := n :: s.finished }

theorem visit_of_mem {n : Nat} (h : n ∈ s.discovered) (depth : Nat) : visit next depth s n = s := by
  cases depth <;> simp [visit, h]

theorem visit_of_notMem {n : Nat} (h : n ∉ s.discovered) (depth : Nat) :
    visit next (depth + 1) s n = ((next n).foldl (visit next depth) (s.discover n)).finish n := by
  simp [visit, h, discover, finish]

theorem isOpen_discover {n m : Nat} (hn : n ∉ s.finished) :
    (s.discover n).IsOpen m ↔ m = n ∨ s.IsOpen m := by
  simp only [IsOpen, discover, List.mem_cons]
  constructor
  · rintro ⟨rfl | hm, hnot⟩
    · exact .inl rfl
    · exact .inr ⟨hm, hnot⟩
  · rintro (rfl | ⟨hm, hnot⟩)
    · exact ⟨.inl rfl, hn⟩
    · exact ⟨.inr hm, hnot⟩

theorem isOpen_finish {n m : Nat} : (s.finish n).IsOpen m ↔ m ≠ n ∧ s.IsOpen m := by
  simp only [IsOpen, finish, List.mem_cons, not_or]
  exact ⟨fun ⟨hm, hne, hnot⟩ => ⟨hne, hm, hnot⟩, fun ⟨hne, hm, hnot⟩ => ⟨hm, hne, hnot⟩⟩

theorem IsSound.discover (h : s.IsSound count next) {n : Nat} (hn : n < count)
    (hnew : n ∉ s.discovered) : (s.discover n).IsSound count next where
  nodup := List.nodup_cons.mpr ⟨hnew, h.nodup⟩
  bounded := List.forall_mem_cons.mpr ⟨hn, h.bounded⟩
  nodup_finished := h.nodup_finished
  finished_subset := fun _ hm => List.mem_cons_of_mem n (h.finished_subset hm)
  closed m hm k hk := List.mem_cons_of_mem n (h.closed m hm k hk)
  ordered := h.ordered

/-- A node is finished with after its successors: none of what was finished before it was discovered
leads to it, and the rest is reached from it. -/
theorem IsSound.finish (h : s.IsSound count next) {n : Nat} (hnew : n ∉ s.discovered)
    (hs' : s'.IsSound count next) (hc : Continues next (next n) (s.discover n) s') :
    (s'.finish n).IsSound count next := by
  have hnot : n ∉ s.finished := fun hn => hnew (h.finished_subset hn)
  have hopen : s'.IsOpen n := (hc.isOpen_iff n).mpr ((isOpen_discover hnot).mpr (.inl rfl))
  refine ⟨hs'.nodup, hs'.bounded, List.nodup_cons.mpr ⟨hopen.2, hs'.nodup_finished⟩,
    List.cons_subset.mpr ⟨hopen.1, hs'.finished_subset⟩,
    List.forall_mem_cons.mpr ⟨hc.starts_subset, hs'.closed⟩,
    List.pairwise_cons.mpr ⟨fun m hm hleads => ?_, hs'.ordered⟩⟩
  rcases hc.reached m (hs'.finished_subset hm) with hold | ⟨start, hstart, hreach⟩
  · rcases List.mem_cons.mp hold with rfl | hold
    · exact .refl
    · -- an old node that is finished was so before, and its steps were followed
      have hfinished : m ∈ s.finished := by
        by_contra hm'
        have hopen : (s.discover n).IsOpen m := (isOpen_discover hnot).mpr (.inr ⟨hold, hm'⟩)
        exact ((hc.isOpen_iff m).mpr hopen).2 hm
      exact absurd (h.closed m hfinished n hleads) hnew
  · exact .head hstart hreach

theorem Continues.finish (h : s.IsSound count next) {n : Nat} (hnew : n ∉ s.discovered)
    (hc : Continues next (next n) (s.discover n) s') : Continues next [n] s (s'.finish n) where
  subset := fun _ hm => hc.subset (List.mem_cons_of_mem n hm)
  isOpen_iff m := by
    have hnot : n ∉ s.finished := fun hn => hnew (h.finished_subset hn)
    have hne : s.IsOpen m → m ≠ n := fun hm e => hnew (e ▸ hm.1)
    rw [isOpen_finish, hc.isOpen_iff, isOpen_discover hnot]
    exact ⟨fun ⟨hmn, hm⟩ => hm.resolve_left hmn, fun hm => ⟨hne hm, .inr hm⟩⟩
  starts_subset := List.cons_subset.mpr ⟨hc.subset List.mem_cons_self, List.nil_subset _⟩
  reached m hm := by
    rcases hc.reached m hm with hm | ⟨start, hstart, hreach⟩
    · rcases List.mem_cons.mp hm with rfl | hm
      · exact .inr ⟨m, List.mem_singleton_self m, .refl⟩
      · exact .inl hm
    · exact .inr ⟨n, List.mem_singleton_self n, .head hstart hreach⟩

/-- A step that may be made at every node may be made at some nodes one after the other. -/
theorem continues_foldl {visit : Search → Nat → Search} {depth : Nat}
    (hvisit : ∀ {s : Search}, s.IsSound count next → ∀ n < count,
      count ≤ depth + s.discovered.length →
      (visit s n).IsSound count next ∧ Continues next [n] s (visit s n))
    (h : s.IsSound count next) (hstarts : ∀ n ∈ starts, n < count)
    (hdepth : count ≤ depth + s.discovered.length) :
    (starts.foldl visit s).IsSound count next ∧ Continues next starts s (starts.foldl visit s) := by
  induction starts generalizing s with
  | nil => exact ⟨h, .nil s⟩
  | cons n starts ih =>
    obtain ⟨hn, hstarts⟩ := List.forall_mem_cons.mp hstarts
    obtain ⟨hsound, hc⟩ := hvisit h n hn hdepth
    have hlength : s.discovered.length ≤ (visit s n).discovered.length :=
      (h.nodup.subperm hc.subset).length_le
    obtain ⟨hsound', hc'⟩ := ih hsound hstarts (by omega)
    exact ⟨hsound', hc.cons hc'⟩

section Bounded

variable (hnext : ∀ m, ∀ n ∈ next m, n < count)
include hnext

/-- A search is deep enough if every level of it can discover a node. -/
theorem continues_visit {depth : Nat} (h : s.IsSound count next) (n : Nat) (hn : n < count)
    (hdepth : count ≤ depth + s.discovered.length) :
    (visit next depth s n).IsSound count next ∧ Continues next [n] s (visit next depth s n) := by
  induction depth generalizing s n with
  | zero =>
    have hmem : n ∈ s.discovered := by
      by_contra hnew
      have := h.length_lt hn hnew
      omega
    rw [visit_of_mem hmem]
    exact ⟨h, .of_mem hmem⟩
  | succ depth ih =>
    by_cases hmem : n ∈ s.discovered
    · rw [visit_of_mem hmem]
      exact ⟨h, .of_mem hmem⟩
    · have hlength : (s.discover n).discovered.length = s.discovered.length + 1 := rfl
      obtain ⟨hsound, hc⟩ := continues_foldl ih (h.discover hn hmem) (hnext n) (by omega)
      rw [visit_of_notMem hmem]
      exact ⟨h.finish hmem hsound hc, .finish h hmem hc⟩

theorem continues_searchFrom (hstarts : ∀ n ∈ starts, n < count) :
    (searchFrom count next starts).IsSound count next ∧
      Continues next starts ⟨[], []⟩ (searchFrom count next starts) := by
  exact continues_foldl (continues_visit hnext) .empty hstarts (Nat.le_add_right _ _)

/-- A search is finished with all that it has discovered. -/
theorem mem_finished_searchFrom (hstarts : ∀ n ∈ starts, n < count) {n : Nat} :
    n ∈ (searchFrom count next starts).finished ↔
      n ∈ (searchFrom count next starts).discovered := by
  obtain ⟨hsound, hc⟩ := continues_searchFrom hnext hstarts
  refine ⟨fun hn => hsound.finished_subset hn, fun hn => ?_⟩
  by_contra hnot
  exact absurd ((hc.isOpen_iff n).mp ⟨hn, hnot⟩).1 List.not_mem_nil

/-- A search discovers exactly what its starts reach. -/
theorem mem_discovered_searchFrom (hstarts : ∀ n ∈ starts, n < count) {n : Nat} :
    n ∈ (searchFrom count next starts).discovered ↔ ∃ start ∈ starts, Reaches next start n := by
  obtain ⟨hsound, hc⟩ := continues_searchFrom hnext hstarts
  constructor
  · intro hn
    exact (hc.reached n hn).resolve_left List.not_mem_nil
  · rintro ⟨start, hstart, hreach⟩
    induction hreach with
    | refl => exact hc.starts_subset hstart
    | tail _ hleads ih =>
      exact hsound.closed _ ((mem_finished_searchFrom hnext hstarts).mpr ih) _ hleads

end Bounded

/-! ## The search with a stack -/

/-- The search continued with a stack, as far as so many steps go.  The top of the stack is
discovered and its successors are put above it, or it is taken off and finished with. -/
def exhaust (next : Nat → List Nat) : Nat → Search → List Nat → Option Search
  | _, s, [] => some s
  | 0, _, _ :: _ => none
  | steps + 1, s, n :: stack =>
    if s.discovered.contains n then
      if s.finished.contains n then exhaust next steps s stack
      else exhaust next steps { s with finished := n :: s.finished } stack
    else
      let s := { s with discovered := n :: s.discovered }
      exhaust next steps s ((next n).filter (!s.discovered.contains ·) ++ n :: stack)

/-- A search with a stack from some nodes, one after the other. -/
def exhaustFrom (next : Nat → List Nat) (steps : Nat) (starts : List Nat) : Option Search :=
  starts.foldlM (fun s n => if s.discovered.contains n then some s else exhaust next steps s [n])
    ⟨[], []⟩

variable {stack : List Nat}

theorem exhaust_of_finished {n : Nat} (hn : n ∈ s.discovered) (hf : n ∈ s.finished) (steps : Nat) :
    exhaust next (steps + 1) s (n :: stack) = exhaust next steps s stack := by
  simp [exhaust, hn, hf]

theorem exhaust_of_isOpen {n : Nat} (h : s.IsOpen n) (steps : Nat) :
    exhaust next (steps + 1) s (n :: stack) = exhaust next steps (s.finish n) stack := by
  simp [exhaust, h.1, h.2, finish]

theorem exhaust_of_new {n : Nat} (h : n ∉ s.discovered) (steps : Nat) :
    exhaust next (steps + 1) s (n :: stack) = exhaust next steps (s.discover n)
      ((next n).filter (· ∉ (s.discover n).discovered) ++ n :: stack) := by
  simp [exhaust, h, discover, List.contains_eq_mem]

section Stack

variable (hnext : ∀ m, ∀ n ∈ next m, n < count)
include hnext

/-- What was discovered before the search goes on may be left out. -/
theorem foldl_visit_filter {depth : Nat} {new : Nat → Bool} (h : s.IsSound count next)
    (hnew : ∀ n, new n = false → n ∈ s.discovered) (hstarts : ∀ n ∈ starts, n < count)
    (hdepth : count ≤ depth + s.discovered.length) :
    (starts.filter new).foldl (visit next depth) s = starts.foldl (visit next depth) s := by
  induction starts generalizing s with
  | nil => rfl
  | cons n starts ih =>
    obtain ⟨hn, hstarts⟩ := List.forall_mem_cons.mp hstarts
    cases hkept : new n with
    | false => simpa [hkept, visit_of_mem (hnew n hkept)] using ih h hnew hstarts hdepth
    | true =>
      obtain ⟨hsound, hc⟩ := continues_visit hnext h n hn hdepth
      have hlength := (h.nodup.subperm hc.subset).length_le
      have hrest := ih hsound (fun m hm => hc.subset (hnew m hm)) hstarts (by omega)
      simpa [hkept] using hrest

/-- The nodes on top of a stack are taken off as the recursive search visits them.  None of them is
open: the copies of a node that was pushed more than once come up after it is finished with. -/
theorem exhaust_append {depth : Nat}
    (hvisit : ∀ {s : Search}, s.IsSound count next → ∀ n < count, ¬s.IsOpen n →
      count ≤ depth + s.discovered.length →
      ∃ k, ∀ steps stack, exhaust next (k + steps) s (n :: stack) =
        exhaust next steps (visit next depth s n) stack)
    (h : s.IsSound count next) (hstarts : ∀ n ∈ starts, n < count)
    (hopen : ∀ n ∈ starts, ¬s.IsOpen n) (hdepth : count ≤ depth + s.discovered.length) :
    ∃ k, ∀ steps stack, exhaust next (k + steps) s (starts ++ stack) =
      exhaust next steps (starts.foldl (visit next depth) s) stack := by
  induction starts generalizing s with
  | nil => exact ⟨0, fun steps stack => by rw [Nat.zero_add]; rfl⟩
  | cons n starts ih =>
    obtain ⟨hn, hstarts⟩ := List.forall_mem_cons.mp hstarts
    obtain ⟨hnopen, hopen⟩ := List.forall_mem_cons.mp hopen
    obtain ⟨hsound, hc⟩ := continues_visit hnext h n hn hdepth
    have hlength := (h.nodup.subperm hc.subset).length_le
    obtain ⟨k, hk⟩ := hvisit h n hn hnopen hdepth
    obtain ⟨k', hk'⟩ := ih hsound hstarts
      (fun m hm hmopen => hopen m hm ((hc.isOpen_iff m).mp hmopen)) (by omega)
    refine ⟨k + k', fun steps stack => ?_⟩
    rw [Nat.add_assoc, List.cons_append, hk, hk', List.foldl_cons]

omit hnext in
/-- A node that the search has been through is taken off. -/
theorem exhaust_of_mem {n : Nat} (hmem : n ∈ s.discovered) (hopen : ¬s.IsOpen n) (depth : Nat) :
    ∃ k, ∀ steps stack, exhaust next (k + steps) s (n :: stack) =
      exhaust next steps (visit next depth s n) stack := by
  have hfinished : n ∈ s.finished := by
    by_contra hnot
    exact hopen ⟨hmem, hnot⟩
  refine ⟨1, fun steps stack => ?_⟩
  rw [Nat.add_comm, exhaust_of_finished hmem hfinished, visit_of_mem hmem]

/-- A stack whose top is not open is gone on with as the recursive search visits its top. -/
theorem exhaust_visit {depth : Nat} (h : s.IsSound count next) (n : Nat) (hn : n < count)
    (hopen : ¬s.IsOpen n) (hdepth : count ≤ depth + s.discovered.length) :
    ∃ k, ∀ steps stack, exhaust next (k + steps) s (n :: stack) =
      exhaust next steps (visit next depth s n) stack := by
  by_cases hmem : n ∈ s.discovered
  · exact exhaust_of_mem hmem hopen depth
  induction depth generalizing s n with
  | zero =>
    have := h.length_lt hn hmem
    omega
  | succ depth ih =>
    have hsound := h.discover hn hmem
    have hlength : (s.discover n).discovered.length = s.discovered.length + 1 := rfl
    have hdepth : count ≤ depth + (s.discover n).discovered.length := by omega
    obtain ⟨-, hc⟩ := continues_foldl (continues_visit hnext) hsound (hnext n) hdepth
    have hbelow := (isOpen_discover fun hf => hmem (h.finished_subset hf)).mpr (.inl rfl)
    let new := (next n).filter (· ∉ (s.discover n).discovered)
    have hnew : ∀ m ∈ new, m < count ∧ ¬(s.discover n).IsOpen m := fun m hm =>
      ⟨hnext n m (List.mem_filter.mp hm).1,
        fun hmopen => of_decide_eq_true (List.mem_filter.mp hm).2 hmopen.1⟩
    have hvisit : ∀ {s : Search}, s.IsSound count next → ∀ m < count, ¬s.IsOpen m →
        count ≤ depth + s.discovered.length → ∃ k, ∀ steps stack,
          exhaust next (k + steps) s (m :: stack) =
            exhaust next steps (visit next depth s m) stack := by
      intro s hs m hm hmopen hd
      by_cases hmem : m ∈ s.discovered
      · exact exhaust_of_mem hmem hmopen depth
      · exact ih hs m hm hmopen hd hmem
    -- the stack gets copies of the successors that are new, and the search goes through them
    obtain ⟨k, hk⟩ := exhaust_append hnext hvisit hsound (fun m hm => (hnew m hm).1)
      (fun m hm => (hnew m hm).2) hdepth
    refine ⟨1 + k + 1, fun steps stack => ?_⟩
    have hsteps : 1 + k + 1 + steps = k + (steps + 1) + 1 := by omega
    rw [hsteps, exhaust_of_new hmem, hk, foldl_visit_filter hnext hsound (by simp) (hnext n) hdepth,
      exhaust_of_isOpen ((hc.isOpen_iff n).mpr hbelow), visit_of_notMem hmem]

/-- A search that is not below any node may be continued with a stack at some nodes. -/
theorem foldlM_exhaust {depth : Nat} (h : s.IsSound count next) (hstarts : ∀ n ∈ starts, n < count)
    (hopen : ∀ n, ¬s.IsOpen n) (hdepth : count ≤ depth + s.discovered.length) :
    ∃ enough, ∀ steps ≥ enough,
      starts.foldlM
          (fun s n => if s.discovered.contains n then some s else exhaust next steps s [n]) s =
        some (starts.foldl (visit next depth) s) := by
  induction starts generalizing s with
  | nil => exact ⟨0, fun _ _ => rfl⟩
  | cons n starts ih =>
    obtain ⟨hn, hstarts⟩ := List.forall_mem_cons.mp hstarts
    obtain ⟨hsound, hc⟩ := continues_visit hnext h n hn hdepth
    have hlength := (h.nodup.subperm hc.subset).length_le
    obtain ⟨k, hk⟩ := exhaust_visit hnext h n hn (hopen n) hdepth
    obtain ⟨enough, hrest⟩ := ih hsound hstarts
      (fun m hm => hopen m ((hc.isOpen_iff m).mp hm)) (by omega)
    refine ⟨k + enough, fun steps hsteps => ?_⟩
    obtain ⟨spare, rfl⟩ := Nat.exists_eq_add_of_le (Nat.le_trans (Nat.le_add_right k enough) hsteps)
    have hfirst : (if s.discovered.contains n then some s else exhaust next (k + spare) s [n]) =
        some (visit next depth s n) := by
      by_cases hmem : n ∈ s.discovered
      · simp [hmem, visit_of_mem hmem]
      · simpa [hmem, exhaust] using hk spare []
    rw [List.foldlM_cons, hfirst]
    exact hrest (k + spare) (by omega)

/-- The search with a stack comes to the same end as the recursive one, given enough steps. -/
theorem exists_exhaustFrom (hstarts : ∀ n ∈ starts, n < count) :
    ∃ enough, ∀ steps ≥ enough,
      exhaustFrom next steps starts = some (searchFrom count next starts) := by
  exact foldlM_exhaust hnext .empty hstarts (fun n hn => List.not_mem_nil hn.1)
    (Nat.le_add_right _ _)

end Stack

end Search

end PklAnalysis.DependencyGraph
