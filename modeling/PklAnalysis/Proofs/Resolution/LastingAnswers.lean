import PklAnalysis.Proofs.Resolution.FaithfulChains
import PklAnalysis.Proofs.Resolution.FaithfulQuestions
import PklAnalysis.Proofs.Resolution.Steady

/-!
# Modules are found again

Sessions over a proper store know no trees but those of their stores, which never lose one.
Whatever is asked meanwhile, a URI therefore leads to the same module again, and so do the clauses
from one module to the next: a chain of supermodules that comes to an end is found again later.
-/

namespace PklAnalysis.Session

variable {W : Store} {s s' s'' : Session} {t u : Tree}

/-! ## Sessions that go with their stores -/

/-- The trees that a session knows are those of its store, which is proper, and it knows the modules
to which it remembers that URIs lead. -/
structure IsInStep (s : Session) : Prop where
  store : s.store.IsProper
  keys : s.trees.keys.Nodup
  trees : ∀ id u, s.trees.get? id = some u → s.store.tree? id = some u
  targets : ∀ key id, s.targets.get? key = some (.ok id) → ∃ u ∈ s.known, u.id = id

namespace IsInStep

theorem new (hW : W.IsProper) : (new W).IsInStep where
  store := hW
  keys := List.nodup_nil
  trees _ _ h := nomatch h
  targets _ _ h := nomatch h

/-- A tree that is known is the one that is looked up for its module. -/
theorem tree?_of_known (h : s.IsInStep) (hu : u ∈ s.known) : tree? u.id s = (some u, s) := by
  rw [tree?_apply]
  rcases hu with rfl | hu
  · exact if_pos rfl
  · split
    · next hid =>
      have hstored := h.trees _ _ hu
      rw [hid, h.store.base] at hstored
      cases hstored
    · rw [hu]

theorem setTree (h : s.IsInStep) (hu : s.store.tree? u.id = some u) :
    (s.setTree u).IsInStep ∧ s.GrowsInto (s.setTree u) := by
  have htrees (id : ModuleId) (v : Tree) (hv : (s.setTree u).trees.get? id = some v) :
      s.store.tree? id = some v := by
    rw [get?_trees_setTree] at hv
    split at hv
    · next hid => rwa [← Option.some.inj hv, ← hid]
    · exact h.trees id v hv
  have hknown : s.known ⊆ (s.setTree u).known := by
    refine fun v hv => hv.imp_right fun hv => ?_
    rw [get?_trees_setTree]
    split
    · next hid => rw [← hu, hid, h.trees _ _ hv]
    · exact hv
  refine ⟨⟨h.store, Dict.nodup_keys_insert h.keys _ _, htrees, fun key id hkey => ?_⟩,
    .of_known hknown rfl⟩
  exact (h.targets key id hkey).imp fun v hv => ⟨hknown hv.1, hv.2⟩

theorem tree? (h : s.IsInStep) (id : ModuleId) :
    (tree? id s).2.IsInStep ∧ s.GrowsInto (tree? id s).2 := by
  rw [tree?_apply]
  split
  · exact ⟨h, .refl s⟩
  · split
    · exact ⟨h, .refl s⟩
    · split
      · exact ⟨h, .refl s⟩
      · next stored hstored =>
        rw [← h.store.keyed _ _ hstored] at hstored
        exact h.setTree hstored

theorem newerTrees_eq_nil (h : s.IsInStep) (except : ModuleId) : s.newerTrees except = [] := by
  refine List.filterMap_eq_nil_iff.mpr fun ⟨id, own⟩ hmem => ?_
  have hown := h.trees id own (Dict.get?_of_mem h.keys hmem)
  simp [hown]

/-- A tree that the store holds is known already or the first of its module. -/
theorem arrival_of_mem (h : s.IsInStep) (ht : t ∈ s.store.held) :
    s.arrival t = .known ∨ s.arrival t = .first ∧ s.store.tree? t.id = some t := by
  rw [arrival]
  rcases ht with rfl | ht
  · have hnone : s.store.tree? BaseModule.tree.id = none := h.store.base
    rw [hnone]
    cases s.trees.get? BaseModule.tree.id with
    | none => exact .inl (if_pos rfl)
    | some own => exact .inl (if_pos (Bool.or_eq_true_iff.mpr (.inr (decide_eq_true rfl))))
  · cases hown : s.trees.get? t.id with
    | none =>
      rw [ht]
      exact .inr ⟨if_pos rfl, rfl⟩
    | some own =>
      obtain rfl : t = own := Option.some.inj (ht.symm.trans (h.trees _ _ hown))
      exact .inl (if_pos (by simp))

theorem adopt (h : s.IsInStep) (ht : t ∈ s.store.held) :
    (adopt t s).2.IsInStep ∧ s.GrowsInto (adopt t s).2 := by
  rw [adopt_apply, h.newerTrees_eq_nil]
  rcases h.arrival_of_mem ht with hknown | ⟨hfirst, ht⟩
  · rw [hknown]
    exact ⟨h, .refl s⟩
  · rw [hfirst]
    exact h.setTree ht

theorem following (h : s.IsInStep) (importer : ModuleId) (uri : String) :
    let found := Store.resolve uri importer s.store
    (s.following found.2 importer uri found.1).IsInStep ∧
      s.GrowsInto (s.following found.2 importer uri found.1) ∧
      ∀ u, found.1 = .ok u → u ∈ (s.following found.2 importer uri found.1).known := by
  have hresolves := Store.resolves_resolve uri importer s.store
  have hproper : (Store.resolve uri importer s.store).2.IsProper :=
    ⟨h.store.toIsFiled.resolve uri importer, Store.base_resolve h.store.base uri importer⟩
  generalize Store.resolve uri importer s.store = resolved at hresolves hproper ⊢
  obtain ⟨found, store⟩ := resolved
  simp only
  have htrees (id : ModuleId) (v : Tree)
      (hv : (s.following store importer uri found).trees.get? id = some v) :
      store.tree? id = some v := by
    rcases get?_trees_following.mp hv with hv | ⟨-, hfound, rfl⟩
    · exact hresolves.grows id v (h.trees id v hv)
    · exact hresolves.stored h.store.keyed v hfound
  have hknown : s.known ⊆ (s.following store importer uri found).known :=
    fun v hv => hv.imp_right fun hv => get?_trees_following.mpr (.inl hv)
  have hfollowed (u : Tree) (hu : found = .ok u) :
      u ∈ (s.following store importer uri found).known := by
    refine .inr (get?_trees_following.mpr ?_)
    cases hown : s.trees.get? u.id with
    | none => exact .inr ⟨rfl, hu, rfl⟩
    | some own =>
      have hown := hresolves.grows _ _ (h.trees _ _ hown)
      rw [hresolves.stored h.store.keyed u hu] at hown
      exact .inl hown.symm
  have hget (key : ModuleId × String) :
      (s.following store importer uri found).targets.get? key = (s.targets.get? key).or
        (if (importer, uri) == key then some (found.map (·.id)) else none) :=
    Dict.get?_insertNew s.targets (importer, uri) key _
  refine ⟨⟨hproper, ?_, htrees, fun key id hkey => ?_⟩, ⟨hknown, fun key target hkey => ?_⟩,
    hfollowed⟩
  · cases found with
    | error e => exact h.keys
    | ok u => exact Dict.nodup_keys_insertNew h.keys _ _
  · rw [hget, Option.or_eq_some_iff] at hkey
    rcases hkey with hkey | ⟨-, hkey⟩
    · exact (h.targets key id hkey).imp fun v hv => ⟨hknown hv.1, hv.2⟩
    · have hfound := Option.some.inj (Option.ite_none_right_eq_some.mp hkey).2
      obtain ⟨u, hu, rfl⟩ := exists_of_map_eq_ok hfound
      exact ⟨u, hfollowed u hu, rfl⟩
  · rw [hget, hkey, Option.some_or]

theorem resolveModule (h : s.IsInStep) (importer : Tree) (uri : String) :
    (resolveModule importer uri s).2.IsInStep ∧ s.GrowsInto (resolveModule importer uri s).2 :=
  resolveModule_induction (I := fun s' => s'.IsInStep ∧ s.GrowsInto s') importer uri ⟨h, .refl s⟩
    h.tree? fun _ => ⟨(h.following importer.id uri).1, (h.following importer.id uri).2.1⟩

end IsInStep

/-- A session goes on from another one over the same store: it knows what that one knew, and its
store holds a tree. -/
structure GoesOn (s₀ : Session) (t : Tree) (s : Session) : Prop where
  inStep : s.IsInStep
  held : t ∈ s.store.held
  grows : s₀.GrowsInto s

/-- Queries about a tree of the store only add to what a session knows of modules. -/
theorem kept_goesOn (s₀ : Session) (t : Tree) : Kept t (GoesOn s₀ t) where
  adopt s h := by
    obtain ⟨hstep, hgrows⟩ := h.inStep.adopt h.held
    exact ⟨hstep, by rw [store_adopt]; exact h.held, h.grows.trans hgrows⟩
  byId id s h := by
    obtain ⟨hstep, hgrows⟩ := h.inStep.tree? id
    exact ⟨hstep, by rw [store_tree?]; exact h.held, h.grows.trans hgrows⟩
  byUri importer uri s h := by
    obtain ⟨hstep, hgrows⟩ := h.inStep.resolveModule importer uri
    refine ⟨hstep, ?_, h.grows.trans hgrows⟩
    exact h.held.imp_right ((kept_stored t t.id t).byUri importer uri s)
  remember s s' hsame h := by
    have hknown : s'.known = s.known := by rw [known, known, hsame.trees]
    refine ⟨⟨?_, ?_, ?_, ?_⟩, ?_, ⟨?_, ?_⟩⟩
    · rw [hsame.store]
      exact h.inStep.store
    · rw [hsame.trees]
      exact h.inStep.keys
    · rw [hsame.store, hsame.trees]
      exact h.inStep.trees
    · rw [hsame.targets, hknown]
      exact h.inStep.targets
    · rw [hsame.store]
      exact h.held
    · rw [hknown]
      exact h.grows.known
    · rw [hsame.targets]
      exact h.grows.targets

section Queries

variable {α : Type} {q : Query α}

/-- A query about a tree that the store holds only adds to what a session knows of modules. -/
theorem IsInStep.query (h : s.IsInStep) (ht : t ∈ s.store.held) (hq : Traced t q) :
    GoesOn s t (q s).2 := by
  obtain ⟨log, hlog⟩ := hq s
  exact (hlog.invariant (kept_goesOn s t) ⟨h, ht, .refl s⟩).1

end Queries

/-! ## One question after another -/

/-- A session that another one has become by answering questions about trees that modules had, and
by reading annotations in them. -/
inductive Precedes (s : Session) : Session → Prop
  | refl : Precedes s s
  | ask {s' : Session} {t : Tree} (h : Precedes s s') (ht : s'.store.current? t.id = some t)
      (q : Question) : Precedes s (ask t q s').2
  | read {s' : Session} {t : Tree} (h : Precedes s s') (ht : s'.store.current? t.id = some t)
      (context : Nat) (a : TypeExpr) : Precedes s (resolveType t context a s').2

theorem traced_ask (t : Tree) (q : Question) : Traced t (ask t q) := by
  obtain ⟨rest, hask, hrest⟩ := exists_ask_eq (t := t) q
  rw [hask]
  exact (traced_adopt t).bind fun _ => hrest

theorem Precedes.goesOn (h : Precedes s s') (hs : s.IsInStep) :
    s'.IsInStep ∧ s.GrowsInto s' := by
  induction h with
  | refl => exact ⟨hs, .refl s⟩
  | ask _ ht q ih =>
    have hnext := ih.1.query (Store.mem_held_of_current? ht) (traced_ask _ q)
    exact ⟨hnext.inStep, ih.2.trans hnext.grows⟩
  | @read _ m _ ht context a ih =>
    have hnext := ih.1.query (Store.mem_held_of_current? ht)
      ((traced_lookups m).resolveType m context a)
    exact ⟨hnext.inStep, ih.2.trans hnext.grows⟩

theorem Consulted.precedes (hs : Consulted W s) : Precedes (Session.new W) s := by
  induction hs with
  | new => exact .refl
  | ask _ ht q ih => exact ih.ask ht q
  | read _ ht context a ih => exact ih.read ht context a

/-! ## Answers that last -/

/-- Later sessions answer a query as it has been answered once, and learn nothing from it. -/
structure Lasts {α : Type} (q : Query α) : Prop where
  traced : Traced BaseModule.tree q
  again : ∀ s s', s.IsInStep → s'.IsInStep → (q s).2.GrowsInto s' → q s' = ((q s).1, s')

namespace Lasts

variable {α β : Type}

theorem pure (a : α) : Lasts (Pure.pure a : Query α) := ⟨.pure a, fun _ _ _ _ _ => rfl⟩

theorem bind {q : Query α} {f : α → Query β} (hq : Lasts q) (hf : ∀ a, Lasts (f a)) :
    Lasts (q >>= f) where
  traced := hq.traced.bind fun a => (hf a).traced
  again s s' h h' hgrows := by
    have hmiddle := h.query s.store.base_mem_held hq.traced
    have hlast := hmiddle.inStep.query (Store.base_mem_held _) (hf (q s).1).traced
    rw [bind_apply, hq.again s s' h h' (hlast.grows.trans hgrows)]
    exact (hf (q s).1).again (q s).2 s' hmiddle.inStep h' hgrows

end Lasts

/-- A URI leads to the same module again. -/
theorem lasts_resolveModule (importer : Tree) (uri : String) :
    Lasts (resolveModule importer uri) where
  traced := (traced_lookups _).byUri importer uri
  again s s' h h' hgrows := by
    -- what is remembered of the URI afterwards tells the answer of the later session
    have hremembered {target : Except ResolveError ModuleId} (hbase : uri ≠ BaseModule.uri)
        (htarget : (resolveModule importer uri s).2.targets.get? (importer.id, uri) = some target)
        {found : Except ResolveError Tree} (hfound : found.map (·.id) = target)
        (hknown : ∀ u, found = .ok u → u ∈ (resolveModule importer uri s).2.known) :
        resolveModule importer uri s' = (found, s') := by
      rw [resolveModule_apply, if_neg hbase, hgrows.targets _ _ htarget, ← hfound]
      cases found with
      | error e => rfl
      | ok u =>
        simp only [Except.map, h'.tree?_of_known (hgrows.known (hknown u rfl))]
    by_cases hbase : uri = BaseModule.uri
    · rw [resolveModule_apply, resolveModule_apply, if_pos hbase, if_pos hbase]
    cases htarget : s.targets.get? (importer.id, uri) with
    | none =>
      obtain ⟨-, -, hfollowed⟩ := h.following importer.id uri
      have hnew : (Lookup.byUri importer uri).IsNew s := ⟨hbase, htarget⟩
      have happly := resolveModule_new hnew
      rw [happly] at hremembered ⊢
      refine hremembered hbase ((Dict.get?_insertNew s.targets _ _ _).trans ?_) rfl hfollowed
      rw [htarget, if_pos (beq_self_eq_true _), Option.none_or]
    | some target =>
      cases target with
      | error e =>
        have happly : resolveModule importer uri s = (.error e, s) := by
          rw [resolveModule_apply, if_neg hbase, htarget]
        rw [happly] at hremembered ⊢
        exact hremembered hbase htarget rfl nofun
      | ok id =>
        obtain ⟨u, hu, rfl⟩ := h.targets _ _ htarget
        have happly : resolveModule importer uri s = (.ok u, s) := by
          rw [resolveModule_apply, if_neg hbase, htarget]
          simp only [h.tree?_of_known hu]
        rw [happly] at hremembered ⊢
        exact hremembered hbase htarget rfl fun v hv => Except.ok.inj hv ▸ hu

theorem lasts_resolveModule? (importer : Tree) (uri : String) :
    Lasts (resolveModule? importer uri) :=
  (lasts_resolveModule importer uri).bind fun found => .pure found.toOption

theorem lasts_supermodule? (t : Tree) : Lasts (supermodule? t) := by
  unfold supermodule?
  split
  · exact .pure none
  · exact lasts_resolveModule? t _

theorem lasts_supermodulesFrom (n : Nat) (seen : List ModuleId) (next : Option Tree) :
    Lasts (supermodulesFrom n seen next) := by
  induction n generalizing seen next with
  | zero =>
    unfold supermodulesFrom
    split
    · exact .pure []
    · split <;> exact .pure []
  | succ n ih =>
    unfold supermodulesFrom
    split
    · exact .pure []
    · split
      · exact .pure []
      · exact (lasts_supermodule? _).bind fun parent => (ih _ parent).bind fun rest => .pure _

/-! ## Chains of supermodules -/

end PklAnalysis.Session

namespace PklAnalysis

open Filter

/-- The chain of the supermodules of a module comes to an end wherever it is followed: from some
number of steps on it is the same. -/
def Store.FollowsToEnd (W : Store) (t : Tree) : Prop :=
  ∀ (U : World) (s : Session), U.origin = W → s.IsFaithfulTo U → Faithful U t →
    ∀ᶠ n in atTop, (do Session.supermodulesFrom n [t.id] (← Session.supermodule? t) : Query _) s =
      Session.supermodules t s

/-- Without a loader all chains come to an end. -/
theorem Store.followsToEnd_of_loader {W : Store} (hW : W.loader = none) (t : Tree) :
    W.FollowsToEnd t :=
  fun _ _ hU hs ht => (hs.chainsEnd (hU ▸ hW)).supermodules t ht

namespace Session

variable {W : Store} {s s' : Session} {t : Tree}

/-- A session over a store that can be asked about a tree. -/
structure IsReady (W : Store) (t : Tree) (s : Session) : Prop where
  inStep : s.IsInStep
  faithful : ∃ U : World, U.origin = W ∧ s.IsFaithfulTo U ∧ Faithful U t

theorem Consulted.isReady (hs : Consulted W s) (hW : W.IsProper)
    (ht : s.store.current? t.id = some t) : IsReady W t s := by
  obtain ⟨U, hU, -, hfaithful⟩ := hs.exists_isFaithfulTo hW.toIsFiled True fun _ => hW.base
  exact ⟨(hs.precedes.goesOn (.new hW)).1, U, hU, hfaithful, hfaithful.faithful_of_current? ht⟩

theorem IsReady.held (h : IsReady W t s) : t ∈ s.store.held := by
  obtain ⟨U, -, hs, ht⟩ := h.faithful
  exact (hs.faithful_iff t).mp ht

/-- After a query a session can still be asked, and knows what it knew. -/
theorem IsReady.query {α : Type} [Reporting α] {q : [Bounds] → Query α} (h : IsReady W t s)
    (hfaithful : ∀ V, Faithful V t → Faithfully V q) (htraced : Traced t q) :
    IsReady W t (q s).2 ∧ s.GrowsInto (q s).2 := by
  obtain ⟨U, hU, hs, ht⟩ := h.faithful
  obtain ⟨U', hU', hs', -⟩ := (hfaithful U ht).keepsFaith le_rfl hs maxUnfolding
  have hnext := h.inStep.query h.held htraced
  exact ⟨⟨hnext.inStep, U', hU'.1.symm.trans hU, hs', ht.mono hU'⟩, hnext.grows⟩

/-- A chain of supermodules that comes to an end is the same again. -/
theorem IsReady.supermodules_again (h : IsReady W t s) (h' : IsReady W t s')
    (hends : W.FollowsToEnd t) (hgrows : (supermodules t s).2.GrowsInto s') :
    (supermodules t s').1 = (supermodules t s).1 := by
  obtain ⟨U, hU, hs, ht⟩ := h.faithful
  obtain ⟨U', hU', hs', ht'⟩ := h'.faithful
  obtain ⟨n, hn, hn'⟩ := ((hends U s hU hs ht).and (hends U' s' hU' hs' ht')).exists
  have hlasts : Lasts (do supermodulesFrom n [t.id] (← supermodule? t) : Query _) :=
    (lasts_supermodule? t).bind fun first => lasts_supermodulesFrom n _ first
  have hagain := hlasts.again s s' h.inStep h'.inStep (by rwa [hn])
  rw [← hn, ← hn', hagain]

end Session

end PklAnalysis
