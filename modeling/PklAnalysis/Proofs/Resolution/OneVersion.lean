import PklAnalysis.Proofs.Modules.ProperStores
import PklAnalysis.Proofs.Resolution.ChangingStores
import PklAnalysis.Proofs.Resolution.TracedQuestions

/-!
# One version of a module

A question is asked about a tree, and may come by a tree of the same module again while it is
answered.  Whatever has been stored, updated and asked before, every such lookup gives the tree of
the question exactly if the session knows no other tree of the module that is as new, and either the
tree is that of the store or no URI is followed to the module that the session has not followed
before.
-/

namespace PklAnalysis

namespace Session

/-! ## Sessions that have been used -/

/-- The sessions that come about one after the other, the last one first, when sources are stored,
trees are updated and questions are asked, about any trees. -/
inductive History (config : GraphConfig) (files : Files) (loader : Option Loader) :
    List Session → Prop
  | start : History config files loader [new (Store.new config files loader)]
  | insert {s : Session} {past : List Session} (h : History config files loader (s :: past))
      (m : Source.Module) :
      History config files loader ({ s with store := s.store.insertSource m } :: s :: past)
  | update {s : Session} {past : List Session} (h : History config files loader (s :: past))
      (t : Tree) : History config files loader (s.updateModule t :: s :: past)
  | ask {s : Session} {past : List Session} (h : History config files loader (s :: past))
      (t : Tree) (q : Question) :
      History config files loader ((ask t q s).2 :: s :: past)

/-- A tree was that of its module in the store of one of some sessions. -/
def WasStored (sessions : List Session) (t : Tree) : Prop :=
  ∃ s ∈ sessions, s.store.tree? t.id = some t

/-! ## Lookups of the module of a question -/

/-- The lookups that a question about a tree makes from the adoption of the tree on. -/
def Asks (t : Tree) (q : Question) (s : Session) (log : List (Lookup × Session)) : Prop :=
  ∃ rest log', ask t q = (adopt t >>= fun _ => rest) ∧ LooksUp t rest (adopt t s).2 log' ∧
    log = (.byId t.id, (adopt t s).2) :: log'

/-- Each lookup of a question that gives a tree of its module gives the tree that it is about. -/
def IsOneVersion (t : Tree) (q : Question) (s : Session) : Prop :=
  ∀ log, Asks t q s log → ∀ e ∈ log, ∀ u, e.1.tree? e.2 = some u → u.id = t.id → u = t

/-- A URI is followed that a session does not remember to have followed. -/
def Lookup.IsNew : Lookup → Session → Prop
  | .byId _, _ => False
  | .byUri importer uri, s =>
    uri ≠ BaseModule.uri ∧ s.targets.get? (importer.id, uri) = none

/-- A question follows a URI to its module that the session does not remember to have followed. -/
def FollowsAnew (t : Tree) (q : Question) (s : Session) : Prop :=
  ∃ log, Asks t q s log ∧
    ∃ e ∈ log, e.1.IsNew e.2 ∧ ∃ u, e.1.tree? e.2 = some u ∧ u.id = t.id

/-- A session knows no other tree of the module of a tree that is as new.  The tree of the base
module is always known. -/
def KnowsNoOther (s : Session) (t : Tree) : Prop :=
  if t.id = BaseModule.id then t = BaseModule.tree
  else ∀ own, s.trees.get? t.id = some own → own = t ∨ own.version < t.version

theorem exists_asks (t : Tree) (q : Question) (s : Session) : ∃ log, Asks t q s log := by
  obtain ⟨rest, hask, htraced⟩ := exists_ask_eq (t := t) q
  obtain ⟨log', hlog⟩ := htraced (adopt t s).2
  exact ⟨_, rest, log', hask, hlog, rfl⟩

/-! ## Trees of their own modules -/

/-- Each tree of the store and each that the session knows is that of its own module. -/
structure IsKeyed (s : Session) : Prop where
  store : s.store.IsKeyed
  trees : ∀ id t, s.trees.get? id = some t → t.id = id

variable {s : Session} {t : Tree}

theorem get?_trees_setTree (s : Session) (t : Tree) (id : ModuleId) :
    (s.setTree t).trees.get? id = if t.id = id then some t else s.trees.get? id := by
  rw [setTree, Dict.get?_insert]
  simp only [beq_iff_eq]

theorem IsKeyed.setTree (h : s.IsKeyed) (t : Tree) : (s.setTree t).IsKeyed where
  store := h.store
  trees id u hu := by
    rw [get?_trees_setTree] at hu
    split at hu
    · next hid => rw [← Option.some.inj hu, hid]
    · exact h.trees id u hu

theorem IsKeyed.foldl_setTree (h : s.IsKeyed) (ts : List Tree) :
    (ts.foldl Session.setTree s).IsKeyed := by
  induction ts generalizing s with
  | nil => exact h
  | cons t ts ih => exact ih (h.setTree t)

theorem IsKeyed.invalidate (h : s.IsKeyed) : s.invalidate.IsKeyed := ⟨h.store, h.trees⟩

theorem IsKeyed.id_ne_of_mem_newerTrees (h : s.IsKeyed) {id : ModuleId} {u : Tree}
    (hu : u ∈ s.newerTrees id) : u.id ≠ id := by
  obtain ⟨⟨id', own⟩, -, hu⟩ := List.mem_filterMap.mp hu
  simp only at hu
  split at hu
  · cases hu
  · next hne =>
    rw [h.store _ _ (Option.filter_eq_some_iff.mp hu).1]
    exact hne

/-! ## Steps -/

/-- A URI that is not remembered is followed in the store. -/
theorem resolveModule_new {importer : Tree} {uri : String}
    (hnew : (Lookup.byUri importer uri).IsNew s) :
    resolveModule importer uri s =
      ((Store.resolve uri importer.id s.store).1,
        s.following (Store.resolve uri importer.id s.store).2 importer.id uri
          (Store.resolve uri importer.id s.store).1) := by
  rw [resolveModule_apply, if_neg hnew.1, hnew.2]
  rfl

/-- What holds of the session when a URI is followed holds afterwards, if it does when a tree is
looked up and when the store is asked. -/
theorem resolveModule_induction {I : Session → Prop} (importer : Tree) (uri : String) (hs : I s)
    (hid : ∀ id, I (tree? id s).2)
    (hnew : (Lookup.byUri importer uri).IsNew s → I (s.following
      (Store.resolve uri importer.id s.store).2 importer.id uri
      (Store.resolve uri importer.id s.store).1)) : I (resolveModule importer uri s).2 := by
  by_cases hbase : uri = BaseModule.uri
  · rwa [resolveModule_apply, if_pos hbase]
  · cases htarget : s.targets.get? (importer.id, uri) with
    | none =>
      rw [resolveModule_new ⟨hbase, htarget⟩]
      exact hnew ⟨hbase, htarget⟩
    | some target =>
      rw [resolveModule_apply, if_neg hbase, htarget]
      cases target with
      | error e => exact hs
      | ok id => exact hid id

theorem get?_trees_following {store : Store} {importer : ModuleId} {uri : String}
    {found : Except ResolveError Tree} {id : ModuleId} {u : Tree} :
    (s.following store importer uri found).trees.get? id = some u ↔
      s.trees.get? id = some u ∨ s.trees.get? id = none ∧ found = .ok u ∧ u.id = id := by
  cases found with
  | error e => simp [following]
  | ok t =>
    rw [following, Dict.get?_insertNew, Option.or_eq_some_iff]
    refine or_congr_right (and_congr_right fun _ => ?_)
    simp only [beq_iff_eq, Option.ite_none_right_eq_some, Option.some.injEq, Except.ok.injEq]
    constructor
    · rintro ⟨rfl, rfl⟩
      exact ⟨rfl, rfl⟩
    · rintro ⟨rfl, rfl⟩
      exact ⟨rfl, rfl⟩

theorem IsKeyed.tree? (h : s.IsKeyed) (id : ModuleId) : (tree? id s).2.IsKeyed := by
  rw [tree?_apply]
  split
  · exact h
  · split
    · exact h
    · split
      · exact h
      · exact h.setTree _

theorem kept_isKeyed (t : Tree) : Kept t IsKeyed where
  adopt s h := by
    rw [adopt_apply]
    split
    · split
      · exact h
      · exact (h.foldl_setTree _).invalidate
    · split
      · exact h.setTree t
      · exact (h.foldl_setTree _).invalidate
    · exact (h.foldl_setTree _).invalidate
  byId id s h := h.tree? id
  byUri importer uri s h := by
    refine resolveModule_induction importer uri h h.tree? fun _ => ?_
    have hresolves := Store.resolves_resolve uri importer.id s.store
    generalize Store.resolve uri importer.id s.store = resolved at hresolves ⊢
    refine ⟨hresolves.keyed h.store, fun id u hu => ?_⟩
    rcases get?_trees_following.mp hu with hu | ⟨-, -, hid⟩
    · exact h.trees id u hu
    · exact hid
  remember s s' hsame h := by
    refine ⟨?_, ?_⟩
    · rw [hsame.store]
      exact h.store
    · rw [hsame.trees]
      exact h.trees

theorem store_tree? (id : ModuleId) (s : Session) : (Session.tree? id s).2.store = s.store := by
  rw [tree?_apply]
  split
  · rfl
  · split
    · rfl
    · split <;> rfl

theorem store_adopt (t : Tree) (s : Session) : (adopt t s).2.store = s.store := by
  have hrenewed (ts : List Tree) : (ts.foldl setTree s).invalidate.store = s.store :=
    store_foldl_setTree ts
  rw [adopt_apply]
  split
  · split
    · rfl
    · exact hrenewed _
  · split
    · rfl
    · exact hrenewed (t :: _)
  · exact hrenewed _

/-- What the store holds it goes on holding. -/
theorem kept_stored (t : Tree) (id : ModuleId) (u : Tree) :
    Kept t fun s => s.store.tree? id = some u where
  adopt s h := by rwa [store_adopt]
  byId id s h := by rwa [store_tree?]
  byUri importer uri s h := by
    refine resolveModule_induction (I := fun s => s.store.tree? id = some u) importer uri h
      (fun id => by rwa [store_tree?]) fun _ => ?_
    have hresolves := Store.resolves_resolve uri importer.id s.store
    generalize Store.resolve uri importer.id s.store = resolved at hresolves ⊢
    exact hresolves.grows id u h
  remember s s' hsame h := by rwa [hsame.store]

/-! ## The tree of the module of a question -/

/-- A session that has adopted a tree: `own` is what it looks up for the module of the tree, and
`stored` is what the store holds. -/
structure Settled (t own stored : Tree) (s : Session) : Prop where
  keyed : s.IsKeyed
  stored : s.store.tree? t.id = some stored
  base : t.id = BaseModule.id → own = BaseModule.tree
  own : t.id ≠ BaseModule.id → s.trees.get? t.id = some own ∧ t.version ≤ own.version

variable {own stored : Tree}

theorem Settled.tree?_eq (h : Settled t own stored s) : (tree? t.id s).1 = some own := by
  rw [tree?_apply]
  split
  · next hid => rw [h.base hid]
  · next hid => rw [(h.own hid).1]

theorem get?_trees_foldl_newerTrees (h : s.IsKeyed) (t : Tree) :
    ((s.newerTrees t.id).foldl setTree s).trees.get? t.id = s.trees.get? t.id :=
  get?_foldl_setTree_of_not_mem fun _ => h.id_ne_of_mem_newerTrees

/-- A tree that is not newer than the one that a session knows of its module is known. -/
theorem arrival_of_le (hown : s.trees.get? t.id = some own) (hversion : t.version ≤ own.version) :
    s.arrival t = .known := by
  rw [arrival, hown]
  simp only
  rw [decide_eq_true hversion, Bool.true_or]
  rfl

theorem get?_trees_tree?_of_some {id id' : ModuleId} (hs : s.IsKeyed)
    (h : s.trees.get? id = some own) : (Session.tree? id' s).2.trees.get? id = some own := by
  rw [tree?_apply]
  split
  · exact h
  · split
    · exact h
    · next hnone =>
      split
      · exact h
      · next u hu =>
        have hne : u.id ≠ id := by
          rintro rfl
          rw [hs.store _ _ hu] at h
          exact Option.some_ne_none own (h.symm.trans hnone)
        rw [get?_trees_setTree, if_neg hne, h]

/-- What is looked up for the module of a question stays the same. -/
theorem kept_settled (t own stored : Tree) : Kept t (Settled t own stored) where
  adopt s h := by
    refine ⟨(kept_isKeyed t).adopt s h.keyed, (kept_stored t _ _).adopt s h.stored, h.base,
      fun hid => ⟨?_, (h.own hid).2⟩⟩
    obtain ⟨hown, hversion⟩ := h.own hid
    rw [adopt_apply, arrival_of_le hown hversion]
    simp only
    split
    · exact hown
    · exact (get?_trees_foldl_newerTrees h.keyed t).trans hown
  byId id s h := ⟨(kept_isKeyed t).byId id s h.keyed, (kept_stored t _ _).byId id s h.stored,
    h.base, fun hid => ⟨get?_trees_tree?_of_some h.keyed (h.own hid).1, (h.own hid).2⟩⟩
  byUri importer uri s h := by
    refine ⟨(kept_isKeyed t).byUri importer uri s h.keyed,
      (kept_stored t _ _).byUri importer uri s h.stored, h.base,
      fun hid => ⟨?_, (h.own hid).2⟩⟩
    obtain ⟨hown, -⟩ := h.own hid
    exact resolveModule_induction (I := fun s => s.trees.get? t.id = some own) importer uri hown
      (fun _ => get?_trees_tree?_of_some h.keyed hown)
      fun _ => get?_trees_following.mpr (.inl hown)
  remember s s' hsame h := by
    refine ⟨(kept_isKeyed t).remember s s' hsame h.keyed,
      (kept_stored t _ _).remember s s' hsame h.stored, h.base, fun hid => ?_⟩
    rw [hsame.trees]
    exact h.own hid

theorem IsKeyed.id_of_tree? (h : s.IsKeyed) {id : ModuleId} {u : Tree}
    (hu : (Session.tree? id s).1 = some u) : u.id = id := by
  rw [tree?_apply] at hu
  split at hu
  · next hid =>
    rw [← Option.some.inj hu, hid]
    rfl
  · split at hu
    · next own hown => exact h.trees id u (hown.trans hu)
    · split at hu
      · cases hu
      · next stored hstored => exact h.store id u (hstored.trans hu)

theorem eq_ok_of_toOption {found : Except ResolveError Tree} {u : Tree}
    (h : found.toOption = some u) : found = .ok u := by
  cases found with
  | error e => cases h
  | ok v => exact congrArg Except.ok (Option.some.inj h)

/-- A lookup of the module of a question gives the tree that the session has for it, unless a URI is
followed anew: then it gives that of the store. -/
theorem Settled.lookup (h : Settled t own stored s) {l : Lookup} {u : Tree}
    (hu : l.tree? s = some u) (hid : u.id = t.id) :
    ¬l.IsNew s ∧ u = own ∨ l.IsNew s ∧ u = stored := by
  have hbyId {id : ModuleId} (hu : (tree? id s).1 = some u) : u = own := by
    rw [← h.keyed.id_of_tree? hu, hid, h.tree?_eq] at hu
    exact (Option.some.inj hu).symm
  cases l with
  | byId id => exact .inl ⟨fun h => h, hbyId hu⟩
  | byUri importer uri =>
    rw [Lookup.tree?] at hu
    by_cases hnew : (Lookup.byUri importer uri).IsNew s
    · rw [resolveModule_new hnew] at hu
      have hresolves := Store.resolves_resolve uri importer.id s.store
      generalize Store.resolve uri importer.id s.store = resolved at hresolves hu
      have hfound := hresolves.stored h.keyed.store u (eq_ok_of_toOption hu)
      have hgrown := hresolves.grows t.id stored h.stored
      rw [hid] at hfound
      exact .inr ⟨hnew, Option.some.inj (hfound.symm.trans hgrown)⟩
    · refine .inl ⟨hnew, ?_⟩
      rw [resolveModule_apply] at hu
      split at hu
      · have hu : BaseModule.tree = u := Option.some.inj hu
        rw [← hu] at hid
        rw [← hu, h.base hid.symm]
      · next hbase =>
        split at hu
        · cases hu
        · simp only at hu
          split at hu
          · next v hv => exact hbyId (hv.trans hu)
          · cases hu
        · next hnone => exact absurd ⟨hbase, hnone⟩ hnew

theorem Settled.lookup_byId (h : Settled t own stored s) :
    (Lookup.byId t.id).tree? s = some own := h.tree?_eq

/-- A tree of which the session knows no other that is as new is not known. -/
theorem arrival_ne_known (hid : t.id ≠ BaseModule.id)
    (holder : ∀ own, s.trees.get? t.id = some own → own.version < t.version) :
    s.arrival t ≠ .known := by
  rw [arrival]
  cases hown : s.trees.get? t.id with
  | some own =>
    have hversion : ¬t.version ≤ own.version := Nat.not_le.mpr (holder own hown)
    simp only
    rw [decide_eq_false hversion, decide_eq_false hid]
    exact Arrival.noConfusion
  | none =>
    cases s.store.tree? t.id with
    | some stored =>
      simp only [if_neg hid]
      split <;> exact Arrival.noConfusion
    | none =>
      simp only [if_neg hid]
      exact Arrival.noConfusion

/-- A tree that is not known is taken over. -/
theorem get?_trees_adopt_self (h : s.IsKeyed) (harrival : s.arrival t ≠ .known) :
    (adopt t s).2.trees.get? t.id = some t := by
  have hset (s : Session) : (s.setTree t).trees.get? t.id = some t := by
    rw [get?_trees_setTree, if_pos rfl]
  rw [adopt_apply]
  split
  · next hknown => exact absurd hknown harrival
  · split
    · exact hset s
    · have hrest := get?_foldl_setTree_of_not_mem (s := s.setTree t)
        fun u (hu : u ∈ s.newerTrees t.id) => h.id_ne_of_mem_newerTrees hu
      exact hrest.trans (hset s)
  · rw [List.foldl_append]
    exact hset _

/-- A session that adopts a tree has a tree for its module from then on, and that is the given one
exactly if the session knows no other that is as new. -/
theorem IsKeyed.exists_settled (h : s.IsKeyed) (hstored : s.store.tree? t.id = some stored) :
    ∃ own, Settled t own stored (adopt t s).2 ∧ own.id = t.id ∧ (own = t ↔ s.KnowsNoOther t) := by
  have hkeyed := (kept_isKeyed t).adopt s h
  have hstored' := (kept_stored t t.id stored).adopt s hstored
  by_cases hid : t.id = BaseModule.id
  · refine ⟨BaseModule.tree, ⟨hkeyed, hstored', fun _ => rfl, fun hne => absurd hid hne⟩,
      hid.symm, ?_⟩
    rw [KnowsNoOther, if_pos hid]
    exact eq_comm
  · have hsettled (own : Tree) (hown : (adopt t s).2.trees.get? t.id = some own)
        (hversion : t.version ≤ own.version) : Settled t own stored (adopt t s).2 :=
      ⟨hkeyed, hstored', fun hbase => absurd hbase hid, fun _ => ⟨hown, hversion⟩⟩
    rw [KnowsNoOther, if_neg hid]
    by_cases holder : ∀ own, s.trees.get? t.id = some own → own.version < t.version
    · have hself := get?_trees_adopt_self h (arrival_ne_known hid holder)
      exact ⟨t, hsettled t hself (Nat.le_refl _), rfl,
        iff_of_true rfl fun own hown => .inr (holder own hown)⟩
    · simp only [not_forall, Nat.not_lt] at holder
      obtain ⟨own, hown, hversion⟩ := holder
      have hkept : (adopt t s).2.trees.get? t.id = some own := by
        rw [adopt_apply, arrival_of_le hown hversion]
        simp only
        split
        · exact hown
        · exact (get?_trees_foldl_newerTrees h t).trans hown
      refine ⟨own, hsettled own hkept hversion, h.trees _ _ hown, ?_⟩
      constructor
      · rintro rfl own' hown'
        exact .inl (Option.some.inj (hown'.symm.trans hown))
      · exact fun hother => (hother own hown).resolve_right (Nat.not_lt.mpr hversion)

/-! ## Questions -/

theorem Asks.settled {q : Question} {log : List (Lookup × Session)} (h : Asks t q s log)
    (hs : Settled t own stored (adopt t s).2) : ∀ e ∈ log, Settled t own stored e.2 := by
  obtain ⟨rest, log', -, hlog, rfl⟩ := h
  exact List.forall_mem_cons.mpr ⟨hs, (hlog.invariant (kept_settled t own stored) hs).2⟩

theorem Asks.keeps {I : Session → Prop} (hI : Kept t I) {q : Question}
    {log : List (Lookup × Session)} (h : Asks t q s log) (hs : I s) : I (ask t q s).2 := by
  obtain ⟨rest, log', hask, hlog, -⟩ := h
  rw [hask]
  exact (hlog.invariant hI (hI.adopt s hs)).1

section Histories

variable {config : GraphConfig} {files : Files} {loader : Option Loader} {past : List Session}

theorem History.isKeyed (h : History config files loader (s :: past)) : s.IsKeyed := by
  generalize hsessions : s :: past = sessions at h
  induction h generalizing s past with
  | start =>
    cases hsessions
    exact ⟨fun _ _ h => (nomatch h), fun _ _ h => (nomatch h)⟩
  | insert _ m ih =>
    cases hsessions
    exact ⟨(ih rfl).store.insertSource m, (ih rfl).trees⟩
  | update _ t ih =>
    cases hsessions
    exact ((ih rfl).setTree t).invalidate
  | @ask s past _ t q ih =>
    cases hsessions
    obtain ⟨log, hlog⟩ := exists_asks t q s
    exact hlog.keeps (kept_isKeyed t) (ih rfl)

/-- If one step of a session keeps what the store holds, a tree that was held at some time leaves a
tree of its module behind. -/
theorem WasStored.isSome_tree?_cons {s' : Session} (ht : WasStored (s' :: s :: past) t)
    (hs : WasStored (s :: past) t → (s.store.tree? t.id).isSome)
    (hstep : ∀ u, s.store.tree? t.id = some u → (s'.store.tree? t.id).isSome) :
    (s'.store.tree? t.id).isSome := by
  obtain ⟨s'', hmem, hstored⟩ := ht
  rcases List.mem_cons.mp hmem with rfl | hmem
  · exact Option.isSome_of_mem hstored
  · obtain ⟨u, hu⟩ := Option.isSome_iff_exists.mp (hs ⟨s'', hmem, hstored⟩)
    exact hstep u hu

/-- The store still holds a tree of a module of which it has held one. -/
theorem History.isSome_tree? (h : History config files loader (s :: past))
    (ht : WasStored (s :: past) t) : (s.store.tree? t.id).isSome := by
  generalize hsessions : s :: past = sessions at h ht
  induction h generalizing s past with
  | start =>
    cases hsessions
    obtain ⟨s, hs, hstored⟩ := ht
    rw [List.mem_singleton.mp hs] at hstored
    cases hstored
  | insert _ m ih =>
    cases hsessions
    refine ht.isSome_tree?_cons (ih rfl) fun u hu => ?_
    rw [Store.tree?_insertSource]
    split
    · rfl
    · exact Option.isSome_of_mem hu
  | update _ u ih =>
    cases hsessions
    exact ht.isSome_tree?_cons (ih rfl) fun u hu => Option.isSome_of_mem hu
  | @ask s past _ u q ih =>
    cases hsessions
    refine ht.isSome_tree?_cons (ih rfl) fun v hv => ?_
    obtain ⟨log, hlog⟩ := exists_asks u q s
    exact Option.isSome_of_mem (hlog.keeps (kept_stored u t.id v) hv)

/-- Whatever has been stored, updated and asked before, all trees of its module that a question
comes by are the one that it is about, exactly if the session knows no other one that is as new, and
the store holds this one or no URI is followed anew to the module. -/
theorem History.isOneVersion_iff (h : History config files loader (s :: past))
    (ht : WasStored (s :: past) t) (q : Question) :
    IsOneVersion t q s ↔
      s.KnowsNoOther t ∧ (s.store.tree? t.id = some t ∨ ¬FollowsAnew t q s) := by
  obtain ⟨stored, hstored⟩ := Option.isSome_iff_exists.mp (h.isSome_tree? ht)
  obtain ⟨own, hsettled, hid, hown⟩ := h.isKeyed.exists_settled hstored
  rw [← hown, hstored, Option.some_inj]
  constructor
  · intro hone
    refine ⟨?_, ?_⟩
    · obtain ⟨log, hlog⟩ := exists_asks t q s
      obtain ⟨rest, log', -, -, rfl⟩ := id hlog
      exact hone _ hlog _ List.mem_cons_self own hsettled.lookup_byId hid
    · rw [or_iff_not_imp_right, not_not]
      rintro ⟨log, hlog, e, he, hnew, u, hu, huid⟩
      obtain rfl := hone log hlog e he u hu huid
      rcases (hlog.settled hsettled e he).lookup hu huid with ⟨hold, -⟩ | ⟨-, hstored⟩
      · exact absurd hnew hold
      · exact hstored.symm
  · rintro ⟨rfl, hfollows⟩ log hlog e he u hu huid
    rcases (hlog.settled hsettled e he).lookup hu huid with ⟨-, hu⟩ | ⟨hnew, hu'⟩
    · exact hu
    · rcases hfollows with hfollows | hfollows
      · exact hu'.trans hfollows
      · exact absurd ⟨log, hlog, e, he, hnew, u, hu, huid⟩ hfollows

end Histories

/-! ## A module that loses a property -/

/-- A module with a property and one that refers to it. -/
def referring : Source.Module :=
  { bareModule "file:///w/m.pkl" with
    properties := [⟨"x", none, [], some (.int 1), none, none⟩,
      ⟨"y", none, [], some (.ident "x"), none, none⟩] }

/-- Later there is only the second property. -/
def reduced : Source.Module :=
  { bareModule "file:///w/m.pkl" with properties := [⟨"y", none, [], some (.int 1), none, none⟩] }

def referringTree : Tree := referring.treeAs (Store.idOf referring.uri) 1

def reducedTree : Tree := reduced.treeAs (Store.idOf reduced.uri) 2

/-- A session with the first version in its store. -/
def unreduced : Session :=
  { new (Store.new default .none none) with
    store := (Store.new default .none none).insertSource referring }

/-- The second version is in the store and has not been asked about. -/
def unnoticed : Session := { unreduced with store := unreduced.store.insertSource reduced }

/-- The second version has been asked about. -/
def noticed : Session := (ask reducedTree (.typeOf Tree.root) unnoticed).2

theorem history_noticed : History default .none none
    [noticed, unnoticed, unreduced, new (Store.new default .none none)] :=
  ((History.start.insert referring).insert reduced).ask reducedTree (.typeOf Tree.root)

theorem store_unreduced : unreduced.store.tree? referringTree.id = some referringTree := by
  decide

/-- As long as there is one version, the reference is resolved in it. -/
theorem isOneVersion_unreduced :
    History default .none none [unreduced, new (Store.new default .none none)] ∧
      WasStored [unreduced, new (Store.new default .none none)] referringTree ∧
      IsOneVersion referringTree (.resolve 4) unreduced := by
  have hhistory : History default .none none [unreduced, new (Store.new default .none none)] :=
    .insert .start referring
  have hstored : WasStored [unreduced, new (Store.new default .none none)] referringTree :=
    ⟨unreduced, List.mem_cons_self, store_unreduced⟩
  refine ⟨hhistory, hstored, (hhistory.isOneVersion_iff hstored _).mpr ⟨?_, .inl store_unreduced⟩⟩
  rw [KnowsNoOther, if_neg (by decide)]
  exact fun own hown => nomatch hown

/-- The reference in the first version is found while the second one has not been asked about. -/
example : (ask referringTree (.resolve 4) unnoticed).1 =
    some ⟨⟨referringTree.id, 1⟩, .property, "x"⟩ := by
  decide +kernel

/-- Then its name is looked for in the second version. -/
example : (ask referringTree (.resolve 4) noticed).1 = none := by
  decide +kernel

/-- A session that has been asked about the second version takes its tree for that of the module
when it is asked about the first one. -/
theorem not_forall_isOneVersion :
    ¬∀ (config : GraphConfig) (files : Files) (loader : Option Loader) (s : Session)
      (past : List Session), History config files loader (s :: past) →
      ∀ t, WasStored (s :: past) t → ∀ q, IsOneVersion t q s := by
  intro h
  have hstored : WasStored [noticed, unnoticed, unreduced, new (Store.new default .none none)]
      referringTree :=
    ⟨unreduced, by simp, store_unreduced⟩
  have hone := h _ _ _ _ _ history_noticed referringTree hstored (.resolve 4)
  obtain ⟨log, hlog⟩ := exists_asks referringTree (.resolve 4) noticed
  obtain ⟨rest, log', -, -, rfl⟩ := id hlog
  have hfound : (Lookup.byId referringTree.id).tree? (adopt referringTree noticed).2 =
      some reducedTree := by
    decide
  have hsame := hone _ hlog _ List.mem_cons_self reducedTree hfound (by decide)
  exact absurd (congrArg Tree.version hsame) (by decide)

end Session

end PklAnalysis
