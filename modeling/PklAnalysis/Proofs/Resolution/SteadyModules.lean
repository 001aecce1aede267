import Mathlib.Data.List.Nodup
import Mathlib.Data.List.Perm.Subperm
import PklAnalysis.Proofs.Resolution.Steady

/-!
# Trees and modules are found steadily

The tree of a module and the module that a reference leads to are those of the store, whether the
session knows them already or takes them over.  Chains of supermodules are followed with as many
steps as the session counts nodes; any larger number of steps gives the same chain.
-/

namespace PklAnalysis.Session

variable {W : Store} {s : Session} {T : Set Tree}

/-! ## Trees -/

theorem tree?_apply (id : ModuleId) (s : Session) : tree? id s =
    if id = BaseModule.id then (some BaseModule.tree, s)
    else match s.trees.get? id with
      | some own => (some own, s)
      | none => match s.store.tree? id with
        | none => (none, s)
        | some stored => (some stored, s.setTree stored) := by
  unfold tree?
  split
  · rfl
  · rw [bind_apply]
    change (match s.trees.get? id with | some own => _ | none => _ : Query _) s = _
    cases s.trees.get? id with
    | some own => rfl
    | none =>
      change (match s.store.tree? id with | none => _ | some stored => _ : Query _) s = _
      cases s.store.tree? id <;> rfl

/-- A current session that takes a tree of the store over stays current. -/
theorem IsCurrent.setTree (h : IsCurrent W s) {t : Tree} (ht : W.tree? t.id = some t) :
    IsCurrent W (s.setTree t) ∧ s.known ⊆ (s.setTree t).known ∧ t ∈ (s.setTree t).known := by
  have hget : ∀ id, (s.setTree t).trees.get? id = if t.id == id then some t else s.trees.get? id :=
    fun id => Dict.get?_insert s.trees t.id id t
  have hcurrent : ∀ id u, (s.setTree t).trees.get? id = some u → W.tree? id = some u := by
    intro id u hu
    rw [hget] at hu
    split at hu
    · next hid => rw [← beq_iff_eq.mp hid, ht, ← hu]
    · exact h.current id u hu
  have hknown : s.known ⊆ (s.setTree t).known := by
    refine fun u hu => hu.imp_right fun hu => ?_
    rw [hget]
    split
    · next hid => rw [← ht, beq_iff_eq.mp hid, h.current u.id u hu]
    · exact hu
  refine ⟨.grow (.of_known hknown rfl) h.store h.bare (Dict.nodup_keys_insert h.keys _ _)
    hcurrent h.classes h.aliases h.chains h.members fun importer uri target hget =>
      (h.targets importer uri target hget).mono hknown, hknown, .inr ?_⟩
  rw [hget, if_pos (beq_self_eq_true t.id)]

/-- The tree that is found for a module is that of the store or of the base module, and is known
from then on. -/
theorem IsCurrent.tree?_spec (h : IsCurrent W s) (hW : W.IsPlain) (id : ModuleId) :
    (tree? id s).1 = (if id = BaseModule.id then some BaseModule.tree else W.tree? id) ∧
      IsCurrent W (tree? id s).2 ∧ s.known ⊆ (tree? id s).2.known ∧
      ∀ t, (tree? id s).1 = some t → t ∈ (tree? id s).2.known := by
  rw [tree?_apply]
  by_cases hbase : id = BaseModule.id
  · rw [if_pos hbase, if_pos hbase]
    exact ⟨rfl, h, subset_rfl, fun t ht => .inl (Option.some.inj ht).symm⟩
  · rw [if_neg hbase, if_neg hbase, h.tree?_store]
    cases hown : s.trees.get? id with
    | some own =>
      have hstored := h.current id own hown
      refine ⟨hstored.symm, h, subset_rfl, fun t ht => .inr ?_⟩
      rw [← Option.some.inj ht, hW.keyed hstored, hown]
    | none =>
      cases hstored : W.tree? id with
      | none => exact ⟨rfl, h, subset_rfl, fun t ht => nomatch ht⟩
      | some stored =>
        have ⟨hset, hknown, hmem⟩ := h.setTree (t := stored) (by rw [hW.keyed hstored, hstored])
        exact ⟨rfl, hset, hknown, fun t ht => Option.some.inj ht ▸ hmem⟩

/-- No URI is followed to find the tree of a module. -/
theorem targets_tree? (id : ModuleId) (s : Session) : (tree? id s).2.targets = s.targets := by
  rw [tree?_apply]
  split
  · rfl
  · split
    · rfl
    · split
      · rfl
      · rfl

/-- The tree of a module is found if the store holds it. -/
theorem IsCurrent.tree?_of_mem (h : IsCurrent W s) (hW : W.IsPlain) {t : Tree} (ht : t ∈ W.held) :
    (tree? t.id s).1 = some t := by
  rw [(h.tree?_spec hW t.id).1]
  split
  · next hbase => rw [hW.eq_of_mem ht W.base_mem_held hbase]
  · next hbase => exact ht.resolve_left fun he => hbase (congrArg Tree.id he)

/-- The tree of a module is found steadily if it is among those that the query is about. -/
theorem steady_tree? {id : ModuleId} (hid : Covers T id) : Steady T (tree? id) := by
  obtain ⟨t, ht, rfl⟩ := hid
  intro W s hW hT hs
  obtain ⟨-, hcurrent, hknown, hmem⟩ := hs.tree?_spec hW t.id
  have hanswer := hs.tree?_of_mem hW (ht.mem W.base_mem_held hT)
  refine ⟨hcurrent, .of_known hknown (targets_tree? t.id s), fun u hu => ?_,
    fun V hV hTV _ => ?_, ?_, fun _ hstands => ?_⟩
  · exact ⟨.inr (.inr (hmem u hu)), hW.rooted_of_mem (hcurrent.known_subset (hmem u hu))⟩
  · rw [hanswer, (IsCurrent.new hV).tree?_of_mem hV (ht.mem V.base_mem_held hTV)]
  · rw [LeadsAs, LeadsAs, targets_tree?]
    exact fun hleads => hleads
  · rw [Stands, targets_tree?]
    exact fun importer uri target htarget =>
      (hstands importer uri target htarget).imp fun u hu => ⟨hknown hu.1, hu.2⟩

/-! ## References -/

theorem resolveModule_apply (importer : Tree) (uri : String) (s : Session) :
    resolveModule importer uri s =
      if uri = BaseModule.uri then (.ok BaseModule.tree, s)
      else match s.targets.get? (importer.id, uri) with
        | some (.error e) => (.error e, s)
        | some (.ok id) => (match (tree? id s).1 with
          | some t => .ok t
          | none => .error (.notFound uri importer.id), (tree? id s).2)
        | none =>
          let found := Store.resolve uri importer.id s.store
          (found.1, { s with
            store := found.2
            trees := match found.1 with
              | .ok t => s.trees.insertNew t.id t
              | .error _ => s.trees
            targets := s.targets.insertNew (importer.id, uri) (found.1.map (·.id)) }) := by
  unfold resolveModule
  split
  · rfl
  · rw [bind_apply]
    change (match s.targets.get? (importer.id, uri) with
      | some (.error e) => _ | some (.ok id) => _ | none => _ : Query _) s = _
    cases s.targets.get? (importer.id, uri) with
    | none => rfl
    | some target =>
      cases target with
      | error e => rfl
      | ok id =>
        simp only
        rw [bind_apply]
        cases (tree? id s).1 <;> rfl

/-- A tree of the store that is taken over only if there is none of its module is known from then
on. -/
theorem IsCurrent.insertNew (h : IsCurrent W s) {t : Tree} (ht : W.tree? t.id = some t) :
    (∀ id u, (s.trees.insertNew t.id t).get? id = some u → W.tree? id = some u) ∧
      (∀ u, s.trees.get? u.id = some u → (s.trees.insertNew t.id t).get? u.id = some u) ∧
      (s.trees.insertNew t.id t).get? t.id = some t := by
  refine ⟨fun id u hu => ?_, fun u hu => ?_, ?_⟩
  · rw [Dict.get?_insertNew, Option.or_eq_some_iff] at hu
    rcases hu with hu | ⟨-, hu⟩
    · exact h.current id u hu
    · split at hu
      · next hid => rw [← beq_iff_eq.mp hid, ht, hu]
      · exact nomatch hu
  · rw [Dict.get?_insertNew, hu, Option.some_or]
  · rw [Dict.get?_insertNew, if_pos (beq_self_eq_true t.id)]
    cases hown : s.trees.get? t.id with
    | none => rw [Option.none_or]
    | some own => rw [Option.some_or, ← ht, h.current t.id own hown]

/-- What a session knows once it has followed a URI that it does not remember. -/
def following (s : Session) (store : Store) (importer : ModuleId) (uri : String)
    (found : Except ResolveError Tree) : Session :=
  { s with
    store := store
    trees := match found with
      | .ok t => s.trees.insertNew t.id t
      | .error _ => s.trees
    targets := s.targets.insertNew (importer, uri) (found.map (·.id)) }

/-- A current session that follows a URI takes the tree over that it finds. -/
theorem IsCurrent.trees_following (h : IsCurrent W s) (hW : W.IsPlain) (store : Store)
    (importer : ModuleId) (uri : String) :
    let s' := s.following store importer uri (W.find uri importer)
    s'.trees.keys.Nodup ∧ (∀ id u, s'.trees.get? id = some u → W.tree? id = some u) ∧
      s.known ⊆ s'.known ∧ ∀ t, W.find uri importer = .ok t → t ∈ s'.known := by
  intro s'
  cases hfind : W.find uri importer with
  | error e =>
    have htrees : s'.trees = s.trees := by simp only [s', following, hfind]
    rw [known, known, htrees]
    exact ⟨h.keys, h.current, subset_rfl, by simp⟩
  | ok t =>
    have htrees : s'.trees = s.trees.insertNew t.id t := by simp only [s', following, hfind]
    obtain ⟨hcurrent, hkept, hmem⟩ := h.insertNew (hW.tree?_of_find hfind)
    rw [known, known, htrees]
    exact ⟨Dict.nodup_keys_insertNew h.keys _ _, hcurrent, fun u hu => hu.imp_right (hkept u),
      fun u hu => Except.ok.inj hu ▸ .inr hmem⟩

theorem exists_of_map_eq_ok {found : Except ResolveError Tree} {id : ModuleId}
    (h : found.map (·.id) = .ok id) : ∃ t, found = .ok t ∧ t.id = id := by
  cases found with
  | error e => exact nomatch h
  | ok t => exact ⟨t, rfl, Except.ok.inj h⟩

/-- A session that has followed a URI from a current one is current, knows the module to which the
URI leads, and remembers this and what it remembered before. -/
structure Finds (W : Store) (s : Session) (importer : ModuleId) (uri : String)
    (found : Except ResolveError Tree) (s' : Session) : Prop where
  current : IsCurrent W s'
  grows : s.GrowsInto s'
  known : ∀ t, found = .ok t → t ∈ s'.known
  remembers : uri ≠ BaseModule.uri → s'.targets.get? (importer, uri) = some (found.map (·.id))
  targets : ∀ importer' uri' target, s'.targets.get? (importer', uri') = some target →
    s.targets.get? (importer', uri') = some target ∨
      (importer' = importer ∧ uri' = uri) ∧ (W.find uri importer).map (·.id) = target

/-- A reference that is not remembered leads where the store says, and the tree is taken over. -/
theorem IsCurrent.finds_new (h : IsCurrent W s) (hW : W.IsPlain) {importer : Tree} {uri : String}
    (hbase : uri ≠ BaseModule.uri) (hnone : s.targets.get? (importer.id, uri) = none) :
    ∃ s', resolveModule importer uri s = (W.find uri importer.id, s') ∧
      Finds W s importer.id uri (W.find uri importer.id) s' := by
  obtain ⟨answers, hstore⟩ := h.store
  obtain ⟨answers', hresolve, hbare⟩ := Store.resolve_of_isBare h.bare uri importer.id
  rw [hstore, Store.withAnswers_withAnswers] at hbare
  rw [hstore, Store.find_withAnswers, Store.withAnswers_withAnswers] at hresolve
  obtain ⟨hkeys, hcurrent, hknown, hmem⟩ :=
    h.trees_following hW (W.withAnswers answers') importer.id uri
  let s' := s.following (W.withAnswers answers') importer.id uri (W.find uri importer.id)
  have hget' (key : ModuleId × String) : s'.targets.get? key = (s.targets.get? key).or
      (if (importer.id, uri) == key then some ((W.find uri importer.id).map (·.id)) else none) :=
    Dict.get?_insertNew s.targets (importer.id, uri) key _
  have htargets : ∀ importer' uri' target, s'.targets.get? (importer', uri') = some target →
      s.targets.get? (importer', uri') = some target ∨
        (importer' = importer.id ∧ uri' = uri) ∧ (W.find uri importer.id).map (·.id) = target := by
    intro importer' uri' target hget
    rw [hget', Option.or_eq_some_iff] at hget
    rcases hget with hold | ⟨-, hnew⟩
    · exact .inl hold
    · split at hnew
      · next heq =>
        obtain ⟨rfl, rfl⟩ := Prod.mk.inj (beq_iff_eq.mp heq)
        exact .inr ⟨⟨rfl, rfl⟩, Option.some.inj hnew⟩
      · exact nomatch hnew
  have hgrows : s.GrowsInto s' := by
    refine ⟨hknown, fun key target hkey => ?_⟩
    rw [hget', hkey, Option.some_or]
  refine ⟨s', ?_, ⟨?_, hgrows, hmem, fun _ => ?_, htargets⟩⟩
  · rw [resolveModule_apply, if_neg hbase, hnone]
    simp only [hstore, hresolve]
    rfl
  · refine .grow hgrows ⟨answers', rfl⟩ hbare hkeys hcurrent h.classes h.aliases h.chains
      h.members ?_
    intro importer' uri' target hget
    rcases htargets importer' uri' target hget with hget | ⟨⟨rfl, rfl⟩, rfl⟩
    · exact (h.targets importer' uri' target hget).mono hknown
    · refine ⟨hbase, fun id hid => ?_, W, rfl, rfl⟩
      obtain ⟨t, ht, rfl⟩ := exists_of_map_eq_ok hid
      exact ⟨t, hmem t ht, rfl⟩
  · rw [hget', hnone, if_pos (beq_self_eq_true _), Option.none_or]

/-- A reference that is remembered leads to the module of which only the identity is remembered: the
session knows no other tree for it. -/
theorem IsCurrent.finds_again (h : IsCurrent W s) (hW : W.IsPlain) {importer : Tree} {uri : String}
    {target : Except ResolveError ModuleId}
    (htarget : s.targets.get? (importer.id, uri) = some target) :
    ∃ found s', resolveModule importer uri s = (found, s') ∧
      Finds W s importer.id uri found s' := by
  obtain ⟨hbase, hled, -⟩ := h.targets importer.id uri target htarget
  rw [resolveModule_apply, if_neg hbase, htarget]
  cases target with
  | error e =>
    exact ⟨.error e, s, rfl, h, .refl s, nofun, fun _ => htarget, fun _ _ _ hget => .inl hget⟩
  | ok id =>
    obtain ⟨t, ht, rfl⟩ := hled id rfl
    obtain ⟨-, hcurrent, hknown, hmem⟩ := h.tree?_spec hW t.id
    have hanswer := h.tree?_of_mem hW (h.known_subset ht)
    have htargets := targets_tree? t.id s
    simp only [hanswer]
    refine ⟨.ok t, _, rfl, ⟨hcurrent, .of_known hknown htargets, ?_, fun _ => ?_, ?_⟩⟩
    · exact fun u hu => Except.ok.inj hu ▸ hknown ht
    · rw [htargets, htarget]
      rfl
    · rw [htargets]
      exact fun _ _ _ hget => .inl hget

theorem IsCurrent.finds (h : IsCurrent W s) (hW : W.IsPlain) (importer : Tree) (uri : String) :
    ∃ found s', resolveModule importer uri s = (found, s') ∧
      Finds W s importer.id uri found s' := by
  by_cases hbase : uri = BaseModule.uri
  · rw [resolveModule_apply, if_pos hbase]
    exact ⟨_, s, rfl, ⟨h, .refl s, fun t ht => .inl (Except.ok.inj ht).symm,
      fun hne => absurd hbase hne, fun _ _ _ hget => .inl hget⟩⟩
  cases htarget : s.targets.get? (importer.id, uri) with
  | none =>
    obtain ⟨s', happly, hfinds⟩ := h.finds_new hW hbase htarget
    exact ⟨_, s', happly, hfinds⟩
  | some target => exact h.finds_again hW htarget

/-- A reference leads steadily if it stands in one of the trees that the query is about. -/
theorem steady_resolveModule {importer : Tree} (himporter : Grounded T importer) {n : Nat}
    {uri : String} (huri : uriAt? importer n = some uri) :
    Steady T (resolveModule importer uri) := by
  intro W s hW hT hs
  obtain ⟨found, s', happly, hfinds⟩ := hs.finds hW importer uri
  refine ⟨?_, ?_, ?_, ?_, ?_, ?_⟩ <;> rw [happly]
  · exact hfinds.current
  · exact hfinds.grows
  · intro t ht
    have hknown := hfinds.known t ht
    exact ⟨.inr (.inr hknown), hW.rooted_of_mem (hfinds.current.known_subset hknown)⟩
  · intro V hV hTV hagrees
    by_cases hbase : uri = BaseModule.uri
    · rw [resolveModule_apply, if_pos hbase] at happly ⊢
      exact (congrArg Prod.fst happly).symm
    have hnone : (new V).targets.get? (importer.id, uri) = none := rfl
    obtain ⟨_, hnew, -⟩ := (IsCurrent.new hV).finds_new hV hbase hnone
    rw [hnew]
    -- the store agrees about the identity, and it has one tree for it
    have hmap := hagrees.leads importer.id uri _ (hfinds.remembers hbase)
    cases found with
    | error e =>
      cases hfind : V.find uri importer.id with
      | ok u => rw [hfind] at hmap; exact nomatch hmap
      | error e' => rw [hfind] at hmap; rw [Except.error.inj hmap]
    | ok t =>
      obtain ⟨u, hfind, hid⟩ := exists_of_map_eq_ok hmap
      have ht := hagrees.trees (hfinds.known t rfl)
      rw [hfind, hV.eq_of_mem (.inr (hV.tree?_of_find hfind)) ht hid]
  · intro hleads importer' uri' target hget
    rcases hfinds.targets importer' uri' target hget with hget | ⟨⟨rfl, rfl⟩, hfind⟩
    · exact hleads importer' uri' target hget
    · exact hfind
  · intro hTs hstands importer' uri' target hget
    rcases hfinds.targets importer' uri' target hget with hget | ⟨⟨rfl, rfl⟩, -⟩
    · exact (hstands importer' uri' target hget).imp fun u hu =>
        ⟨hfinds.grows.known hu.1, hu.2⟩
    · have hknown := himporter.mem (.inl rfl) hTs
      exact ⟨importer, hfinds.grows.known hknown, rfl, n, huri⟩

theorem steady_resolveModule? {importer : Tree} (himporter : Grounded T importer) {n : Nat}
    {uri : String} (huri : uriAt? importer n = some uri) :
    Steady T (resolveModule? importer uri) := by
  unfold resolveModule?
  refine (steady_resolveModule himporter huri).bind fun U e _ he => .pure ?_
  cases e with
  | error e => exact .none
  | ok t => exact .some (he t rfl)

/-! ## Supermodules -/

/-- The URI of an import clause stands in its tree. -/
theorem uriAt?_of_mem_imports {t : Tree} {n : Nat} {i : Import} (h : (n, i) ∈ t.imports) :
    uriAt? t n = some i.uri := by
  obtain ⟨c, -, hc⟩ := List.mem_filterMap.mp h
  split at hc
  · next hkind =>
    cases hc
    rw [uriAt?, hkind]
  · exact nomatch hc

/-- The URI of the clause of a module stands in its tree. -/
theorem exists_uriAt?_clause {t : Tree} {n : Nat} {kind : ClauseKind} {uri : String}
    (h : t.clause? = some (n, kind, uri)) : ∃ n, uriAt? t n = some uri := by
  obtain ⟨c, -, hc⟩ := List.exists_of_findSome?_eq_some h
  split at hc
  · next hkind =>
    cases hc
    exact ⟨n, by rw [uriAt?, hkind]⟩
  · exact nomatch hc

theorem steady_supermodule? {t : Tree} (ht : Grounded T t) : Steady T (supermodule? t) := by
  unfold supermodule?
  split
  · exact .pure .none
  · next hclause =>
    obtain ⟨n, hn⟩ := exists_uriAt?_clause hclause
    exact steady_resolveModule? ht hn

theorem steady_supermodulesFrom (n : Nat) (seen : List ModuleId) {next : Option Tree}
    (hnext : Grounded T next) : Steady T (supermodulesFrom n seen next) := by
  induction n generalizing T seen next with
  | zero =>
    cases next with
    | none => exact .pure .nil
    | some t =>
      unfold supermodulesFrom
      split
      · exact .pure .nil
      · exact .pure .nil
  | succ n ih =>
    cases next with
    | none => exact .pure .nil
    | some t =>
      unfold supermodulesFrom
      split
      · exact .pure .nil
      · refine (steady_supermodule? hnext.of_some).bind fun U parent hU hparent => ?_
        refine (ih (t.id :: seen) hparent).bind fun V rest hV hrest => .pure ?_
        exact .cons (hnext.of_some.mono (hU.trans hV)) hrest

/-- A session counts at least the nodes of its store and of the base module. -/
theorem length_sites_store_le (s : Session) : s.store.sites.length ≤ s.capacity := by
  rw [Store.length_sites, capacity]
  refine le_trans ?_ (Nat.le_mul_of_pos_right _ (Nat.succ_pos _))
  simp only
  omega

theorem IsCurrent.length_sites_le (h : IsCurrent W s) : W.sites.length ≤ s.capacity := by
  obtain ⟨answers, hstore⟩ := h.store
  have hsites : s.store.sites = W.sites := by
    rw [hstore, Store.withAnswers, Store.sites, Store.sites]
  exact hsites ▸ length_sites_store_le s

/-- With more steps than there are modules left a chain of supermodules does not depend on the
number of steps. -/
theorem supermodulesFrom_congr (hW : W.IsPlain) (hs : IsCurrent W s) {n m : Nat}
    {seen : List ModuleId} {next : Option Tree} (hnodup : seen.Nodup)
    (hseen : ∀ id ∈ seen, ⟨id, Tree.root⟩ ∈ W.sites) (hnext : Grounded W.held next)
    (hn : W.sites.length < n + seen.length) (hm : W.sites.length < m + seen.length) :
    supermodulesFrom n seen next s = supermodulesFrom m seen next s := by
  have hle : ∀ {seen : List ModuleId}, seen.Nodup →
      (∀ id ∈ seen, ⟨id, Tree.root⟩ ∈ W.sites) → seen.length ≤ W.sites.length := by
    intro seen hnodup hseen
    have hroots : (seen.map (Site.mk · Tree.root)).Nodup :=
      hnodup.map fun a b hab => congrArg Site.module hab
    have hsub := (hroots.subperm (List.forall_mem_map.mpr hseen)).length_le
    rwa [List.length_map] at hsub
  induction n generalizing s m seen next with
  | zero =>
    have hlength := hle hnodup hseen
    omega
  | succ n ih =>
    cases m with
    | zero =>
      have hlength := hle hnodup hseen
      omega
    | succ m =>
      cases next with
      | none => rfl
      | some t =>
        rw [supermodulesFrom, supermodulesFrom]
        split
        · rfl
        · next hnew =>
          have hroot : ⟨t.id, Tree.root⟩ ∈ W.sites :=
            Store.IsPlain.site_mem hnext.of_some.moduleDecl
          refine SteadyQuery.bind_congr (steady_supermodule? hnext.of_some) hW hs ?_
          intro parent s' hparent hs'
          have hrest := ih hs' (List.nodup_cons.mpr ⟨by simpa using hnew, hnodup⟩)
            (List.forall_mem_cons.mpr ⟨hroot, hseen⟩) hparent
            (by rw [List.length_cons]; omega)
            (show W.sites.length < m + (t.id :: seen).length by rw [List.length_cons]; omega)
          rw [bind_apply, bind_apply, hrest]

theorem steady_supermodules {t : Tree} (ht : Grounded T t) : Steady T (supermodules t) := by
  unfold supermodules
  refine (steady_supermodule? ht).bind fun U next hU hnext => ?_
  refine SteadyQuery.of_eventually (fun n => steady_supermodulesFrom n [t.id] hnext)
    fun W hW hUW => ⟨W.sites.length + 1, fun n hn s hs => ?_⟩
  have hcapacity := hs.length_sites_le
  have hroot : ⟨t.id, Tree.root⟩ ∈ W.sites :=
    Store.IsPlain.site_mem (ht.mono (hU.trans hUW)).moduleDecl
  exact supermodulesFrom_congr hW hs (List.nodup_singleton _) (List.forall_mem_singleton.mpr hroot)
    (hnext.mono hUW) (by rw [List.length_singleton]; omega) (by rw [List.length_singleton]; omega)

end PklAnalysis.Session
