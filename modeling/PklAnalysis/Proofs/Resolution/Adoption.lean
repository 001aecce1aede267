import PklAnalysis.Proofs.Resolution.SteadyModules

/-!
# What a question begins with

Whatever a session has not yet noticed of the updates of its store, after `Session.adopt` for a tree
of the store it is current.  Either it knew no older tree, and then keeps what it remembers, or it
takes the newer trees over and forgets all answers.
-/

namespace PklAnalysis.Session

variable {W : Store} {s : Session} {t : Tree}

theorem mem_newerTrees (h : IsTruthful W s) (hW : W.IsPlain) {except : ModuleId} {u : Tree} :
    u ∈ s.newerTrees except ↔ u.id ≠ except ∧ W.tree? u.id = some u ∧
      ∃ own, (u.id, own) ∈ s.trees.entries ∧ own.version < u.version := by
  rw [newerTrees, List.mem_filterMap]
  constructor
  · rintro ⟨⟨id, own⟩, he, hu⟩
    simp only [h.tree?_store] at hu
    split at hu
    · exact nomatch hu
    · next hid =>
      obtain ⟨hstored, hversion⟩ := Option.filter_eq_some_iff.mp hu
      obtain rfl := hW.keyed hstored
      exact ⟨hid, hstored, own, he, of_decide_eq_true hversion⟩
  · rintro ⟨hid, hstored, own, he, hversion⟩
    refine ⟨(u.id, own), he, ?_⟩
    simp only [h.tree?_store]
    rw [if_neg hid, hstored, Option.filter_some, if_pos (decide_eq_true hversion)]

/-- A tree that is not the one of the store is older, so it is among those that are replaced. -/
theorem IsTruthful.current_or_newer (h : IsTruthful W s) (hW : W.IsPlain) {id except : ModuleId}
    {own : Tree} (hown : s.trees.get? id = some own) (hid : id ≠ except) :
    W.tree? id = some own ∨ id ∈ (s.newerTrees except).map (·.id) := by
  obtain ⟨stored, hstored, heq | hversion⟩ := h.trees id own hown
  · exact .inl (heq ▸ hstored)
  · obtain ⟨e, he, hkey, rfl⟩ := Dict.exists_mem_of_get? hown
    obtain rfl := beq_iff_eq.mp hkey
    have hkeyed := hW.keyed hstored
    refine .inr (List.mem_map.mpr ⟨stored, (mem_newerTrees h hW).mpr ?_, hkeyed⟩)
    rw [hkeyed]
    exact ⟨hid, hstored, e.2, he, hversion⟩

/-- Trees of the store that are taken over one after the other. -/
theorem get?_foldl_setTree {ts : List Tree} (hts : ∀ u ∈ ts, W.tree? u.id = some u)
    (id : ModuleId) : (ts.foldl setTree s).trees.get? id =
      if id ∈ ts.map (·.id) then W.tree? id else s.trees.get? id := by
  induction ts generalizing s with
  | nil => rfl
  | cons u ts ih =>
    obtain ⟨hu, hts⟩ := List.forall_mem_cons.mp hts
    rw [List.foldl_cons, ih hts, List.map_cons]
    by_cases hmem : id ∈ ts.map (·.id)
    · rw [if_pos hmem, if_pos (List.mem_cons_of_mem _ hmem)]
    · rw [if_neg hmem, setTree, Dict.get?_insert]
      by_cases hid : u.id = id
      · rw [if_pos (beq_iff_eq.mpr hid), if_pos (List.mem_cons.mpr (.inl hid.symm)), ← hid, hu]
      · rw [if_neg (fun h => hid (beq_iff_eq.mp h)), if_neg]
        rw [List.mem_cons]
        exact fun h => h.elim (fun h => hid h.symm) hmem

theorem store_foldl_setTree (ts : List Tree) : (ts.foldl setTree s).store = s.store := by
  induction ts generalizing s with
  | nil => rfl
  | cons u ts ih => rw [List.foldl_cons, ih, setTree]

theorem keys_foldl_setTree (h : s.trees.keys.Nodup) (ts : List Tree) :
    (ts.foldl setTree s).trees.keys.Nodup := by
  induction ts generalizing s with
  | nil => exact h
  | cons u ts ih => exact ih (Dict.nodup_keys_insert h _ _)

/-- A tree of the store is known once it is taken over. -/
theorem mem_known_renew {ts : List Tree} (hts : ∀ u ∈ ts, W.tree? u.id = some u)
    (ht : W.tree? t.id = some t) (h : t.id ∈ ts.map (·.id) ∨ s.trees.get? t.id = some t) :
    t ∈ (ts.foldl setTree s).invalidate.known := by
  have hget : (ts.foldl setTree s).trees.get? t.id = some t := by
    rw [get?_foldl_setTree hts]
    split
    · exact ht
    · next hmem => exact h.resolve_left hmem
  exact .inr hget

/-- A session is current once it has taken over what it did not know and has forgotten all
answers. -/
theorem IsTruthful.renew (h : IsTruthful W s) {ts : List Tree}
    (hts : ∀ u ∈ ts, W.tree? u.id = some u)
    (hold : ∀ id own, s.trees.get? id = some own → id ∉ ts.map (·.id) → W.tree? id = some own) :
    IsCurrent W (ts.foldl setTree s).invalidate := by
  have hcurrent : ∀ id u, (ts.foldl setTree s).trees.get? id = some u → W.tree? id = some u := by
    intro id u hu
    rw [get?_foldl_setTree hts] at hu
    split at hu
    · exact hu
    · next hmem => exact hold id u hu hmem
  have hstore : (ts.foldl setTree s).invalidate.store = s.store := store_foldl_setTree ts
  exact {
    store := hstore ▸ h.store
    bare := hstore ▸ h.bare
    keys := keys_foldl_setTree h.keys ts
    trees := fun id u hu => ⟨u, hcurrent id u hu, .inl rfl⟩
    classes := .empty
    aliases := .empty
    chains := .empty
    members := .empty
    targets := fun _ _ _ h => nomatch h
    current := hcurrent }

/-- A session that knows only trees of the store knows no older ones. -/
theorem IsCurrent.newerTrees_eq_nil (h : IsCurrent W s) (hW : W.IsPlain) (except : ModuleId) :
    s.newerTrees except = [] := by
  refine List.eq_nil_iff_forall_not_mem.mpr fun u hu => ?_
  obtain ⟨-, hstored, own, he, hversion⟩ := (mem_newerTrees h.toIsTruthful hW).mp hu
  have hown := h.current u.id own (Dict.get?_of_mem h.keys he)
  obtain rfl : u = own := Option.some.inj (hstored.symm.trans hown)
  exact lt_irrefl _ hversion

/-- A tree of the store or of the base module is known already, the first of its module, or
replaces an older one; only a tree of the store is taken over. -/
theorem IsTruthful.arrival_spec (h : IsTruthful W s) (hW : W.IsPlain) (ht : t ∈ W.held) :
    (s.arrival t = .known ∧ t ∈ s.known ∧
        ∀ own, s.trees.get? t.id = some own → W.tree? t.id = some own) ∨
      (s.arrival t = .first ∧ W.tree? t.id = some t ∧ s.trees.get? t.id = none) ∨
      (s.arrival t = .replaces ∧ W.tree? t.id = some t ∧
        ∃ own, s.trees.get? t.id = some own ∧ own.version < t.version) := by
  rw [arrival, h.tree?_store]
  cases hown : s.trees.get? t.id with
  | none =>
    rcases ht with rfl | ht
    · rw [show W.tree? BaseModule.tree.id = none from hW.base]
      exact .inl ⟨if_pos rfl, .inl rfl, fun own hget => nomatch hget⟩
    · rw [ht]
      exact .inr (.inl ⟨if_pos rfl, rfl, rfl⟩)
  | some own =>
    obtain ⟨stored, hstored, hversion⟩ := h.trees t.id own hown
    rcases ht with rfl | ht
    · exact absurd (hstored.symm.trans hW.base) (Option.some_ne_none stored)
    obtain rfl : t = stored := Option.some.inj (ht.symm.trans hstored)
    rcases hversion with rfl | hversion
    · exact .inl ⟨if_pos (by simp), .inr hown, fun own hget => Option.some.inj hget ▸ ht⟩
    · exact .inr (.inr ⟨if_neg (by simp [hW.id_ne_base ht, hversion]), ht, own, rfl, hversion⟩)

theorem adopt_apply (t : Tree) (s : Session) : (adopt t s).2 =
    match s.arrival t with
    | .known =>
      if (s.newerTrees t.id).isEmpty then s else ((s.newerTrees t.id).foldl setTree s).invalidate
    | .first =>
      if (s.newerTrees t.id).isEmpty then s.setTree t
      else ((t :: s.newerTrees t.id).foldl setTree s).invalidate
    | .replaces => ((s.newerTrees t.id ++ [t]).foldl setTree s).invalidate := rfl

/-- A new session takes a module of the store over. -/
theorem adopt_new {W : Store} {t : Tree} (ht : W.tree? t.id = some t) :
    (adopt t (new W)).2 = (new W).setTree t := by
  have hstored : (new W).store.tree? t.id = some t := ht
  have harrival : (new W).arrival t = .first := by
    rw [arrival, hstored]
    exact if_pos rfl
  rw [adopt_apply, harrival]
  rfl

/-- Some tree that a session knows is not that of the store. -/
def IsOutdated (W : Store) (s : Session) : Prop :=
  ∃ id own, s.trees.get? id = some own ∧ W.tree? id ≠ some own

/-- A current session that is asked about a tree of the store goes on remembering what it
remembers. -/
theorem IsCurrent.adopt_spec (h : IsCurrent W s) (hW : W.IsPlain) (ht : t ∈ W.held) :
    IsCurrent W (adopt t s).2 ∧ t ∈ (adopt t s).2.known ∧ s.known ⊆ (adopt t s).2.known ∧
      (adopt t s).2.targets = s.targets := by
  rw [adopt_apply, h.newerTrees_eq_nil hW]
  rcases h.arrival_spec hW ht with
    ⟨harrival, hmem, -⟩ | ⟨harrival, hstored, -⟩ | ⟨-, hstored, own, hown, hversion⟩
  · rw [harrival]
    exact ⟨h, hmem, subset_rfl, rfl⟩
  · rw [harrival]
    obtain ⟨hset, hknown, hmem⟩ := h.setTree hstored
    exact ⟨hset, hmem, hknown, rfl⟩
  · obtain rfl : t = own := Option.some.inj (hstored.symm.trans (h.current t.id own hown))
    exact absurd hversion (lt_irrefl _)

/-- A session that knows an older tree takes over what is newer and forgets all answers. -/
theorem IsTruthful.adopt_spec (h : IsTruthful W s) (hW : W.IsPlain) (ht : t ∈ W.held)
    (hold : IsOutdated W s) :
    IsCurrent W (adopt t s).2 ∧ t ∈ (adopt t s).2.known ∧
      (adopt t s).2.targets = Dict.empty := by
  obtain ⟨id, own, hown, hid⟩ := hold
  have hnewer : ∀ u ∈ s.newerTrees t.id, W.tree? u.id = some u :=
    fun u hu => ((mem_newerTrees h hW).mp hu).2.1
  have hothers : ∀ id own, s.trees.get? id = some own → id ≠ t.id →
      id ∉ (s.newerTrees t.id).map (·.id) → W.tree? id = some own :=
    fun id own hown hid hmem => (h.current_or_newer hW hown hid).resolve_right hmem
  -- if the older tree is not of the module of the question there is a newer tree for it
  have hfound : id ≠ t.id → ¬(s.newerTrees t.id).isEmpty = true := by
    intro hne hempty
    refine hid (hothers id own hown hne ?_)
    rw [List.isEmpty_iff.mp hempty]
    exact List.not_mem_nil
  rw [adopt_apply]
  rcases h.arrival_spec hW ht with
    ⟨harrival, hmem, hsame⟩ | ⟨harrival, hstored, habsent⟩ | ⟨harrival, hstored, -⟩
  · have hne : id ≠ t.id := by
      rintro rfl
      exact hid (hsame own hown)
    rw [harrival]
    simp only
    rw [if_neg (hfound hne)]
    refine ⟨h.renew hnewer fun id own hown hmem => ?_, ?_, rfl⟩
    · by_cases hid : id = t.id
      · subst hid
        exact hsame own hown
      · exact hothers id own hown hid hmem
    · rcases hmem with rfl | hmem
      · exact .inl rfl
      · exact mem_known_renew hnewer (hsame t hmem) (.inr hmem)
  · have hne : id ≠ t.id := by
      rintro rfl
      exact nomatch habsent.symm.trans hown
    rw [harrival]
    simp only
    rw [if_neg (hfound hne)]
    have hts : ∀ u ∈ t :: s.newerTrees t.id, W.tree? u.id = some u :=
      List.forall_mem_cons.mpr ⟨hstored, hnewer⟩
    refine ⟨h.renew hts fun id own hown hmem => ?_,
      mem_known_renew hts hstored (.inl List.mem_cons_self), rfl⟩
    rw [List.map_cons, List.mem_cons, not_or] at hmem
    exact hothers id own hown hmem.1 hmem.2
  · rw [harrival]
    have hts : ∀ u ∈ s.newerTrees t.id ++ [t], W.tree? u.id = some u :=
      List.forall_mem_append.mpr ⟨hnewer, List.forall_mem_singleton.mpr hstored⟩
    refine ⟨h.renew hts fun id own hown hmem => ?_, mem_known_renew hts hstored (.inl ?_), rfl⟩
    · rw [List.map_append, List.mem_append, not_or] at hmem
      exact hothers id own hown (fun hid => hmem.2 (List.mem_singleton.mpr hid)) hmem.1
    · rw [List.map_append]
      exact List.mem_append_right _ (List.mem_singleton_self t.id)

/-- A session either is current or knows an older tree. -/
theorem IsTruthful.isCurrent_or_isOutdated (h : IsTruthful W s) :
    IsCurrent W s ∨ IsOutdated W s := by
  by_cases hcurrent : ∀ id own, s.trees.get? id = some own → W.tree? id = some own
  · exact .inl { h with current := hcurrent }
  · simp only [not_forall] at hcurrent
    obtain ⟨id, own, hown, hid⟩ := hcurrent
    exact .inr ⟨id, own, hown, hid⟩

/-- A question about a tree begins with a session that is current, and that remembers where URIs
have led or nothing. -/
theorem IsTruthful.adopt_cases (h : IsTruthful W s) (hW : W.IsPlain) (ht : t ∈ W.held) :
    IsCurrent W (adopt t s).2 ∧ t ∈ (adopt t s).2.known ∧
      (s.known ⊆ (adopt t s).2.known ∧ (adopt t s).2.targets = s.targets ∨
        IsOutdated W s ∧ (adopt t s).2.targets = Dict.empty) := by
  rcases h.isCurrent_or_isOutdated with hcurrent | hold
  · obtain ⟨hs, hmem, hrest⟩ := hcurrent.adopt_spec hW ht
    exact ⟨hs, hmem, .inl hrest⟩
  · obtain ⟨hs, hmem, htargets⟩ := h.adopt_spec hW ht hold
    exact ⟨hs, hmem, .inr ⟨hold, htargets⟩⟩

/-- A session that remembers the same of URIs as another one, or nothing, has been led alike. -/
theorem LeadsAs.of_targets {s' : Session} {V : Store} (h : s.LeadsAs V)
    (htargets : s'.targets = s.targets ∨ s'.targets = Dict.empty) : s'.LeadsAs V := by
  intro importer uri target hget
  rcases htargets with htargets | htargets
  · exact h importer uri target (htargets ▸ hget)
  · rw [htargets] at hget
    exact nomatch hget

theorem Stands.of_targets {s' : Session} (h : s.Stands)
    (hs' : s.known ⊆ s'.known ∧ s'.targets = s.targets ∨ s'.targets = Dict.empty) :
    s'.Stands := by
  intro importer uri target hget
  rcases hs' with ⟨hknown, htargets⟩ | htargets
  · obtain ⟨t, ht, hrest⟩ := h importer uri target (htargets ▸ hget)
    exact ⟨t, hknown ht, hrest⟩
  · rw [htargets] at hget
    exact nomatch hget

theorem IsTruthful.leadsAs_adopt (h : IsTruthful W s) (hW : W.IsPlain) (ht : t ∈ W.held)
    (hleads : s.LeadsAs W) : (adopt t s).2.LeadsAs W := by
  obtain ⟨-, -, htargets⟩ := h.adopt_cases hW ht
  exact hleads.of_targets (htargets.imp And.right And.right)

theorem IsTruthful.stands_adopt (h : IsTruthful W s) (hW : W.IsPlain) (ht : t ∈ W.held)
    (hstands : s.Stands) : (adopt t s).2.Stands := by
  obtain ⟨-, -, htargets⟩ := h.adopt_cases hW ht
  exact hstands.of_targets (htargets.imp_right And.right)

theorem steady_adopt {T : Set Tree} {t : Tree} (ht : Grounded T t) : Steady T (adopt t) := by
  intro W s hW hT hs
  obtain ⟨hcurrent, -, hknown, htargets⟩ := hs.adopt_spec hW (ht.mem W.base_mem_held hT)
  exact ⟨hcurrent, .of_known hknown htargets, trivial, fun _ _ _ _ => rfl,
    fun hleads => hleads.of_targets (.inl htargets),
    fun _ hstands => hstands.of_targets (.inl ⟨hknown, htargets⟩)⟩

/-! ## Questions -/

/-- How a session answers a question about a tree of its store: it is current from then on, its
answer is grounded in the store, and it is that of a new session if what the session remembers of
URIs when the question begins is still so. -/
structure Answered {α : Type} [Grounding α] (W : Store) (s : Session) (t : Tree) (q : Query α) :
    Prop where
  current : IsCurrent W (q s).2
  grounded : Grounded W.held (q s).1
  answer : (adopt t s).2.LeadsAs W → (q s).1 = (q (new W)).1
  leads : (adopt t s).2.LeadsAs W → (q s).2.LeadsAs W
  stands : (adopt t s).2.Stands → (q s).2.Stands

/-- Whatever a session remembers, it answers a question about a tree of the store. -/
def AnswersAlike {α : Type} [Grounding α] (t : Tree) (q : Query α) : Prop :=
  ∀ W s, W.IsPlain → W.tree? t.id = some t → IsTruthful W s → Answered W s t q

/-- A question that begins with its tree and goes on steadily is answered alike. -/
theorem answersAlike_adopt {α : Type} [Grounding α] {t : Tree} {f : PUnit → Query α}
    (hf : ∀ U, Grounded U t → Steady U (f ⟨⟩)) : AnswersAlike t (adopt t >>= f) := by
  intro W s hW ht hs
  have hheld : t ∈ W.held := .inr ht
  have hsteady := hf W.held (hW.grounded_of_mem hheld)
  obtain ⟨hcurrent, hmem, -⟩ := hs.adopt_cases hW hheld
  obtain ⟨hcurrent', -, -, htargets'⟩ := (IsCurrent.new hW).adopt_spec hW hheld
  obtain ⟨hkept, hgrounded⟩ := hsteady.keeps hW hcurrent
  -- nothing is followed but what stands in trees that are known once the question has begun
  have hnarrow := hf (adopt t s).2.known ⟨.inr hmem, hW.rooted ht⟩
  exact {
    current := hkept
    grounded := hgrounded
    answer := fun hleads => hsteady.answer_eq hW subset_rfl hcurrent hcurrent' hleads
      ((leadsAs_new W W).of_targets (.inl htargets'))
    leads := (hsteady W _ hW subset_rfl hcurrent).leads
    stands := (hnarrow W _ hW hcurrent.known_subset hcurrent).stands subset_rfl }

end PklAnalysis.Session
