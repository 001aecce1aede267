import PklAnalysis.Proofs.Resolution.Memoization

/-!
# Modules that come and go

Memoization is about updates of modules that the store holds already.  When modules are added as
well, a session goes on answering like a new one exactly if it knows an older tree, and so forgets
all answers with the next question, or if every URI that it has followed still leads where it led:
an addition alone is not noticed.  A removal is not noticed either, so it does no harm exactly if
the session does not know the module that is removed.
-/

namespace PklAnalysis.Session

/-- The sessions that come about from one by additions and updates of modules, by removals of
modules that the session does not know, and by questions about the trees of the store. -/
inductive Served (start : Session) : Session → Prop
  | start : Served start start
  | insert {s : Session} {m : Source.Module} (hs : Served start s)
      (hm : Store.idOf m.uri ≠ BaseModule.id) :
      Served start { s with store := s.store.insertSource m }
  | remove {s : Session} {id : ModuleId} (hs : Served start s) (hid : s.trees.get? id = none) :
      Served start { s with store := s.store.remove id }
  | ask {s : Session} {id : ModuleId} {t : Tree} (hs : Served start s)
      (ht : s.store.tree? id = some t) (q : Question) : Served start (ask t q s).2

/-- The answer to each question about a tree of the store speaks of trees of the store, and the
session knows no others after it. -/
def SeesStore (s : Session) : Prop :=
  ∀ id t, s.store.tree? id = some t → ∀ q : Question,
    Grounded s.store.held (ask t q s).1 ∧
      ∀ id own, (ask t q s).2.trees.get? id = some own → s.store.tree? id = some own

variable {W : Store} {s : Session} {t : Tree}

/-! ## What a session remembers -/

/-- A session over a plain store remembers what is right, and of URIs only such as stand in trees
that it knows. -/
def IsSound (s : Session) : Prop := ∃ W, W.IsPlain ∧ IsTruthful W s ∧ s.Stands

theorem isSound_new {config : GraphConfig} {files : Files}
    (hfiles : ∀ dir, ProjectIndex.manifestIn? files dir = none) :
    (new (Store.new config files none)).IsSound := by
  have hplain : (Store.ofSources config files []).IsPlain :=
    Store.isPlain_ofSources hfiles (List.forall_mem_nil _)
  refine ⟨_, hplain, (IsCurrent.new hplain).toIsTruthful, fun _ _ _ h => ?_⟩
  exact (Option.some_ne_none _ h.symm).elim

/-- When a module is removed that the session does not know, what it remembers stays right. -/
theorem IsTruthful.remove (h : IsTruthful W s) {id : ModuleId} (hid : s.trees.get? id = none) :
    IsTruthful (W.remove id) { s with store := s.store.remove id } := by
  obtain ⟨answers, hstore⟩ := h.store
  refine h.withStore rfl ⟨answers, by rw [hstore]; rfl⟩ h.bare.remove fun id' t ht => ?_
  have hne : id ≠ id' := by
    rintro rfl
    rw [hid] at ht
    cases ht
  rw [Store.tree?_remove, if_neg hne]
  exact h.trees id' t ht

theorem Served.isSound {start : Session} (hs : Served start s) (hstart : start.IsSound) :
    s.IsSound := by
  induction hs with
  | start => exact hstart
  | insert _ hm ih =>
    obtain ⟨W, hW, hs, hstands⟩ := ih
    exact ⟨_, hW.insertSource hm, hs.insertSource, hstands⟩
  | remove _ hid ih =>
    obtain ⟨W, hW, hs, hstands⟩ := ih
    exact ⟨_, hW.remove, hs.remove hid, hstands⟩
  | @ask s id t _ ht q ih =>
    obtain ⟨W, hW, hs, hstands⟩ := ih
    rw [hs.tree?_store] at ht
    have hstored : W.tree? t.id = some t := by rwa [hW.keyed ht]
    have hanswered := answersAlike_ask t q W s hW hstored hs
    have hadopted := hs.stands_adopt hW (.inr hstored) hstands
    exact ⟨W, hW, hanswered.current.toIsTruthful, hanswered.stands hadopted⟩

/-! ## What a reference to a module resolves to -/

/-- Whether a URI stands at a node of some kind. -/
def hasUri : NodeKind → Bool
  | .clause .. | .importClause _ | .importExpr _ => true
  | _ => false

/-- No URI stands in the base module. -/
theorem uriAt?_base (n : Nat) : uriAt? BaseModule.tree n = none := by
  have hnodes : BaseModule.tree.nodes.toList.all (fun node => !hasUri node.kind) = true := by
    decide +kernel
  rw [uriAt?, Tree.kind?, Tree.node?]
  cases hnode : BaseModule.tree.nodes[n]? with
  | none => rfl
  | some node =>
    have hkind := List.all_eq_true.mp hnodes node (Array.mem_toList_iff.mpr
      (Array.mem_of_getElem? hnode))
    rw [Option.map_some]
    generalize node.kind = kind at hkind
    cases kind <;> first | rfl | exact absurd hkind Bool.false_ne_true

/-- A node with a URI refers to the module to which the URI leads. -/
theorem resolveIn_of_uriAt? {q : Typing} {n : Nat} {uri : String} (h : uriAt? t n = some uri) :
    resolveIn q t n = moduleDeclared? t uri := by
  rw [uriAt?] at h
  rw [resolveIn]
  split at h
  · next hkind => rw [hkind, ← Option.some.inj h]
  · next hkind => rw [hkind, ← Option.some.inj h]
  · next hkind => rw [hkind, ← Option.some.inj h]
  · cases h

/-- The module to which a reference to a module resolves is the one to which its URI leads. -/
theorem resolve_of_uriAt? {n : Nat} {uri : String} (h : uriAt? t n = some uri) (s : Session) :
    (resolve t n s).1.map (·.site.module) =
      ((resolveModule t uri (adopt t s).2).1.map (·.id)).toOption := by
  show (resolveIn typing t n (adopt t s).2).1.map (·.site.module) = _
  rw [resolveIn_of_uriAt? h]
  show (((resolveModule t uri (adopt t s).2).1.toOption).map fun u =>
    Declared.atNode u Tree.root .module (moduleName u)).map (·.site.module) = _
  cases (resolveModule t uri (adopt t s).2).1 <;> rfl

/-- A URI that a session has followed leads where it led. -/
theorem IsCurrent.resolveModule_again (h : IsCurrent W s) (hW : W.IsPlain) {uri : String}
    {target : Except ResolveError ModuleId} (htarget : s.targets.get? (t.id, uri) = some target) :
    (resolveModule t uri s).1.map (·.id) = target := by
  have hbase := (h.targets t.id uri target htarget).ne_base
  obtain ⟨found, s', happly, hfinds⟩ := h.finds_again hW htarget
  rw [happly]
  exact Option.some.inj ((hfinds.remembers hbase).symm.trans (hfinds.grows.targets _ _ htarget))

/-- A URI that a session has not followed leads where the store says. -/
theorem IsCurrent.resolveModule_first (h : IsCurrent W s) (hW : W.IsPlain) {uri : String}
    (hbase : uri ≠ BaseModule.uri) (hnone : s.targets.get? (t.id, uri) = none) :
    (resolveModule t uri s).1 = W.find uri t.id := by
  obtain ⟨s', happly, -⟩ := h.finds_new hW hbase hnone
  rw [happly]

/-- The reason why a URI leads nowhere depends on no more than where modules are looked for. -/
theorem find_error_congr {V : Store} (hconfig : V.config = W.config) {uri : String}
    {importer : ModuleId} {e e' : ResolveError} (hV : V.find uri importer = .error e)
    (hW : W.find uri importer = .error e') : e = e' := by
  rw [Store.find] at hV hW
  rw [hconfig] at hV
  cases hlocate : Store.locateIn W.config none uri importer with
  | error why =>
    rw [hlocate] at hV hW
    exact (Except.error.inj hV).symm.trans (Except.error.inj hW)
  | ok target =>
    rw [hlocate] at hV hW
    simp only at hV hW
    split at hV
    · cases hV
    split at hW
    · cases hW
    exact (Except.error.inj hV).symm.trans (Except.error.inj hW)

/-! ## Additions -/

/-- A current session that has followed a URI elsewhere than it leads now resolves a reference to
another module than a new session. -/
theorem IsCurrent.leadsAs_of_answersAsNew (h : IsCurrent W s) (hW : W.IsPlain)
    (hstands : s.Stands) (hs : AnswersAsNew s) : s.LeadsAs W := by
  intro importer uri target htarget
  obtain ⟨hbase, -, V, hconfig, hled⟩ := h.targets importer uri target htarget
  obtain ⟨t, hmem, rfl, n, huri⟩ := hstands importer uri target htarget
  have hstored : W.tree? t.id = some t := by
    rcases hmem with rfl | hget
    · rw [uriAt?_base] at huri
      cases huri
    · exact h.current t.id t hget
  -- the reference at the node shows where the URI leads
  have hsame := congrArg (Option.map (·.site.module))
    (hs t.id t (by rwa [h.tree?_store]) (.resolve n))
  obtain ⟨hcurrent, -, -, htargets⟩ := h.adopt_spec hW (.inr hstored)
  obtain ⟨hcurrent', -, htargets'⟩ := h.anew.adopt_cases hW (.inr hstored)
  have hnone : (adopt t (Session.new s.store)).2.targets.get? (t.id, uri) = none := by
    rcases htargets' with ⟨-, htargets'⟩ | ⟨-, htargets'⟩ <;> rw [htargets'] <;> rfl
  rw [ask, resolve_of_uriAt? huri, resolve_of_uriAt? huri,
    hcurrent.resolveModule_again hW (htargets ▸ htarget),
    hcurrent'.resolveModule_first hW hbase hnone] at hsame
  cases hfind : W.find uri t.id with
  | ok u =>
    rw [hfind] at hsame
    cases target with
    | ok id => exact congrArg Except.ok (Option.some.inj hsame).symm
    | error e => cases hsame
  | error e =>
    rw [hfind] at hsame
    cases target with
    | ok id => cases hsame
    | error e' =>
      cases hV : V.find uri t.id with
      | ok u =>
        rw [hV] at hled
        cases hled
      | error e'' =>
        rw [hV] at hled
        rw [← hled, find_error_congr hconfig hV hfind]

theorem IsTruthful.isOutdated_store (h : IsTruthful W s) :
    IsOutdated s.store s ↔ IsOutdated W s := by
  rw [IsOutdated, IsOutdated]
  simp only [h.tree?_store]

theorem IsTruthful.leadsAs_store (h : IsTruthful W s) : s.LeadsAs s.store ↔ s.LeadsAs W := by
  obtain ⟨answers, hstore⟩ := h.store
  rw [LeadsAs, LeadsAs, hstore]
  simp only [Store.find_withAnswers]

/-- While modules are added and updated, a session answers like a new one exactly if it knows an
older tree, or if every URI that it has followed still leads where it led. -/
theorem Served.answersAsNew_iff {config : GraphConfig} {files : Files} {s : Session}
    (hfiles : ∀ dir, ProjectIndex.manifestIn? files dir = none)
    (hs : Served (new (Store.new config files none)) s) :
    AnswersAsNew s ↔ IsOutdated s.store s ∨ s.LeadsAs s.store := by
  obtain ⟨W, hW, htruthful, hstands⟩ := hs.isSound (isSound_new hfiles)
  rw [htruthful.isOutdated_store, htruthful.leadsAs_store]
  refine ⟨fun hanswers => ?_, htruthful.answersAsNew hW⟩
  rcases htruthful.isCurrent_or_isOutdated with hcurrent | hold
  · exact .inr (hcurrent.leadsAs_of_answersAsNew hW hstands hanswers)
  · exact .inl hold

/-! ## A module that becomes available -/

/-- A session that has been asked about a module before the module that it imports was there. -/
def early : Session :=
  (ask importerTree (.typeOf 1) (new (Store.ofSources default .none [importer]))).2

/-- The imported module has been added. -/
def late : Session := { early with store := early.store.insertSource (imported "Foo") }

/-- The session still answers as before. -/
example : (ask importerTree (.typeOf 1) late).1 = (ask importerTree (.typeOf 1) early).1 := by
  decide

/-- The importing module has been updated after that. -/
def refreshed : Session := { late with store := late.store.insertSource importer }

theorem served_late : Served (new (Store.new default .none none)) late := by
  have hstored : (Store.ofSources default .none [importer]).tree? importerTree.id
      = some importerTree := Store.tree?_ofSources_singleton importer
  have hadded : Served (new (Store.new default .none none))
      (new (Store.ofSources default .none [importer])) := .insert .start (by decide)
  exact .insert (hadded.ask hstored (.typeOf 1)) (by decide)

/-- The session takes the addition in once a module that it knows has been updated. -/
theorem answersAsNew_refreshed : AnswersAsNew refreshed := by
  have hserved : Served (new (Store.new default .none none)) refreshed :=
    served_late.insert (by decide)
  have hknown : refreshed.trees.get? importerTree.id = some importerTree := by decide
  have hnewer : refreshed.store.tree? importerTree.id ≠ some importerTree := by decide
  have hold : IsOutdated refreshed.store refreshed := ⟨_, _, hknown, hnewer⟩
  exact (hserved.answersAsNew_iff ProjectIndex.manifestIn?_none).mpr (.inl hold)

/-- Until then the import is unknown, while a new session finds the module. -/
theorem not_forall_answersAsNew :
    ¬∀ (config : GraphConfig) (files : Files) (s : Session),
      (∀ dir, ProjectIndex.manifestIn? files dir = none) →
      Served (new (Store.new config files none)) s → AnswersAsNew s := by
  intro h
  have hstored : late.store.tree? importerTree.id = some importerTree := by decide
  have hsame := h _ _ late ProjectIndex.manifestIn?_none served_late _ _ hstored (.typeOf 1)
  have hdiffer : (typeOf importerTree 1 late).1
      ≠ (typeOf importerTree 1 (new late.store)).1 := by
    decide
  exact hdiffer hsame

/-! ## Removals -/

theorem IsTruthful.held_store (h : IsTruthful W s) : s.store.held = W.held := by
  rw [Store.held, Store.held]
  simp only [h.tree?_store]

theorem IsSound.seesStore (h : s.IsSound) : SeesStore s := by
  obtain ⟨W, hW, htruthful, -⟩ := h
  intro id t ht q
  rw [htruthful.tree?_store] at ht
  have hstored : W.tree? t.id = some t := by rwa [hW.keyed ht]
  have hanswered := answersAlike_ask t q W s hW hstored htruthful
  refine ⟨htruthful.held_store ▸ hanswered.grounded, fun id own hown => ?_⟩
  rw [htruthful.tree?_store]
  exact hanswered.current.current id own hown

theorem get?_foldl_setTree_of_not_mem {ts : List Tree} {id : ModuleId} (h : ∀ u ∈ ts, u.id ≠ id) :
    (ts.foldl setTree s).trees.get? id = s.trees.get? id := by
  induction ts generalizing s with
  | nil => rfl
  | cons u ts ih =>
    obtain ⟨hu, hts⟩ := List.forall_mem_cons.mp h
    rw [List.foldl_cons, ih hts, setTree, Dict.get?_insert,
      if_neg fun hid => hu (beq_iff_eq.mp hid)]

/-- A question leaves alone what the session knows of another module that the store does not
hold. -/
theorem get?_trees_adopt {id : ModuleId}
    (hkeyed : ∀ id u, s.store.tree? id = some u → u.id = id)
    (hid : s.store.tree? id = none) (hne : t.id ≠ id) :
    (adopt t s).2.trees.get? id = s.trees.get? id := by
  have hnewer : ∀ u ∈ s.newerTrees t.id, u.id ≠ id := by
    rintro u hu rfl
    obtain ⟨⟨id, own⟩, -, hu⟩ := List.mem_filterMap.mp hu
    simp only at hu
    split at hu
    · cases hu
    · obtain ⟨hstored, -⟩ := Option.filter_eq_some_iff.mp hu
      obtain rfl := hkeyed id u hstored
      exact Option.some_ne_none u (hstored.symm.trans hid)
  have hset : ([t].foldl setTree s).trees.get? id = s.trees.get? id :=
    get?_foldl_setTree_of_not_mem (List.forall_mem_singleton.mpr hne)
  rw [adopt_apply]
  split
  · split
    · rfl
    · exact get?_foldl_setTree_of_not_mem hnewer
  · split
    · exact hset
    · exact get?_foldl_setTree_of_not_mem (List.forall_mem_cons.mpr ⟨hne, hnewer⟩)
  · exact get?_foldl_setTree_of_not_mem
      (List.forall_mem_append.mpr ⟨hnewer, List.forall_mem_singleton.mpr hne⟩)

/-- There is a source of another module than a given one and the base module. -/
theorem exists_idOf_ne (id : ModuleId) :
    ∃ uri, Store.idOf uri ≠ id ∧ Store.idOf uri ≠ BaseModule.id := by
  have ha : Store.idOf "a" ≠ BaseModule.id := by decide
  have hb : Store.idOf "b" ≠ BaseModule.id := by decide
  have hne : Store.idOf "b" ≠ Store.idOf "a" := by decide
  by_cases hid : Store.idOf "a" = id
  · subst hid
    exact ⟨"b", hne, hb⟩
  · exact ⟨"a", hid, ha⟩

/-- A module that has been removed stays known when another module is added and asked about. -/
theorem IsTruthful.not_seesStore_remove (h : IsTruthful W s) (hW : W.IsPlain) {id : ModuleId}
    {own : Tree} (hown : s.trees.get? id = some own) {m : Source.Module}
    (hm : Store.idOf m.uri ≠ id) :
    ¬SeesStore { s with store := (s.store.remove id).insertSource m } := by
  intro hsees
  let s' : Session := { s with store := (s.store.remove id).insertSource m }
  let t := (s.store.remove id).treeOf m
  have hid : t.id = Store.idOf m.uri := Store.id_treeOf _ m
  have hne : t.id ≠ id := by rwa [hid]
  have hlookup : ∀ id', s'.store.tree? id' =
      if t.id = id' then some t else if id = id' then none else W.tree? id' := by
    intro id'
    rw [hid, ← h.tree?_store, ← Store.tree?_remove, ← Store.tree?_insertSource]
  have hstored : s'.store.tree? t.id = some t := by
    rw [hlookup, if_pos rfl]
  have hremoved : s'.store.tree? id = none := by
    rw [hlookup, if_neg hne, if_pos rfl]
  have hkeyed : ∀ id' u, s'.store.tree? id' = some u → u.id = id' := by
    intro id' u hu
    rw [hlookup] at hu
    split at hu
    · next hid' => rw [← Option.some.inj hu, hid']
    · split at hu
      · cases hu
      · exact hW.keyed hu
  -- to find the type of a module nothing but its own tree is needed
  have hasked : (PklAnalysis.Session.ask t (.typeOf Tree.root) s').2 = (adopt t s').2 := rfl
  obtain ⟨-, hknown⟩ := hsees t.id t hstored (.typeOf Tree.root)
  have hkept := (get?_trees_adopt hkeyed hremoved hne).trans hown
  exact Option.some_ne_none own ((hknown id own (hasked ▸ hkept)).symm.trans hremoved)

/-- A session goes on seeing the store after a removal, whatever is added, updated and asked then,
exactly if it does not know the module that is removed. -/
theorem Served.seesStore_remove_iff {config : GraphConfig} {files : Files} {s : Session}
    (hfiles : ∀ dir, ProjectIndex.manifestIn? files dir = none)
    (hs : Served (new (Store.new config files none)) s) (id : ModuleId) :
    (∀ s', Served { s with store := s.store.remove id } s' → SeesStore s') ↔
      s.trees.get? id = none := by
  have hsound := hs.isSound (isSound_new hfiles)
  constructor
  · intro h
    by_contra hid
    obtain ⟨own, hown⟩ := Option.ne_none_iff_exists'.mp hid
    obtain ⟨W, hW, htruthful, -⟩ := hsound
    obtain ⟨uri, hne, hbase⟩ := exists_idOf_ne id
    have hm : Store.idOf (bareModule uri).uri ≠ id := hne
    exact htruthful.not_seesStore_remove hW hown hm (h _ (.insert .start hbase))
  · intro hid s' hs'
    have hremoved : Served s { s with store := s.store.remove id } := .remove .start hid
    exact (hs'.isSound (hremoved.isSound hsound)).seesStore

/-- A removal from the store of a current session does not make it forget anything. -/
theorem IsCurrent.targets_adopt_remove (h : IsCurrent W s) (ht : W.tree? t.id = some t)
    {id : ModuleId} (hne : t.id ≠ id) :
    (adopt t { s with store := s.store.remove id }).2.targets = s.targets := by
  let s' : Session := { s with store := s.store.remove id }
  have hnewer : s'.newerTrees t.id = [] := by
    refine List.eq_nil_iff_forall_not_mem.mpr fun u hu => ?_
    obtain ⟨⟨id', own⟩, hmem, hu⟩ := List.mem_filterMap.mp hu
    have hcurrent := h.current id' own (Dict.get?_of_mem h.keys hmem)
    simp only at hu
    split at hu
    · cases hu
    · obtain ⟨hstored, hversion⟩ := Option.filter_eq_some_iff.mp hu
      have hstored := (Store.tree?_of_tree?_remove hstored).2
      rw [h.tree?_store, hcurrent] at hstored
      obtain rfl := Option.some.inj hstored
      exact lt_irrefl _ (of_decide_eq_true hversion)
  have harrival : s'.arrival t = .known ∨ s'.arrival t = .first := by
    have hstored : s'.store.tree? t.id = some t := by
      rw [Store.tree?_remove, if_neg hne.symm, h.tree?_store, ht]
    rw [arrival, hstored]
    cases hown : s'.trees.get? t.id with
    | none => exact .inr (if_pos rfl)
    | some own =>
      obtain rfl := Option.some.inj (ht.symm.trans (h.current t.id own hown))
      exact .inl (if_pos (by simp))
  rw [adopt_apply, hnewer]
  rcases harrival with harrival | harrival <;> rw [harrival] <;> rfl

/-- A reference that a session has followed to a module goes on resolving to it when it is
removed. -/
theorem IsCurrent.resolve_removed (h : IsCurrent W s) (hW : W.IsPlain) {n : Nat} {uri : String}
    {id : ModuleId} (ht : W.tree? t.id = some t) (huri : uriAt? t n = some uri)
    (htarget : s.targets.get? (t.id, uri) = some (.ok id)) (hid : (W.tree? id).isSome)
    (hne : t.id ≠ id) :
    (resolve t n { s with store := s.store.remove id }).1.map (·.site.module) = some id := by
  obtain ⟨hbase, hknown, -⟩ := h.targets t.id uri (.ok id) htarget
  obtain ⟨own, hmem, rfl⟩ := hknown id rfl
  have hown : s.trees.get? own.id = some own := by
    rcases hmem with rfl | hown
    · rw [show W.tree? BaseModule.tree.id = none from hW.base] at hid
      exact absurd hid Bool.false_ne_true
    · exact hown
  have hkept : (adopt t { s with store := s.store.remove own.id }).2.trees.get? own.id
      = some own := by
    refine (get?_trees_adopt (fun id u hu => ?_) ?_ hne).trans hown
    · have hstored := (Store.tree?_of_tree?_remove hu).2
      rw [h.tree?_store] at hstored
      exact hW.keyed hstored
    · exact Store.tree?_remove_self _ _
  have hne_base : own.id ≠ BaseModule.id := hW.id_ne_base (h.current own.id own hown)
  rw [resolve_of_uriAt? huri, resolveModule_apply, if_neg hbase,
    h.targets_adopt_remove ht hne, htarget]
  simp only
  rw [tree?_apply, if_neg hne_base, hkept]
  rfl

/-! ## A module that is removed -/

/-- The identity of the imported module. -/
def importedId : ModuleId := Store.idOf (imported "Foo").uri

/-- The imported module has been removed before its addition was noticed. -/
def withdrawn : Session := { late with store := late.store.remove importedId }

/-- Then nothing is amiss. -/
theorem seesStore_withdrawn : SeesStore withdrawn := by
  have hunknown : late.trees.get? importedId = none := by decide
  have hsees := (served_late.seesStore_remove_iff ProjectIndex.manifestIn?_none importedId).mpr
    hunknown
  exact hsees withdrawn .start

/-- A session that has been asked about the import. -/
def acquainted : Session := (ask importerTree (.resolve 1) (new sharedStore)).2

/-- When the imported module is removed then, the import still resolves to it. -/
theorem not_forall_seesStore_remove :
    ¬∀ (config : GraphConfig) (files : Files) (s : Session) (id : ModuleId),
      (∀ dir, ProjectIndex.manifestIn? files dir = none) →
      Served (new (Store.new config files none)) s →
      SeesStore { s with store := s.store.remove id } := by
  intro h
  have hshared : (new sharedStore).store.tree? importerTree.id = some importerTree := by
    decide
  have hadded : Served (new (Store.new default .none none)) (new sharedStore) :=
    .insert (m := imported "Foo") (.insert (m := importer) .start (by decide))
      (by decide)
  have hsees := h _ _ acquainted importedId ProjectIndex.manifestIn?_none
    (hadded.ask hshared (.resolve 1))
  have hstored : (acquainted.store.remove importedId).tree? importerTree.id
      = some importerTree := by
    decide
  have hremoved : (acquainted.store.remove importedId).tree? importedId = none := by
    decide
  have hanswer : (resolve importerTree 1
      { acquainted with store := acquainted.store.remove importedId }).1
        = some ⟨⟨importedId, Tree.root⟩, .module, "b"⟩ := by
    decide
  have hne : BaseModule.tree.id ≠ importedId := by decide
  -- no tree of the store or of the base module is that of the removed module
  have hgrounded := (hsees importerTree.id importerTree hstored (.resolve 1)).1
  rw [ask, hanswer] at hgrounded
  obtain ⟨t, ⟨ht, -⟩, hid⟩ := hgrounded.of_some
  rcases ht with rfl | rfl | ht
  · exact hne hid
  · exact hne hid
  · rw [show t.id = importedId from hid, hremoved] at ht
    cases ht

end PklAnalysis.Session
