import PklAnalysis.Proofs.Modules.PlainStores

/-!
# Stores of modules

A store holds modules only, each under its own identity.  It is proper if none of them has that of
the base module; it may have a loader and projects.  What is loaded into a store leaves it so, and
the module that a reference leads to is one that it holds afterwards.

Whatever its loader and its projects are, a store only grows when a URI is followed: it keeps the
trees that it holds, and holds the one that is found.
-/

namespace PklAnalysis

namespace Store

variable {W : Store}

/-- Each tree is that of its own module. -/
def IsKeyed (W : Store) : Prop := ∀ id t, W.tree? id = some t → t.id = id

/-! ## What resolving a URI does to the trees -/

theorem trees_projectOf (importer : ModuleId) (W : Store) :
    (projectOf importer W).2.trees = W.trees := by
  obtain ⟨dir?, hproject⟩ := exists_projectOf_eq importer W
  rw [hproject]
  cases dir? <;> rfl

theorem trees_locate (uri : String) (importer : ModuleId) (W : Store) :
    (locate uri importer W).2.trees = W.trees := by
  rw [locate_snd]
  split
  · exact trees_projectOf importer W
  · rfl

theorem trees_recordOrigin (target : Target) (W : Store) :
    (recordOrigin target W).trees = W.trees := by
  unfold recordOrigin
  split
  · rfl
  · generalize target.places = places
    induction places generalizing W with
    | nil => rfl
    | cons place places ih =>
      rw [List.foldl_cons, ih]
      split <;> rfl

/-- What is loaded is described at one of the places, which has a path. -/
theorem exists_place_of_loadFirst {loader : Loader} {places : List Place} {t : Tree}
    (h : loadFirst loader places = .ok (some t)) :
    ∃ place ∈ places, place.path.isSome ∧ ∃ m : Source.Module, t = m.treeAs place.id 1 := by
  induction places with
  | nil => cases h
  | cons place places ih =>
    have hrest (h : loadFirst loader places = .ok (some t)) : ∃ place' ∈ place :: places,
        place'.path.isSome ∧ ∃ m : Source.Module, t = m.treeAs place'.id 1 := by
      obtain ⟨place', hmem, hloaded⟩ := ih h
      exact ⟨place', List.mem_cons_of_mem _ hmem, hloaded⟩
    rw [loadFirst] at h
    split at h
    · exact hrest h
    · next hpath =>
      split at h
      · cases h
      · next m _ =>
        cases h
        exact ⟨place, List.mem_cons_self, Option.isSome_of_mem hpath, m, rfl⟩
      · exact hrest h

/-- What the store holds already stays, trees stay those of their modules, and the store holds the
tree that is found. -/
structure Resolves (W : Store) (found : Except ResolveError Tree) (V : Store) : Prop where
  grows : ∀ id t, W.tree? id = some t → V.tree? id = some t
  keyed : W.IsKeyed → V.IsKeyed
  stored : W.IsKeyed → ∀ t, found = .ok t → V.tree? t.id = some t

theorem tree?_insert (W : Store) (t : Tree) (id : ModuleId) :
    (W.insert t).tree? id = if t.id = id then some t else W.tree? id := by
  rw [insert, tree?, Dict.get?_insert]
  simp only [beq_iff_eq]
  rfl

section Outcomes

variable {V : Store} (h : V.trees = W.trees)
include h

theorem tree?_of_trees (id : ModuleId) : V.tree? id = W.tree? id := by rw [tree?, h, tree?]

theorem Resolves.of_trees {e : ResolveError} : W.Resolves (.error e) V where
  grows id _ ht := (tree?_of_trees h id).trans ht
  keyed hW id t ht := hW id t ((tree?_of_trees h id) ▸ ht)
  stored _ _ h := nomatch h

theorem Resolves.of_stored {id : ModuleId} {t : Tree} (ht : V.tree? id = some t) :
    W.Resolves (.ok t) V where
  grows id _ ht := (tree?_of_trees h id).trans ht
  keyed hW id t ht := hW id t ((tree?_of_trees h id) ▸ ht)
  stored := by
    rintro hW _ ⟨⟩
    rw [hW id t ((tree?_of_trees h id) ▸ ht)]
    exact ht

theorem Resolves.of_loaded {t : Tree} (habsent : V.tree? t.id = none) :
    W.Resolves (.ok t) (V.insert t) where
  grows id u hu := by
    have hne : t.id ≠ id := by
      rintro rfl
      exact Option.some_ne_none u (hu.symm.trans ((tree?_of_trees h _).symm.trans habsent))
    rw [tree?_insert, if_neg hne, tree?_of_trees h, hu]
  keyed hW id u hu := by
    rw [tree?_insert] at hu
    split at hu
    · next hid => rw [← Option.some.inj hu, hid]
    · exact hW id u ((tree?_of_trees h id) ▸ hu)
  stored := by
    rintro - _ ⟨⟩
    rw [tree?_insert, if_pos rfl]

end Outcomes

/-- The tree for places, from the store or else from the loader. -/
theorem resolve_apply (uri : String) (importer : ModuleId) (W : Store) :
    resolve uri importer W = match (locate uri importer W).1 with
      | .error e => (.error e, (locate uri importer W).2)
      | .ok target =>
        let V := recordOrigin target (locate uri importer W).2
        match V.stored? target.places with
        | some t => (.ok t, V)
        | none =>
          match (V.loader.map (loadFirst · target.places)).getD (.ok none) with
          | .error e => (.error e, V)
          | .ok none => (.error (.notFound uri importer), V)
          | .ok (some t) => (.ok t, V.insert t) := by
  unfold resolve
  rw [bind_apply]
  cases (locate uri importer W).1 with
  | error e => rfl
  | ok target =>
    show (match (recordOrigin target (locate uri importer W).2).stored? target.places with
      | some t => _ | none => _ : StateM Store _) _ = _
    simp only
    cases (recordOrigin target (locate uri importer W).2).stored? target.places with
    | some t => rfl
    | none =>
      simp only
      cases ((recordOrigin target (locate uri importer W).2).loader.map
        (loadFirst · target.places)).getD (.ok none) with
      | error e => rfl
      | ok found => cases found <;> rfl

theorem resolves_resolve (uri : String) (importer : ModuleId) (W : Store) :
    W.Resolves (resolve uri importer W).1 (resolve uri importer W).2 := by
  have hlocate := trees_locate uri importer W
  rw [resolve_apply]
  generalize locate uri importer W = located at hlocate ⊢
  obtain ⟨target | target, located⟩ := located
  · exact .of_trees hlocate
  · have hrecord := (trees_recordOrigin target located).trans hlocate
    simp only
    generalize recordOrigin target located = V at hrecord
    split
    · next hstored =>
      obtain ⟨place, -, hplace⟩ := List.exists_of_findSome?_eq_some hstored
      exact .of_stored hrecord hplace
    · next hnone =>
      split
      · exact .of_trees hrecord
      · exact .of_trees hrecord
      · next t hload =>
        obtain ⟨loader, hload⟩ : ∃ loader, loadFirst loader target.places = .ok (some t) := by
          cases hloader : V.loader with
          | none => rw [hloader] at hload; cases hload
          | some loader => exact ⟨loader, by rwa [hloader] at hload⟩
        obtain ⟨place, hmem, -, m, rfl⟩ := exists_place_of_loadFirst hload
        refine .of_loaded hrecord ?_
        exact List.findSome?_eq_none_iff.mp hnone place hmem

/-- When a source is put into a store, trees stay those of their modules. -/
theorem IsKeyed.insertSource (h : W.IsKeyed) (m : Source.Module) :
    (W.insertSource m).IsKeyed := by
  intro id t ht
  rw [tree?_insertSource] at ht
  split at ht
  · next hid => rw [← Option.some.inj ht, id_treeOf, hid]
  · exact h id t ht

/-! ## Stores of modules -/

/-- A store of modules under their own identities. -/
structure IsFiled (W : Store) : Prop where
  keyed : W.IsKeyed
  rooted : ∀ id t, W.tree? id = some t → t.IsRooted

/-- A store of modules under their own identities, which are not that of the base module. -/
structure IsProper (W : Store) : Prop extends W.IsFiled where
  base : W.tree? BaseModule.id = none

/-- The tree that a module has at present: that of the store, or else that of the base module if it
is the base module. -/
def current? (W : Store) (id : ModuleId) : Option Tree :=
  (W.tree? id).or (if id = BaseModule.id then some BaseModule.tree else none)

theorem current?_of_tree? {id : ModuleId} {t : Tree} (ht : W.tree? id = some t) :
    W.current? id = some t := by rw [current?, ht, Option.some_or]

/-- The tree that a module has at present is one that the store holds. -/
theorem mem_held_of_current? {t : Tree} (ht : W.current? t.id = some t) : t ∈ W.held := by
  rcases Option.or_eq_some_iff.mp ht with ht | ⟨-, ht⟩
  · exact .inr ht
  · exact .inl (Option.some.inj (Option.ite_none_right_eq_some.mp ht).2).symm

/-- Some tree that the store holds has a node at a place. -/
def HasPlace (W : Store) (site : Site) : Prop :=
  ∃ t ∈ W.held, t.id = site.module ∧ (t.kind? site.node).isSome

namespace IsProper

variable (hW : W.IsProper)
include hW

theorem current?_eq (id : ModuleId) :
    W.current? id = if id = BaseModule.id then some BaseModule.tree else W.tree? id := by
  rw [current?]
  split
  · next hid => rw [hid, hW.base, Option.none_or]
  · rw [Option.or_none]

theorem current?_base : W.current? BaseModule.id = some BaseModule.tree := by
  rw [hW.current?_eq, if_pos rfl]

end IsProper

/-! ## How stores come about -/

theorem IsProper.new (config : GraphConfig) (files : Files) (loader : Option Loader) :
    (Store.new config files loader).IsProper where
  keyed _ _ h := nomatch (show none = some _ from h)
  rooted _ _ h := nomatch (show none = some _ from h)
  base := rfl

/-- A store holds modules under their identities if its trees are described under them. -/
theorem IsFiled.of_described (hW : W.IsFiled) {V : Store}
    (h : ∀ id t, V.tree? id = some t → W.tree? id = some t ∨
      ∃ (m : Source.Module) (version : Nat), t = m.treeAs id version) : V.IsFiled where
  keyed id t ht := by
    rcases h id t ht with ht | ⟨m, version, rfl⟩
    · exact hW.keyed id t ht
    · exact Tree.id_treeAs m id version
  rooted id t ht := by
    rcases h id t ht with ht | ⟨m, version, rfl⟩
    · exact hW.rooted id t ht
    · exact Tree.isRooted_treeAs m id version

theorem IsFiled.insertSource (hW : W.IsFiled) (m : Source.Module) :
    (W.insertSource m).IsFiled := by
  refine hW.of_described fun id t ht => ?_
  rw [tree?_insertSource] at ht
  split at ht
  · next hid =>
    obtain rfl := hid
    exact .inr ⟨m, _, (Option.some.inj ht).symm⟩
  · exact .inl ht

theorem IsFiled.remove (hW : W.IsFiled) (id : ModuleId) : (W.remove id).IsFiled :=
  hW.of_described fun _ _ ht => .inl (tree?_of_tree?_remove ht).2

theorem IsProper.insertSource (hW : W.IsProper) {m : Source.Module}
    (hm : idOf m.uri ≠ BaseModule.id) : (W.insertSource m).IsProper where
  toIsFiled := hW.toIsFiled.insertSource m
  base := by rw [tree?_insertSource, if_neg hm, hW.base]

section Filled

variable {config : GraphConfig} {files : Files} {sources : List Source.Module}

/-- A store that is filled with sources under other identities than that of the base module. -/
theorem isProper_ofSources (hsources : ∀ m ∈ sources, idOf m.uri ≠ BaseModule.id) :
    (ofSources config files sources).IsProper :=
  ofSources_induction (.new config files none) fun m hm _ hW => hW.insertSource (hsources m hm)

end Filled

/-! ## What is loaded -/

theorem fileId_ne_base (path : Path) : AbsoluteUri.fileId path ≠ BaseModule.id := by
  intro h
  have htext := congrArg (·.text.toList) h
  simp [AbsoluteUri.fileId, BaseModule.id, BaseModule.uri] at htext

theorem package_id_ne_base (p : PackageUri) : (AbsoluteUri.package p).id ≠ BaseModule.id := by
  intro h
  have htext := congrArg (·.text.toList) h
  rw [AbsoluteUri.id, PackageUri.text, PackageUri.baseUri] at htext
  split at htext <;> simp [BaseModule.id, BaseModule.uri] at htext

/-- Nothing is read from a path that would have the identity of the base module. -/
def NamesFiles (target : Target) : Prop :=
  ∀ place ∈ target.places, place.path.isSome → place.id ≠ BaseModule.id

theorem namesFiles_single {id : ModuleId} {path : Option Path}
    (h : path.isSome → id ≠ BaseModule.id) : NamesFiles (.single id path) :=
  List.forall_mem_singleton.mpr h

theorem namesFiles_placesOf (config : GraphConfig) (project : Option Project) (u : AbsoluteUri) :
    NamesFiles (placesOf config project u) := by
  cases u with
  | stdlib name => exact namesFiles_single fun h => nomatch h
  | file path => exact namesFiles_single fun _ => fileId_ne_base path
  | modulePath path =>
    refine List.forall_mem_append.mpr ⟨List.forall_mem_map.mpr fun root _ _ => fileId_ne_base _, ?_⟩
    exact List.forall_mem_singleton.mpr fun h => nomatch h
  | package p => exact List.forall_mem_singleton.mpr fun _ => package_id_ne_base _
  | network url => exact namesFiles_single fun h => nomatch h

theorem namesFiles_locate {uri : String} {importer : ModuleId} {target : Target}
    (h : (locate uri importer W).1 = .ok target) : NamesFiles target := by
  obtain ⟨u, rfl⟩ := exists_placesOf_of_locateIn ((locate_fst uri importer W).symm.trans h)
  exact namesFiles_placesOf _ _ u

/-- The trees that a store has after a reference has been followed are those that it had, or they
are described by what has been loaded. -/
theorem tree?_resolve {uri : String} {importer id : ModuleId} {t : Tree}
    (h : (resolve uri importer W).2.tree? id = some t) : W.tree? id = some t ∨
      id ≠ BaseModule.id ∧ ∃ (m : Source.Module) (version : Nat), t = m.treeAs id version := by
  have hlocate := trees_locate uri importer W
  have hnames := @namesFiles_locate W uri importer
  rw [resolve_apply] at h
  generalize locate uri importer W = located at hlocate hnames h
  obtain ⟨target | target, located⟩ := located
  · exact .inl ((tree?_of_trees hlocate id).symm.trans h)
  · have hrecord := (trees_recordOrigin target located).trans hlocate
    simp only at h
    generalize recordOrigin target located = V at hrecord h
    have hold (h : V.tree? id = some t) : W.tree? id = some t :=
      (tree?_of_trees hrecord id).symm.trans h
    split at h
    · exact .inl (hold h)
    · split at h
      · exact .inl (hold h)
      · exact .inl (hold h)
      · next loaded hload =>
        obtain ⟨loader, hload⟩ : ∃ loader, loadFirst loader target.places = .ok (some loaded) := by
          cases hloader : V.loader with
          | none => rw [hloader] at hload; cases hload
          | some loader => exact ⟨loader, by rwa [hloader] at hload⟩
        obtain ⟨place, hmem, hpath, m, rfl⟩ := exists_place_of_loadFirst hload
        rw [tree?_insert] at h
        split at h
        · next hid =>
          obtain rfl : place.id = id := hid
          exact .inr ⟨hnames rfl place hmem hpath, m, 1, (Option.some.inj h).symm⟩
        · exact .inl (hold h)

theorem IsFiled.resolve (hW : W.IsFiled) (uri : String) (importer : ModuleId) :
    (Store.resolve uri importer W).2.IsFiled :=
  hW.of_described fun _ _ ht => (tree?_resolve ht).imp_right And.right

/-- A module under the identity of the base module is never loaded. -/
theorem base_resolve (hW : W.tree? BaseModule.id = none) (uri : String) (importer : ModuleId) :
    (Store.resolve uri importer W).2.tree? BaseModule.id = none := by
  refine Option.eq_none_iff_forall_ne_some.mpr fun t ht => ?_
  rcases tree?_resolve ht with ht | ⟨hid, -⟩
  · exact Option.some_ne_none t (ht.symm.trans hW)
  · exact hid rfl

theorem loader_locate (uri : String) (importer : ModuleId) (W : Store) :
    (locate uri importer W).2.loader = W.loader := by
  have hproject : (projectOf importer W).2.loader = W.loader := by
    obtain ⟨dir?, hproject⟩ := exists_projectOf_eq importer W
    rw [hproject]
    cases dir? <;> rfl
  rw [locate_snd]
  split
  · exact hproject
  · rfl

theorem loader_recordOrigin (target : Target) (W : Store) :
    (recordOrigin target W).loader = W.loader := by
  unfold recordOrigin
  split
  · rfl
  · generalize target.places = places
    induction places generalizing W with
    | nil => rfl
    | cons place places ih =>
      rw [List.foldl_cons, ih]
      split <;> rfl

/-- Without a loader no module is loaded. -/
theorem resolve_of_loader (hW : W.loader = none) (uri : String) (importer : ModuleId) :
    (Store.resolve uri importer W).2.loader = none ∧
      (Store.resolve uri importer W).2.trees = W.trees := by
  have htrees := trees_locate uri importer W
  have hloader := (loader_locate uri importer W).trans hW
  rw [resolve_apply]
  generalize locate uri importer W = located at htrees hloader ⊢
  obtain ⟨target | target, located⟩ := located
  · exact ⟨hloader, htrees⟩
  · have htrees := (trees_recordOrigin target located).trans htrees
    have hloader := (loader_recordOrigin target located).trans hloader
    simp only
    generalize recordOrigin target located = V at htrees hloader
    split
    · exact ⟨hloader, htrees⟩
    · rw [hloader]
      exact ⟨hloader, htrees⟩

end Store

end PklAnalysis
