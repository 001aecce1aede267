import Mathlib.Data.Set.Basic
import PklAnalysis.Proofs.Modules.BareStore
import PklAnalysis.Proofs.Source.SoughtNames
import PklAnalysis.Resolution.Session

/-!
# Stores under the base module

A plain store is a bare one that holds modules only, each under its own identity and none under that
of the base module, so that its trees and the tree of the base module are told apart by their
identities.  Where a reference leads in a plain store depends on its trees only by their identities:
two stores of the same frame agree about it.
-/

namespace PklAnalysis

/-- A tree that starts with the node of a module. -/
def Tree.IsRooted (t : Tree) : Prop :=
  ∃ name isOpen, t.kind? Tree.root = some (.module name isOpen)

theorem Tree.isRooted_treeAs (m : Source.Module) (id : ModuleId) (version : Nat) :
    (m.treeAs id version).IsRooted := ⟨m.name, m.isOpen, rfl⟩

@[simp] theorem Tree.id_treeAs (m : Source.Module) (id : ModuleId) (version : Nat) :
    (m.treeAs id version).id = id := rfl

theorem Tree.isRooted_base : BaseModule.tree.IsRooted := Tree.isRooted_treeAs _ _ _

namespace Store

/-- A bare store of modules under their own identities, which are not that of the base module. -/
structure IsPlain (W : Store) : Prop where
  bare : W.IsBare
  keyed : ∀ {id t}, W.tree? id = some t → t.id = id
  rooted : ∀ {id t}, W.tree? id = some t → t.IsRooted
  base : W.tree? BaseModule.id = none

/-- The trees of a store and that of the base module. -/
def held (W : Store) : Set Tree := {t | t = BaseModule.tree ∨ W.tree? t.id = some t}

theorem base_mem_held (W : Store) : BaseModule.tree ∈ W.held := .inl rfl

/-- Two stores hold modules of the same identities and look for them at the same places. -/
structure SameFrame (V W : Store) : Prop where
  config : V.config = W.config
  ids : ∀ id, (V.tree? id).isSome = (W.tree? id).isSome

theorem SameFrame.refl (W : Store) : SameFrame W W := ⟨rfl, fun _ => rfl⟩

theorem SameFrame.symm {V W : Store} (h : SameFrame V W) : SameFrame W V :=
  ⟨h.config.symm, fun id => (h.ids id).symm⟩

theorem SameFrame.trans {U V W : Store} (h : SameFrame U V) (h' : SameFrame V W) :
    SameFrame U W := ⟨h.config.trans h'.config, fun id => (h.ids id).trans (h'.ids id)⟩

theorem SameFrame.tree?_none {V W : Store} (h : SameFrame V W) {id : ModuleId}
    (hV : V.tree? id = none) : W.tree? id = none := by
  have hid := h.ids id
  rw [hV] at hid
  exact Option.not_isSome_iff_eq_none.mp (by simp [← hid])

theorem SameFrame.tree?_some {V W : Store} (h : SameFrame V W) {id : ModuleId} {t : Tree}
    (hV : V.tree? id = some t) : ∃ u, W.tree? id = some u := by
  have hid := h.ids id
  rw [hV] at hid
  exact Option.isSome_iff_exists.mp hid.symm

namespace IsPlain

variable {W : Store} (hW : W.IsPlain)
include hW

theorem rooted_of_mem {t : Tree} (ht : t ∈ W.held) : t.IsRooted := by
  rcases ht with rfl | ht
  · exact Tree.isRooted_base
  · exact hW.rooted ht

theorem id_ne_base {t : Tree} (ht : W.tree? t.id = some t) : t.id ≠ BaseModule.id := by
  intro h
  rw [h, hW.base] at ht
  exact nomatch ht

/-- The trees of a plain store are told apart by their identities. -/
theorem eq_of_mem {t u : Tree} (ht : t ∈ W.held) (hu : u ∈ W.held) (h : t.id = u.id) : t = u := by
  rcases ht with rfl | ht <;> rcases hu with rfl | hu
  · rfl
  · exact absurd h.symm (hW.id_ne_base hu)
  · exact absurd h (hW.id_ne_base ht)
  · rw [h, hu] at ht
    exact (Option.some.inj ht).symm

/-- A reference leads to a module that the store holds. -/
theorem tree?_of_find {uri : String} {importer : ModuleId} {t : Tree}
    (h : W.find uri importer = .ok t) : W.tree? t.id = some t := by
  rw [find] at h
  split at h
  · cases h
  · split at h
    · next u hu =>
      obtain ⟨place, -, hplace⟩ := List.exists_of_findSome?_eq_some hu
      rw [← Except.ok.inj h, hW.keyed hplace, hplace]
    · cases h

end IsPlain

/-- The first place at which one of two stores of the same frame holds a tree is that of the
other. -/
theorem SameFrame.map_stored? {V W : Store} (h : SameFrame V W) (hV : V.IsPlain) (hW : W.IsPlain)
    (places : List Place) :
    (V.stored? places).map (·.id) = (W.stored? places).map (·.id) := by
  rw [stored?, stored?]
  induction places with
  | nil => rfl
  | cons place places ih =>
    rw [List.findSome?_cons, List.findSome?_cons]
    cases hv : V.tree? place.id with
    | none =>
      rw [h.tree?_none hv]
      exact ih
    | some t =>
      obtain ⟨u, hu⟩ := h.tree?_some hv
      rw [hu]
      exact congrArg some ((hV.keyed hv).trans (hW.keyed hu).symm)

/-- Stores of the same frame agree where a reference leads. -/
theorem SameFrame.map_find {V W : Store} (h : SameFrame V W) (hV : V.IsPlain) (hW : W.IsPlain)
    (uri : String) (importer : ModuleId) :
    (V.find uri importer).map (·.id) = (W.find uri importer).map (·.id) := by
  rw [find, find, h.config]
  cases locateIn W.config none uri importer with
  | error e => rfl
  | ok target =>
    have hstored := h.map_stored? hV hW target.places
    simp only
    cases hv : V.stored? target.places with
    | none =>
      rw [hv] at hstored
      rw [Option.map_eq_none_iff.mp hstored.symm]
    | some t =>
      rw [hv] at hstored
      obtain ⟨u, hu, hid⟩ := Option.map_eq_some_iff.mp hstored.symm
      rw [hu]
      exact congrArg Except.ok hid.symm

/-! ## Updates -/

@[simp] theorem id_treeOf (W : Store) (m : Source.Module) : (W.treeOf m).id = idOf m.uri := by
  rw [treeOf, Tree.id_treeAs]

theorem tree?_insertSource (W : Store) (m : Source.Module) (id : ModuleId) :
    (W.insertSource m).tree? id = if idOf m.uri = id then some (W.treeOf m) else W.tree? id := by
  rw [insertSource, insert, tree?, Dict.get?_insert, id_treeOf]
  simp only [beq_iff_eq]
  rfl

theorem tree?_insertSource_self (W : Store) (m : Source.Module) :
    (W.insertSource m).tree? (idOf m.uri) = some (W.treeOf m) := by
  rw [tree?_insertSource, if_pos rfl]

/-- The tree of a source is newer than the one of its module that the store holds. -/
theorem version_lt_treeOf {W : Store} {m : Source.Module} {t : Tree}
    (ht : W.tree? (idOf m.uri) = some t) : t.version < (W.treeOf m).version := by
  have hversion : (W.treeOf m).version = W.nextVersion (idOf m.uri) := rfl
  rw [hversion, nextVersion, ht]
  exact Nat.lt_succ_self _

theorem IsBare.insertSource {W : Store} (hW : W.IsBare) {m : Source.Module} :
    (W.insertSource m).IsBare := ⟨hW.loader, hW.registered, hW.manifests, hW.answers⟩

/-- A source keeps a store plain unless it is one of the base module. -/
theorem IsPlain.insertSource {W : Store} (hW : W.IsPlain) {m : Source.Module}
    (hm : idOf m.uri ≠ BaseModule.id) : (W.insertSource m).IsPlain := by
  have htree : ∀ {id t}, (W.insertSource m).tree? id = some t →
      (t.id = id ∧ t.IsRooted) := by
    intro id t ht
    rw [tree?_insertSource] at ht
    split at ht
    · next hid =>
      rw [← Option.some.inj ht, id_treeOf]
      exact ⟨hid, Tree.isRooted_treeAs _ _ _⟩
    · exact ⟨hW.keyed ht, hW.rooted ht⟩
  refine ⟨hW.bare.insertSource, fun h => (htree h).1, fun h => (htree h).2, ?_⟩
  rw [tree?_insertSource, if_neg hm, hW.base]

theorem isSome_tree?_insertSource {W : Store} {m : Source.Module} {id : ModuleId} :
    ((W.insertSource m).tree? id).isSome ↔ idOf m.uri = id ∨ (W.tree? id).isSome := by
  rw [tree?_insertSource]
  split
  · next hid => exact iff_of_true rfl (.inl hid)
  · next hid => exact (or_iff_right hid).symm

/-- A source of a module that the store holds keeps its frame. -/
theorem sameFrame_insertSource {W : Store} {m : Source.Module}
    (hm : (W.tree? (idOf m.uri)).isSome) : SameFrame W (W.insertSource m) := by
  refine ⟨rfl, fun id => ?_⟩
  rw [tree?_insertSource]
  split
  · next hid =>
    rw [← hid]
    exact hm
  · rfl

theorem tree?_remove (W : Store) (id id' : ModuleId) :
    (W.remove id).tree? id' = if id = id' then none else W.tree? id' := by
  rw [remove, tree?, Dict.get?_erase]
  simp only [beq_iff_eq]
  rfl

theorem tree?_remove_self (W : Store) (id : ModuleId) : (W.remove id).tree? id = none := by
  rw [tree?_remove, if_pos rfl]

theorem tree?_of_tree?_remove {W : Store} {id id' : ModuleId} {t : Tree}
    (ht : (W.remove id).tree? id' = some t) : id ≠ id' ∧ W.tree? id' = some t := by
  rw [tree?_remove] at ht
  split at ht
  · exact nomatch ht
  · next hid => exact ⟨hid, ht⟩

theorem IsBare.remove {W : Store} (hW : W.IsBare) {id : ModuleId} : (W.remove id).IsBare :=
  ⟨hW.loader, hW.registered, hW.manifests, hW.answers⟩

theorem IsPlain.remove {W : Store} (hW : W.IsPlain) {id : ModuleId} : (W.remove id).IsPlain where
  bare := hW.bare.remove
  keyed ht := hW.keyed (tree?_of_tree?_remove ht).2
  rooted ht := hW.rooted (tree?_of_tree?_remove ht).2
  base := by
    rw [tree?_remove, hW.base, ite_self]

/-! ## Stores that are filled with sources -/

/-- A store without loader that is filled with sources. -/
def ofSources (config : GraphConfig) (files : Files) (sources : List Source.Module) : Store :=
  sources.foldl insertSource (new config files none)

section Filled

variable {config : GraphConfig} {files : Files} {sources : List Source.Module}

/-- What a new store has and every source keeps holds of a store that is filled with sources. -/
theorem ofSources_induction {P : Store → Prop} (hnew : P (new config files none))
    (hsource : ∀ m ∈ sources, ∀ W, P W → P (W.insertSource m)) :
    P (ofSources config files sources) := by
  rw [ofSources]
  generalize new config files none = W at hnew
  induction sources generalizing W with
  | nil => exact hnew
  | cons m sources ih =>
    obtain ⟨hm, hsources⟩ := List.forall_mem_cons.mp hsource
    exact ih hsources _ (hm W hnew)

theorem isBare_ofSources (hfiles : ∀ dir, ProjectIndex.manifestIn? files dir = none) :
    (ofSources config files sources).IsBare :=
  ofSources_induction ⟨rfl, fun _ => rfl, hfiles, List.forall_mem_nil _⟩
    fun _ _ _ hW => hW.insertSource

theorem isPlain_ofSources (hfiles : ∀ dir, ProjectIndex.manifestIn? files dir = none)
    (hsources : ∀ m ∈ sources, idOf m.uri ≠ BaseModule.id) :
    (ofSources config files sources).IsPlain := by
  refine ofSources_induction ?_ fun m hm W hW => hW.insertSource (hsources m hm)
  refine ⟨⟨rfl, fun _ => rfl, hfiles, List.forall_mem_nil _⟩, ?_, ?_, rfl⟩
  · exact fun h => nomatch h
  · exact fun h => nomatch h

/-- The modules of a store that is filled with sources are those of the sources. -/
theorem isSome_tree?_ofSources {id : ModuleId} :
    ((ofSources config files sources).tree? id).isSome ↔ ∃ m ∈ sources, idOf m.uri = id := by
  have hfold : ∀ W : Store, ((sources.foldl insertSource W).tree? id).isSome ↔
      (∃ m ∈ sources, idOf m.uri = id) ∨ (W.tree? id).isSome := by
    induction sources with
    | nil => simp
    | cons m sources ih =>
      intro W
      rw [List.foldl_cons, ih, isSome_tree?_insertSource, or_left_comm, ← or_assoc]
      simp only [List.mem_cons, or_and_right, exists_or, exists_eq_left]
  have hnone : ((new config files none).tree? id).isSome = false := rfl
  rw [ofSources, hfold, hnone]
  simp

/-- A store that is filled with one source holds the first tree of it. -/
theorem tree?_ofSources_singleton (m : Source.Module) :
    (ofSources config files [m]).tree? (idOf m.uri) = some (m.treeAs (idOf m.uri) 1) := by
  have hfirst : (new config files none).treeOf m = m.treeAs (idOf m.uri) 1 := rfl
  rw [← hfirst]
  exact tree?_insertSource_self _ m

end Filled

/-! ## Places of declarations -/

/-- The places of all nodes of a store and of the base module. -/
def sites (W : Store) : List Site :=
  (BaseModule.tree :: W.trees.values).flatMap fun t => t.indices.map (Session.siteOf t)

theorem mem_values_of_mem_held {W : Store} {t : Tree} (ht : t ∈ W.held) :
    t ∈ BaseModule.tree :: W.trees.values := by
  rcases ht with rfl | ht
  · exact List.mem_cons_self
  · obtain ⟨e, he, -, rfl⟩ := Dict.exists_mem_of_get? ht
    exact List.mem_cons_of_mem _ (List.mem_map_of_mem he)

theorem mem_sites {W : Store} {t : Tree} (ht : t ∈ W.held) {n : Nat} (hn : n ∈ t.indices) :
    Session.siteOf t n ∈ W.sites :=
  List.mem_flatMap.mpr ⟨t, mem_values_of_mem_held ht, List.mem_map_of_mem hn⟩

theorem length_sites (W : Store) :
    W.sites.length = BaseModule.tree.size + W.trees.values.foldl (fun n t => n + t.size) 0 := by
  have hfold : ∀ (ts : List Tree) (n : Nat),
      ts.foldl (fun n t => n + t.size) n = n + (ts.map Tree.size).sum := by
    intro ts
    induction ts with
    | nil => exact fun n => rfl
    | cons t ts ih =>
      intro n
      rw [List.foldl_cons, ih, List.map_cons, List.sum_cons]
      omega
  rw [sites, List.length_flatMap, List.map_cons, List.sum_cons, hfold]
  simp [Tree.indices]

end Store

end PklAnalysis
