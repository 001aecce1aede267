import PklAnalysis.Proofs.Modules.ProperStores
import PklAnalysis.Proofs.Modules.StableIdentities

/-!
# Stores that come about

The stores of a program start without modules.  Descriptions are stored in them, projects are
registered, and modules are looked up, in any order.  What a lookup finds is made of three things:
the project of the importing module, the places to which the configuration and this project lead, and
the first tree there that the store holds or else loads.
-/

namespace PklAnalysis

namespace ModuleUri

theorem classify_of_absolute? {uri : String} {u : AbsoluteUri} (h : absolute? uri = some u) :
    classify uri = .ok (.absolute u) := by
  unfold absolute? at h
  split at h
  · next hclassify => rw [hclassify, Option.some.inj h]
  · cases h

/-- The path of a file is absolute. -/
theorem isAbsolute_of_absolute? {uri : String} {p : Path} (h : absolute? uri = some (.file p)) :
    p.isAbsolute = true := by
  obtain ⟨scheme, rest, -, hscheme⟩ :=
    (classify_eq_absolute_iff.mp (classify_of_absolute? h)).scheme
  unfold schemeOf at hscheme
  split at hscheme
  case h_2 =>
    dsimp only at hscheme
    split at hscheme
    · next hslash =>
      cases hscheme
      exact hslash
    · cases hscheme
  case h_4 | h_5 => split at hscheme <;> cases hscheme
  all_goals cases hscheme

end ModuleUri

namespace Store

/-- The stores that come about when descriptions are stored, projects are registered and modules are
looked up. -/
inductive Arises : Store → Prop
  | new (config : GraphConfig) (files : Files) (loader : Option Loader) :
      Arises (new config files loader)
  | insertSource {W : Store} (h : Arises W) (m : Source.Module) : Arises (W.insertSource m)
  | registerProject {W : Store} (h : Arises W) (p : Project) : Arises (W.registerProject p)
  | resolve {W : Store} (h : Arises W) (uri : String) (importer : ModuleId) :
      Arises (Store.resolve uri importer W).2

variable {W : Store}

theorem Arises.isFiled (h : W.Arises) : W.IsFiled := by
  induction h with
  | new config files loader => exact (IsProper.new config files loader).toIsFiled
  | insertSource _ m ih => exact ih.insertSource m
  | registerProject _ p ih => exact ih.of_described fun _ _ ht => .inl ht
  | resolve _ uri importer ih => exact ih.resolve uri importer

/-! ## What a lookup is made of -/

/-- The directory from which the project of a module is looked for. -/
def projectDir? (W : Store) (importer : ModuleId) : Option Path :=
  match ModuleUri.absolute? importer.text with
  | some (.file path) => path.parent?
  | some (.package p) => W.origins.get? p.baseUri
  | _ => none

theorem projectOf_eq (importer : ModuleId) (W : Store) :
    projectOf importer W = projectIn W (W.projectDir? importer) W := by
  rw [projectOf, bind_apply]
  rfl

/-- The tree for places, from the store or else from its loader. -/
def fetch (W : Store) (places : List Place) : Except ResolveError (Option Tree) :=
  match W.stored? places with
  | some t => .ok (some t)
  | none => (W.loader.map (loadFirst · places)).getD (.ok none)

/-- The tree for what a lookup has located. -/
def answer (W : Store) (uri : String) (importer : ModuleId) :
    Except ResolveError Target → Except ResolveError Tree
  | .error e => .error e
  | .ok target =>
    match W.fetch target.places with
    | .error e => .error e
    | .ok none => .error (.notFound uri importer)
    | .ok (some t) => .ok t

theorem fetch_of_trees {V : Store} (htrees : V.trees = W.trees) (hloader : V.loader = W.loader)
    (places : List Place) : V.fetch places = W.fetch places := by
  have hstored : V.stored? places = W.stored? places := by
    simp only [stored?, tree?, htrees]
  rw [fetch, fetch, hstored, hloader]

/-- What a lookup finds is the tree for what it has located. -/
theorem resolve_fst (uri : String) (importer : ModuleId) (W : Store) :
    (resolve uri importer W).1 = W.answer uri importer (locate uri importer W).1 := by
  have htrees := trees_locate uri importer W
  have hloader := loader_locate uri importer W
  rw [resolve_apply]
  generalize locate uri importer W = located at htrees hloader ⊢
  obtain ⟨target | target, located⟩ := located
  · rfl
  · have hfetch := fetch_of_trees ((trees_recordOrigin target located).trans htrees)
      ((loader_recordOrigin target located).trans hloader) target.places
    rw [answer, ← hfetch]
    simp only
    generalize recordOrigin target located = V
    rw [fetch]
    cases V.stored? target.places with
    | some t => rfl
    | none =>
      simp only
      cases (V.loader.map (loadFirst · target.places)).getD (.ok none) with
      | error e => rfl
      | ok found => cases found <;> rfl

/-- The trees after a lookup: one that is loaded is kept. -/
def treesAfter (W : Store) : Except ResolveError Target → Dict ModuleId Tree
  | .error _ => W.trees
  | .ok target =>
    match W.stored? target.places with
    | some _ => W.trees
    | none =>
      match (W.loader.map (loadFirst · target.places)).getD (.ok none) with
      | .ok (some t) => W.trees.insert t.id t
      | .ok none | .error _ => W.trees

/-- The package of a module. -/
def packageOf? (id : ModuleId) : Option String :=
  match ModuleUri.absolute? id.text with
  | some (.package p) => some p.baseUri
  | _ => none

/-- The projects of packages after those of a target have been assigned to its project. -/
def assigned (target : Target) (origins : Dict String Path) : Dict String Path :=
  match target.origin with
  | none => origins
  | some origin =>
    target.places.foldl (fun origins place =>
      match ModuleUri.absolute? place.id.text with
      | some (.package p) => origins.insertNew p.baseUri origin
      | _ => origins) origins

theorem recordOrigin_eq (target : Target) (W : Store) :
    recordOrigin target W = { W with origins := assigned target W.origins } := by
  rw [recordOrigin, assigned]
  cases target.origin with
  | none => rfl
  | some origin =>
    dsimp only
    generalize target.places = places
    induction places generalizing W with
    | nil => rfl
    | cons place places ih =>
      rw [List.foldl_cons, List.foldl_cons, ih]
      cases ModuleUri.absolute? place.id.text with
      | none => rfl
      | some u => cases u <;> rfl

/-- The projects of packages after a lookup. -/
def originsAfter (located : Except ResolveError Target) (origins : Dict String Path) :
    Dict String Path :=
  match located with
  | .ok target => assigned target origins
  | .error _ => origins

/-- A lookup changes the answers about projects, the projects of packages, and the trees. -/
theorem resolve_snd (uri : String) (importer : ModuleId) (W : Store) :
    (resolve uri importer W).2 = { (locate uri importer W).2 with
      origins := originsAfter (locate uri importer W).1 (locate uri importer W).2.origins
      trees := W.treesAfter (locate uri importer W).1 } := by
  have htrees := trees_locate uri importer W
  have hloader := loader_locate uri importer W
  rw [resolve_apply]
  generalize locate uri importer W = located at htrees hloader ⊢
  obtain ⟨target | target, located⟩ := located
  · simp only [originsAfter, treesAfter, ← htrees]
  · have hstored : (recordOrigin target located).stored? target.places
        = W.stored? target.places := by
      simp only [stored?, tree?, (trees_recordOrigin target located).trans htrees]
    simp only [originsAfter, treesAfter, hstored]
    rw [recordOrigin_eq, ← htrees, ← hloader]
    cases W.stored? target.places with
    | some t => rfl
    | none =>
      cases (located.loader.map (loadFirst · target.places)).getD (.ok none) with
      | error e => rfl
      | ok found => cases found <;> rfl

/-! ## What a lookup finds -/

theorem answer_eq_ok_iff {uri : String} {importer : ModuleId} {located : Except ResolveError Target}
    {t : Tree} : W.answer uri importer located = .ok t ↔
      ∃ target, located = .ok target ∧ W.fetch target.places = .ok (some t) := by
  cases located with
  | error e => simp [answer]
  | ok target =>
    rw [answer]
    split <;> simp_all

/-- What is fetched has the identity of one of the places. -/
theorem exists_place_of_fetch (hW : W.IsKeyed) {places : List Place} {t : Tree}
    (h : W.fetch places = .ok (some t)) : ∃ place ∈ places, t.id = place.id := by
  rw [fetch] at h
  split at h
  · next hstored =>
    obtain ⟨place, hmem, hplace⟩ := List.exists_of_findSome?_eq_some hstored
    obtain rfl := Option.some.inj (Except.ok.inj h)
    exact ⟨place, hmem, hW place.id _ hplace⟩
  · cases hloader : W.loader with
    | none =>
      rw [hloader] at h
      cases h
    | some loader =>
      rw [hloader] at h
      obtain ⟨place, hmem, -, m, rfl⟩ := exists_place_of_loadFirst h
      exact ⟨place, hmem, rfl⟩

theorem fetch_of_tree? {place : Place} {t : Tree} (ht : W.tree? place.id = some t)
    (places : List Place) : W.fetch (place :: places) = .ok (some t) := by
  rw [fetch, stored?, List.findSome?_cons, ht]

end Store

end PklAnalysis
