import PklAnalysis.Proofs.Modules.Spellings

/-!
# The order of the search

A lookup goes through its places twice: it takes the first tree that the store holds for any of them,
and asks the loader only if there is none.  A search in the order of the places goes through them once,
and takes at each what the store holds or else what the loader gets there; what it finds does not depend
on what has been loaded before.  The lookup agrees with it exactly if the loader gets nothing at the
places before the first one for which the store holds a tree.
-/

namespace PklAnalysis

theorem findSome?_congr {α β : Type} {f g : α → Option β} {l : List α}
    (h : ∀ x ∈ l, f x = g x) : l.findSome? f = l.findSome? g := by
  induction l with
  | nil => rfl
  | cons x xs ih =>
    obtain ⟨hx, hxs⟩ := List.forall_mem_cons.mp h
    rw [List.findSome?_cons, List.findSome?_cons, hx, ih hxs]

/-- Of two partial functions the first one is tried on a whole list before the second one.  That is as
good as trying both on each element, exactly if the second one gives nothing in front of the first
element at which the first one gives something. -/
theorem findSome?_or_findSome?_iff {α β : Type} {f g : α → Option β} {l : List α}
    (hne : ∀ x ∈ l, f x = none → ∀ y ∈ l, (f y).isSome → g x ≠ f y) :
    (l.findSome? f).or (l.findSome? g) = l.findSome? (fun x => (f x).or (g x)) ↔
      ((l.findSome? f).isSome → ∀ x ∈ l.takeWhile fun x => (f x).isNone, g x = none) := by
  induction l with
  | nil => simp
  | cons x xs ih =>
    have ih := ih fun y hy hfy z hz =>
      hne y (List.mem_cons_of_mem x hy) hfy z (List.mem_cons_of_mem x hz)
    cases hf : f x with
    | some b => simp [hf]
    | none =>
      cases hg : g x with
      | none => simpa [hf, hg] using ih
      | some c =>
        cases hfound : xs.findSome? f with
        | none => simp [hf, hg, hfound]
        | some b =>
          obtain ⟨y, hy, hfy⟩ := List.exists_of_findSome?_eq_some hfound
          have hbc : b ≠ c := by
            rintro rfl
            exact hne x List.mem_cons_self hf y (List.mem_cons_of_mem x hy)
              (Option.isSome_of_mem hfy) (hg.trans hfy.symm)
          simp [hf, hg, hfound, hbc]

namespace Store

variable {W V : Store} {uri : String} {importer : ModuleId} {places : List Place} {place : Place}
  {t : Tree}

/-! ## A search in the order of the places -/

/-- What the loader gets at a place: the tree of a description, or an error. -/
def loaded? (W : Store) (place : Place) : Option (Except ResolveError Tree) := do
  let loader ← W.loader
  match loader.load (← place.path) with
  | .error e => some (.error e)
  | .ok m => m.map fun m => .ok (m.treeAs place.id 1)

/-- What the store holds for a place. -/
def kept? (W : Store) (place : Place) : Option (Except ResolveError Tree) :=
  (W.tree? place.id).map .ok

/-- What is at a place: the tree that the store holds, or else what the loader gets there. -/
def found? (W : Store) (place : Place) : Option (Except ResolveError Tree) :=
  (W.kept? place).or (W.loaded? place)

/-- The tree of the module that a URI names in another module, from the first of the places of the
module at which there is anything. -/
def search (W : Store) (uri : String) (importer : ModuleId) : Except ResolveError Tree :=
  match (locate uri importer W).1 with
  | .error e => .error e
  | .ok target => (target.places.findSome? W.found?).getD (.error (.notFound uri importer))

/-- The places at which a module is looked for that a URI names in another module. -/
def placesFor (W : Store) (uri : String) (importer : ModuleId) : List Place :=
  match (locate uri importer W).1 with
  | .error _ => []
  | .ok target => target.places

/-- The places before the first one for which the store holds a tree. -/
def placesBefore (W : Store) (places : List Place) : List Place :=
  places.takeWhile fun place => (W.tree? place.id).isNone

/-- What is loaded has the identity of its place. -/
theorem id_of_loaded? (h : W.loaded? place = some (.ok t)) : t.id = place.id := by
  simp only [loaded?, bind, Option.bind_eq_some_iff] at h
  obtain ⟨loader, -, path, -, h⟩ := h
  split at h
  · cases h
  · obtain ⟨m, -, hm⟩ := Option.map_eq_some_iff.mp h
    rw [← Except.ok.inj hm, Tree.id_treeAs]

theorem loadFirst_eq {loader : Loader} (h : W.loader = some loader) (places : List Place) :
    loadFirst loader places = match places.findSome? W.loaded? with
      | none => .ok none
      | some (.error e) => .error e
      | some (.ok t) => .ok (some t) := by
  induction places with
  | nil => rfl
  | cons place places ih =>
    rw [loadFirst, List.findSome?_cons, loaded?, h]
    cases place.path with
    | none => exact ih
    | some path =>
      simp only [Option.bind_eq_bind, Option.bind_some]
      cases loader.load path with
      | error e => rfl
      | ok found =>
        cases found with
        | none => exact ih
        | some m => rfl

theorem findSome?_kept? (W : Store) (places : List Place) :
    places.findSome? W.kept? = (W.stored? places).map .ok := by
  rw [stored?, List.map_findSome?]
  rfl

/-- A lookup tries all its places in the store before it asks the loader for any. -/
theorem resolve_fst_eq (uri : String) (importer : ModuleId) (W : Store) :
    (resolve uri importer W).1 = match (locate uri importer W).1 with
      | .error e => .error e
      | .ok target => ((target.places.findSome? W.kept?).or
          (target.places.findSome? W.loaded?)).getD (.error (.notFound uri importer)) := by
  rw [resolve_fst]
  cases (locate uri importer W).1 with
  | error e => rfl
  | ok target =>
    dsimp only
    rw [answer, fetch, findSome?_kept?]
    cases W.stored? target.places with
    | some t => rfl
    | none =>
      simp only [Option.map_none, Option.none_or]
      cases hloader : W.loader with
      | none =>
        have hnone : target.places.findSome? W.loaded? = none :=
          List.findSome?_eq_none_iff.mpr fun place _ => by rw [loaded?, hloader]; rfl
        rw [hnone]
        rfl
      | some loader =>
        simp only [Option.map_some, Option.getD_some, loadFirst_eq hloader]
        cases target.places.findSome? W.loaded? with
        | none => rfl
        | some found => cases found <;> rfl

/-! ## What the places of a lookup are -/

/-- Each identity belongs to one place only. -/
def Identifies (places : List Place) : Prop :=
  ∀ place ∈ places, ∀ place' ∈ places, place.id = place'.id → place = place'

theorem identifies_single (id : ModuleId) (path : Option Path) :
    Identifies (Target.single id path).places := by
  intro place hplace place' hplace' _
  rw [List.mem_singleton.mp hplace, List.mem_singleton.mp hplace']

theorem identifies_placesOf (config : GraphConfig) (project : Option Project) (u : AbsoluteUri) :
    Identifies (placesOf config project u).places := by
  cases u with
  | stdlib name => exact identifies_single _ _
  | file path => exact identifies_single _ _
  | network url => exact identifies_single _ _
  | package p =>
    intro place hplace place' hplace' _
    rw [List.mem_singleton.mp hplace, List.mem_singleton.mp hplace']
  | modulePath path =>
    have hne (file : Path) : AbsoluteUri.fileId file ≠ (AbsoluteUri.modulePath path).id := by
      intro h
      have htext := congrArg (·.text.toList) h
      simp [AbsoluteUri.fileId, AbsoluteUri.id] at htext
    have heq {file file' : Path} (h : AbsoluteUri.fileId file = AbsoluteUri.fileId file') :
        file = file' := congrArg Path.mk (AbsoluteUri.fileId_inj.mp h)
    intro place hplace place' hplace' hid
    obtain hplace | hplace := List.mem_append.mp hplace <;>
      obtain hplace' | hplace' := List.mem_append.mp hplace'
    · obtain ⟨root, -, rfl⟩ := List.mem_map.mp hplace
      obtain ⟨root', -, rfl⟩ := List.mem_map.mp hplace'
      have hfile : root.join (relativeText path) = root'.join (relativeText path) := heq hid
      simp only [hfile]
    · obtain ⟨root, -, rfl⟩ := List.mem_map.mp hplace
      rw [List.mem_singleton.mp hplace'] at hid
      exact absurd hid (hne _)
    · obtain ⟨root, -, rfl⟩ := List.mem_map.mp hplace'
      rw [List.mem_singleton.mp hplace] at hid
      exact absurd hid.symm (hne _)
    · rw [List.mem_singleton.mp hplace, List.mem_singleton.mp hplace']

theorem identifies_placesFor (uri : String) (importer : ModuleId) (W : Store) :
    Identifies (W.placesFor uri importer) := by
  rw [placesFor, locate_fst]
  generalize (projectOf importer W).1 = project
  cases hlocated : locateIn W.config project uri importer with
  | error e => exact fun _ h => absurd h List.not_mem_nil
  | ok target =>
    obtain ⟨u, rfl⟩ := exists_placesOf_of_locateIn hlocated
    exact identifies_placesOf _ _ u

/-! ## What has been loaded before -/

/-- The stores in which some of what the loader gets has been loaded before: at places, or under other
identities than theirs. -/
inductive Preloads (W : Store) (places : List Place) : Store → Prop
  | refl : Preloads W places W
  | load {V : Store} (h : Preloads W places V) {place : Place} {t : Tree}
      (hplace : place ∈ places ∨ ∀ other ∈ places, other.id ≠ place.id)
      (habsent : V.tree? place.id = none) (hload : W.loaded? place = some (.ok t)) :
      Preloads W places (V.insert t)

namespace Preloads

variable (h : W.Preloads places V)
include h

theorem eq_withTrees : V = { W with trees := V.trees } := by
  induction h with
  | refl => rfl
  | load _ _ _ _ ih => rw [insert, ih]

theorem loaded?_eq (place : Place) : V.loaded? place = W.loaded? place := by
  rw [h.eq_withTrees]
  rfl

theorem locate_fst (uri : String) (importer : ModuleId) :
    (locate uri importer V).1 = (locate uri importer W).1 := by
  have hproject : (projectOf importer V).1 = (projectOf importer W).1 := by
    have hdir : ({ W with trees := V.trees } : Store).projectDir? importer = W.projectDir? importer :=
      rfl
    rw [h.eq_withTrees, projectOf_eq, projectOf_eq, hdir]
    cases W.projectDir? importer <;> rfl
  have hconfig : V.config = W.config := by rw [h.eq_withTrees]
  rw [Store.locate_fst, Store.locate_fst, hproject, hconfig]

/-- The tree for a place is the one that the store held already, or it is the one that the loader
gets there. -/
theorem tree?_cases (hplaces : Identifies places) (hplace : place ∈ places) :
    V.tree? place.id = W.tree? place.id ∨ W.tree? place.id = none ∧
      ∃ t, W.loaded? place = some (.ok t) ∧ V.tree? place.id = some t := by
  induction h with
  | refl => exact .inl rfl
  | @load V _ loaded t hloaded habsent hload ih =>
    rw [tree?_insert, id_of_loaded? hload]
    split
    · next hid =>
      rcases hloaded with hmem | hother
      · obtain rfl := hplaces loaded hmem place hplace hid
        have hW : W.tree? loaded.id = none := by
          rcases ih with ih | ih
          · exact ih ▸ habsent
          · exact ih.1
        exact .inr ⟨hW, t, hload, rfl⟩
      · exact absurd hid.symm (hother place hplace)
    · exact ih

theorem found?_eq (hplaces : Identifies places) (hplace : place ∈ places) :
    V.found? place = W.found? place := by
  rw [found?, found?, h.loaded?_eq]
  rcases h.tree?_cases hplaces hplace with heq | ⟨hnone, t, hload, hsome⟩
  · rw [kept?, kept?, heq]
  · rw [kept?, kept?, hsome, hnone, hload]
    rfl

end Preloads

/-- A search in the order of the places finds the same, whatever has been loaded before. -/
theorem Preloads.search_eq (h : W.Preloads (W.placesFor uri importer) V) :
    V.search uri importer = W.search uri importer := by
  have hplaces := identifies_placesFor uri importer W
  rw [search, search, h.locate_fst]
  rw [placesFor] at h hplaces
  cases hlocated : (locate uri importer W).1 with
  | error e => rfl
  | ok target =>
    rw [hlocated] at h hplaces
    have hfound : ∀ place ∈ target.places, V.found? place = W.found? place :=
      fun place hplace => h.found?_eq hplaces hplace
    dsimp only
    rw [findSome?_congr hfound]

/-! ## The lookup and the search -/

theorem getD_inj_of_none_iff {α : Type} {a b : Option α} (h : a = none ↔ b = none) (c : α) :
    a.getD c = b.getD c ↔ a = b := by
  cases a with
  | none =>
    obtain rfl := h.mp rfl
    exact iff_of_true rfl rfl
  | some x =>
    cases b with
    | none => cases h.mpr rfl
    | some y => simp

/-- The lookup agrees with the search exactly if there is nothing to load in front of what the store
holds. -/
theorem resolve_eq_search_iff (hW : W.IsKeyed) (uri : String) (importer : ModuleId) :
    (resolve uri importer W).1 = W.search uri importer ↔
      ((W.stored? (W.placesFor uri importer)).isSome →
        ∀ place ∈ W.placesBefore (W.placesFor uri importer), W.loaded? place = none) := by
  rw [resolve_fst_eq, search, placesFor]
  cases (locate uri importer W).1 with
  | error e => simp [placesBefore]
  | ok target =>
    dsimp only
    generalize target.places = places
    -- what is loaded for a place has another identity than what is stored for a different one
    have hne : ∀ x ∈ places, W.kept? x = none → ∀ y ∈ places, (W.kept? y).isSome →
        W.loaded? x ≠ W.kept? y := by
      intro x _ hx y _ hy heq
      obtain ⟨found, hfound⟩ := Option.isSome_iff_exists.mp hy
      obtain ⟨u, hu, rfl⟩ := Option.map_eq_some_iff.mp hfound
      have hid : x.id = y.id := (id_of_loaded? (heq.trans hfound)).symm.trans (hW y.id u hu)
      rw [kept?, hid, hu] at hx
      cases hx
    have hiff := findSome?_or_findSome?_iff hne
    have hbefore : (places.takeWhile fun place => (W.kept? place).isNone) = W.placesBefore places := by
      simp only [kept?, Option.isNone_map, placesBefore]
    rw [hbefore, findSome?_kept?, Option.isSome_map, ← findSome?_kept?] at hiff
    refine Iff.trans (getD_inj_of_none_iff ?_ _) hiff
    simp only [Option.or_eq_none_iff, List.findSome?_eq_none_iff, found?]
    exact ⟨fun h place hplace => ⟨h.1 place hplace, h.2 place hplace⟩,
      fun h => ⟨fun place hplace => (h place hplace).1, fun place hplace => (h place hplace).2⟩⟩

theorem resolve_of_stored? (h : W.stored? (W.placesFor uri importer) = some t) :
    (resolve uri importer W).1 = .ok t := by
  rw [resolve_fst_eq]
  rw [placesFor] at h
  cases hlocated : (locate uri importer W).1 with
  | error e => rw [hlocated] at h; cases h
  | ok target =>
    rw [hlocated] at h
    dsimp only at h ⊢
    rw [findSome?_kept?, h]
    rfl

/-- Two stores that have the same places in view and hold nothing for them find the same there. -/
theorem Preloads.resolve_eq (h : W.Preloads (W.placesFor uri importer) V)
    (hW : W.stored? (W.placesFor uri importer) = none)
    (hV : V.stored? (W.placesFor uri importer) = none) :
    (resolve uri importer V).1 = (resolve uri importer W).1 := by
  have hloaded : V.loaded? = W.loaded? := funext h.loaded?_eq
  rw [resolve_fst_eq, resolve_fst_eq, h.locate_fst]
  rw [placesFor] at hW hV
  cases hlocated : (locate uri importer W).1 with
  | error e => rfl
  | ok target =>
    rw [hlocated] at hW hV
    dsimp only at hW hV ⊢
    rw [findSome?_kept?, findSome?_kept?, hW, hV, hloaded]

theorem Preloads.placesFor_eq (h : W.Preloads places V) (uri : String) (importer : ModuleId) :
    V.placesFor uri importer = W.placesFor uri importer := by
  rw [placesFor, placesFor, h.locate_fst]

theorem tree?_of_mem_placesBefore (h : place ∈ W.placesBefore places) : W.tree? place.id = none :=
  Option.isNone_iff_eq_none.mp
    (List.mem_takeWhile_imp (p := fun (place : Place) => (W.tree? place.id).isNone) h)

theorem mem_of_mem_placesBefore (h : place ∈ W.placesBefore places) : place ∈ places :=
  (List.takeWhile_sublist _).subset h

/-- What is loaded for a place in front of what the store holds is found from then on. -/
theorem stored?_insert (hplace : place ∈ W.placesBefore places)
    (hload : W.loaded? place = some (.ok t)) : (W.insert t).stored? places = some t := by
  have hid := id_of_loaded? hload
  have hbefore : (W.placesBefore places).findSome? (fun other => (W.insert t).tree? other.id)
      = some t := by
    cases hfound : (W.placesBefore places).findSome? (fun other => (W.insert t).tree? other.id) with
    | none =>
      have hnone := List.findSome?_eq_none_iff.mp hfound place hplace
      rw [tree?_insert, if_pos hid] at hnone
      cases hnone
    | some u =>
      obtain ⟨other, hother, hu⟩ := List.exists_of_findSome?_eq_some hfound
      rw [tree?_insert, tree?_of_mem_placesBefore hother, Option.ite_none_right_eq_some] at hu
      exact hu.2.symm
  have hsplit : places = W.placesBefore places ++
      places.dropWhile fun place => (W.tree? place.id).isNone := List.takeWhile_append_dropWhile.symm
  rw [stored?, hsplit, List.findSome?_append, hbefore, Option.some_or]

/-- What the store held first is found first, if nothing is loaded for the places in front of it. -/
theorem Preloads.stored?_eq (h : W.Preloads places V) (hplaces : Identifies places)
    (hstored : W.stored? places = some t)
    (hnothing : ∀ place ∈ W.placesBefore places, ∀ u, W.loaded? place ≠ some (.ok u)) :
    V.stored? places = some t := by
  obtain ⟨before, first, after, rfl, ht, hnone⟩ := List.findSome?_eq_some_iff.mp hstored
  refine List.findSome?_eq_some_iff.mpr ⟨before, first, after, rfl, ?_, fun place hplace => ?_⟩
  · have hmem : first ∈ before ++ first :: after := by simp
    rcases h.tree?_cases hplaces hmem with heq | ⟨habsent, -⟩
    · rw [heq, ht]
    · cases ht.symm.trans habsent
  · have hbefore : place ∈ W.placesBefore (before ++ first :: after) := by
      rw [placesBefore, List.takeWhile_append_of_pos
        fun x hx => Option.isNone_iff_eq_none.mpr (hnone x hx)]
      exact List.mem_append_left _ hplace
    have hmem : place ∈ before ++ first :: after := List.mem_append_left _ hplace
    rcases h.tree?_cases hplaces hmem with heq | ⟨-, u, hload, -⟩
    · rw [heq, hnone place hplace]
    · exact absurd hload (hnothing place hbefore u)

/-- Where the store held nothing, what is found first has been loaded. -/
theorem Preloads.exists_loaded? (h : W.Preloads places V) (hplaces : Identifies places)
    (hnone : W.stored? places = none) (hstored : V.stored? places = some t) :
    ∃ place ∈ W.placesBefore places, W.loaded? place = some (.ok t) := by
  obtain ⟨place, hplace, ht⟩ := List.exists_of_findSome?_eq_some hstored
  have habsent := List.findSome?_eq_none_iff.mp hnone
  have hbefore : place ∈ W.placesBefore places := by
    rw [placesBefore, List.takeWhile_eq_self_iff.mpr
      fun x hx => Option.isNone_iff_eq_none.mpr (habsent x hx)]
    exact hplace
  rcases h.tree?_cases hplaces hplace with heq | ⟨-, u, hload, hu⟩
  · cases (habsent place hplace).symm.trans (heq.symm.trans ht)
  · obtain rfl := Option.some.inj (hu.symm.trans ht)
    exact ⟨place, hbefore, hload⟩

/-- What has been loaded before makes no difference to the module that is found, exactly if this is
the module of each place that the loader gets in front of what the store holds. -/
theorem forall_preloads_resolve_iff (hW : W.IsKeyed) (uri : String) (importer : ModuleId) :
    (∀ V, W.Preloads (W.placesFor uri importer) V →
      (resolve uri importer V).1.map (·.id) = (resolve uri importer W).1.map (·.id)) ↔
    ∀ place ∈ W.placesBefore (W.placesFor uri importer), ∀ t, W.loaded? place = some (.ok t) →
      (resolve uri importer W).1.map (·.id) = .ok place.id := by
  have hplaces := identifies_placesFor uri importer W
  constructor
  · intro hall place hplace t hload
    have hV : W.Preloads (W.placesFor uri importer) (W.insert t) :=
      .load .refl (.inl (mem_of_mem_placesBefore hplace)) (tree?_of_mem_placesBefore hplace) hload
    have hstored := stored?_insert hplace hload
    rw [← hV.placesFor_eq] at hstored
    rw [← hall _ hV, resolve_of_stored? hstored, ← id_of_loaded? hload]
    rfl
  · intro hfirst V hV
    cases hstored : W.stored? (W.placesFor uri importer) with
    | some u =>
      have hfound := resolve_of_stored? hstored
      have hnothing : ∀ place ∈ W.placesBefore (W.placesFor uri importer), ∀ t,
          W.loaded? place ≠ some (.ok t) := by
        intro place hplace t hload
        obtain ⟨held, -, hu⟩ := List.exists_of_findSome?_eq_some hstored
        have hid := hfirst place hplace t hload
        rw [hfound] at hid
        have hid : u.id = place.id := Except.ok.inj hid
        have habsent := tree?_of_mem_placesBefore hplace
        rw [← hid, hW held.id u hu, hu] at habsent
        cases habsent
      have hstored' := hV.stored?_eq hplaces hstored hnothing
      rw [← hV.placesFor_eq] at hstored'
      rw [resolve_of_stored? hstored', hfound]
    | none =>
      cases hstored' : V.stored? (W.placesFor uri importer) with
      | none => rw [hV.resolve_eq hstored hstored']
      | some u =>
        obtain ⟨place, hplace, hload⟩ := hV.exists_loaded? hplaces hstored hstored'
        rw [← hV.placesFor_eq] at hstored'
        rw [hfirst place hplace u hload, resolve_of_stored? hstored', ← id_of_loaded? hload]
        rfl

/-- A lookup finds what is at the first of its places at which there is anything, exactly if there is
nothing to load in front of what the store holds.  It finds the same module whatever has been loaded
before, exactly if it finds the module of each place that can be loaded there. -/
theorem resolve_in_order_iff (hW : W.IsKeyed) (uri : String) (importer : ModuleId) :
    ((resolve uri importer W).1 = W.search uri importer ↔
      ((W.stored? (W.placesFor uri importer)).isSome →
        ∀ place ∈ W.placesBefore (W.placesFor uri importer), W.loaded? place = none)) ∧
    ((∀ V, W.Preloads (W.placesFor uri importer) V →
        (resolve uri importer V).1.map (·.id) = (resolve uri importer W).1.map (·.id)) ↔
      ∀ place ∈ W.placesBefore (W.placesFor uri importer), ∀ t, W.loaded? place = some (.ok t) →
        (resolve uri importer W).1.map (·.id) = .ok place.id) :=
  ⟨resolve_eq_search_iff hW uri importer, forall_preloads_resolve_iff hW uri importer⟩

/-! ## Two source roots -/

/-- A store with two source roots, and nothing but what a loader gets at some paths. -/
def shelves (paths : List String) : Store :=
  Store.new ⟨[⟨"/w/a"⟩, ⟨"/w/b"⟩], none, []⟩ .none (some {
    load path := .ok (if path.text ∈ paths then some (bareModule path.text) else none)
    capacity := 1 })

/-- A module below the first source root. -/
def reader : ModuleId := ⟨"file:///w/a/m.pkl"⟩

/-- A store that can load a module only for the second source root. -/
def lowerShelf : Store := shelves ["/w/b/x.pkl"]

/-- A store that can load a module for both source roots. -/
def bothShelves : Store := shelves ["/w/a/x.pkl", "/w/b/x.pkl"]

/-- A module that only the second source root has is found there, whether it has been loaded before or
not. -/
theorem resolve_in_order_lowerShelf :
    (resolve "x.pkl" reader lowerShelf).1 = lowerShelf.search "x.pkl" reader ∧
      ∀ V, lowerShelf.Preloads (lowerShelf.placesFor "x.pkl" reader) V →
        (resolve "x.pkl" reader V).1.map (·.id) = .ok ⟨"file:///w/b/x.pkl"⟩ := by
  have hW : lowerShelf.IsKeyed := (Arises.new _ _ _).isFiled.keyed
  have hfound : (resolve "x.pkl" reader lowerShelf).1.map (·.id) = .ok ⟨"file:///w/b/x.pkl"⟩ := by
    decide
  have hloaded : ∀ place ∈ lowerShelf.placesFor "x.pkl" reader,
      (lowerShelf.loaded? place).isSome → place.id = ⟨"file:///w/b/x.pkl"⟩ := by
    decide
  obtain ⟨hsearch, hpreloads⟩ := resolve_in_order_iff hW "x.pkl" reader
  refine ⟨hsearch.mpr fun h => absurd h (by decide), fun V hV => ?_⟩
  rw [hpreloads.mpr ?_ V hV, hfound]
  intro place hplace t hload
  rw [hfound, hloaded place (mem_of_mem_placesBefore hplace) (Option.isSome_of_mem hload)]

/-- If both source roots have a module, that of the first one is found.  Once the other one has been
loaded it is found instead, though a search in order goes on finding that of the first root. -/
theorem lower_found_once_loaded :
    (resolve "x.pkl" reader bothShelves).1.map (·.id) = .ok ⟨"file:///w/a/x.pkl"⟩ ∧
      ∃ V, bothShelves.Preloads (bothShelves.placesFor "x.pkl" reader) V ∧
        (resolve "x.pkl" reader V).1.map (·.id) = .ok ⟨"file:///w/b/x.pkl"⟩ ∧
        (V.search "x.pkl" reader).map (·.id) = .ok ⟨"file:///w/a/x.pkl"⟩ := by
  have hplace : (⟨⟨"file:///w/b/x.pkl"⟩, some ⟨"/w/b/x.pkl"⟩⟩ : Place)
      ∈ bothShelves.placesFor "x.pkl" reader := List.mem_of_getElem? (i := 1) rfl
  refine ⟨by decide, _, .load .refl (.inl hplace) rfl rfl, ?_, ?_⟩
  · decide
  · decide

end Store

end PklAnalysis
