import PklAnalysis.Modules.Store

/-!
# Stores without loader and projects

A store that nothing is loaded into and no project has a say in is a fixed function from references
to trees: `Store.find`.  Looking a reference up changes only which directories are remembered to
belong to no project.  `Reads` says that of an action on a store, and holds of all that is made up
of look-ups.
-/

namespace PklAnalysis

namespace Dict

variable {α β : Type} [BEq α]

theorem mem_put {a : α} {b : β} {es : List (α × β)} {e : α × β} (h : e ∈ put a b es) :
    e ∈ es ∨ e.2 = b := by
  induction es with
  | nil => exact .inr (by simpa [put] using congrArg Prod.snd (List.mem_singleton.mp h))
  | cons c cs ih =>
    rw [put] at h
    split at h
    · rcases List.mem_cons.mp h with rfl | h
      · exact .inr rfl
      · exact .inl (List.mem_cons_of_mem c h)
    · rcases List.mem_cons.mp h with rfl | h
      · exact .inl List.mem_cons_self
      · exact (ih h).imp_left (List.mem_cons_of_mem c)

theorem exists_mem_of_get? {d : Dict α β} {a : α} {b : β} (h : d.get? a = some b) :
    ∃ e ∈ d.entries, e.1 == a ∧ e.2 = b := by
  obtain ⟨e, he, rfl⟩ := Option.map_eq_some_iff.mp h
  exact ⟨e, List.mem_of_find?_eq_some he, by simpa using List.find?_some he, rfl⟩

theorem contains_eq (d : Dict α β) (a : α) : d.contains a = (d.get? a).isSome := by
  rw [contains, get?, entry?, Option.isSome_map, List.isSome_find?]

/-- The keys of entries stay where they are, and a new one comes last. -/
theorem keys_put [LawfulBEq α] (a : α) (b : β) (es : List (α × β)) :
    (put a b es).map (·.1) = if a ∈ es.map (·.1) then es.map (·.1) else es.map (·.1) ++ [a] := by
  induction es with
  | nil => rfl
  | cons e es ih =>
    rw [put, List.map_cons]
    by_cases he : e.1 = a
    · rw [if_pos (beq_iff_eq.mpr he), if_pos (List.mem_cons.mpr (.inl he.symm)), List.map_cons]
    · rw [if_neg (fun h => he (beq_iff_eq.mp h)), List.map_cons, ih]
      by_cases ha : a ∈ es.map (·.1)
      · rw [if_pos ha, if_pos (List.mem_cons_of_mem _ ha)]
      · rw [if_neg ha, if_neg (fun h => (List.mem_cons.mp h).elim (fun h => he h.symm) ha),
          List.cons_append]

theorem nodup_keys_insert [LawfulBEq α] {d : Dict α β} (h : d.keys.Nodup) (a : α) (b : β) :
    (d.insert a b).keys.Nodup := by
  have hkeys : (d.insert a b).keys = _ := keys_put a b d.entries
  rw [hkeys]
  split
  · exact h
  · next ha =>
    refine List.nodup_append.mpr ⟨h, List.pairwise_singleton _ a, fun c hc e he => ?_⟩
    rw [List.mem_singleton.mp he]
    exact fun hca => ha (hca ▸ hc)

theorem nodup_keys_insertNew [LawfulBEq α] {d : Dict α β} (h : d.keys.Nodup) (a : α) (b : β) :
    (d.insertNew a b).keys.Nodup := by
  rw [insertNew]
  split
  · exact h
  · exact nodup_keys_insert h a b

/-- If no key has two entries, each entry is that of its key. -/
theorem get?_of_mem [LawfulBEq α] {d : Dict α β} (h : d.keys.Nodup) {e : α × β}
    (he : e ∈ d.entries) : d.get? e.1 = some e.2 := by
  have hentry : d.entries.find? (fun c => c.1 == e.1) = some e := by
    rw [keys] at h
    generalize d.entries = es at h he
    induction es with
    | nil => exact nomatch he
    | cons c cs ih =>
      obtain ⟨hc, hcs⟩ := List.nodup_cons.mp h
      rcases List.mem_cons.mp he with rfl | he
      · exact List.find?_cons_of_pos (beq_self_eq_true _)
      · have hne : (c.1 == e.1) = false := beq_eq_false_iff_ne.mpr fun hce =>
          hc (List.mem_map.mpr ⟨e, he, hce.symm⟩)
        rw [List.find?_cons, hne]
        exact ih hcs he
  rw [get?, entry?, hentry, Option.map_some]

/-- A new value counts only where there is none. -/
theorem get?_insertNew [EquivBEq α] (d : Dict α β) (a c : α) (b : β) :
    (d.insertNew a b).get? c = (d.get? c).or (if a == c then some b else none) := by
  rw [insertNew, contains_eq]
  split
  · next h =>
    obtain ⟨b', hb'⟩ := Option.isSome_iff_exists.mp h
    split
    · next hac => rw [← get?_congr d hac, hb', Option.some_or]
    · rw [Option.or_none]
  · next h =>
    rw [get?_insert]
    split
    · next hac =>
      rw [← get?_congr d hac, Option.not_isSome_iff_eq_none.mp h, Option.none_or]
    · rw [Option.or_none]

/-- Only the key that is erased loses its value. -/
theorem get?_erase [LawfulBEq α] (d : Dict α β) (a c : α) :
    (d.erase a).get? c = if a == c then none else d.get? c := by
  show ((d.entries.filter fun e => !(e.1 == a)).find? fun e => e.1 == c).map (·.2) = _
  rw [get?, entry?]
  induction d.entries with
  | nil => simp
  | cons e es ih =>
    by_cases he : e.1 = a
    · rw [List.filter_cons_of_neg (by simp [he]), ih, he.symm]
      rw [List.find?_cons]
      cases hec : e.1 == c <;> simp
    · rw [List.filter_cons_of_pos (by simp [he]), List.find?_cons, List.find?_cons]
      cases hec : e.1 == c with
      | true =>
        have hac : ¬(a == c) = true := fun h =>
          he ((beq_iff_eq.mp hec).trans (beq_iff_eq.mp h).symm)
        rw [if_neg hac]
      | false => exact ih

end Dict

/-- Steps on a state follow each other. -/
theorem bind_apply {σ α β : Type} (x : StateM σ α) (f : α → StateM σ β) (s : σ) :
    (x >>= f) s = f (x s).1 (x s).2 := rfl

theorem get_apply {σ : Type} (s : σ) : (get : StateM σ σ) s = (s, s) := rfl

/-- Without files no directory has a manifest. -/
theorem ProjectIndex.manifestIn?_none (dir : Path) : manifestIn? .none dir = none := by
  have hread : (Files.none.read (dir.join Manifest.fileName)).toOption = none := by
    rw [Files.read]
    cases Files.none.place (dir.join Manifest.fileName) with
    | error e => rfl
    | ok names => rfl
  rw [manifestIn?, hread]
  rfl

/-- A module that declares nothing. -/
def bareModule (uri : String) : Source.Module where
  uri := uri
  name := none
  isOpen := false
  amends := none
  superModule := none
  imports := []
  classes := []
  aliases := []
  properties := []
  methods := []

namespace Store

/-- A store that has only the modules that were put into it: there is no loader, no project is
registered, and no directory has a manifest. -/
structure IsBare (s : Store) : Prop where
  loader : s.loader = none
  registered : ∀ dir, s.projects.registered.get? dir = none
  manifests : ∀ dir, ProjectIndex.manifestIn? s.files dir = none
  answers : ∀ e ∈ s.projects.answers.entries, e.2 = none

/-- The store with other answers about the projects of directories. -/
def withAnswers (s : Store) (answers : Dict Path (Option Project)) : Store :=
  { s with projects := { s.projects with answers } }

/-- The tree that a reference leads to among those that the store holds. -/
def find (s : Store) (uri : String) (importer : ModuleId) : Except ResolveError Tree :=
  match locateIn s.config none uri importer with
  | .error e => .error e
  | .ok target =>
    match s.stored? target.places with
    | some t => .ok t
    | none => .error (.notFound uri importer)

/-- The project of a directory, if there is one to ask about. -/
def projectIn (s : Store) : Option Path → StateM Store (Option Project)
  | some dir => onProjects (·.nearest s.files dir)
  | none => pure none

theorem exists_projectOf_eq (importer : ModuleId) (s : Store) :
    ∃ dir?, projectOf importer s = projectIn s dir? s := by
  rw [projectOf, bind_apply]
  exact ⟨_, rfl⟩

/-- Where the module of a URI may be for which no project is needed does not depend on one. -/
theorem locateIn_of_needsProject {config : GraphConfig} {uri : String} {importer : ModuleId}
    (h : needsProject config uri importer = false) (project : Option Project) :
    locateIn config project uri importer = locateIn config none uri importer := by
  have hplaces (u : AbsoluteUri) (hu : u.isPackage = false) :
      placesOf config project u = placesOf config none u := by
    cases u with
    | package p => cases hu
    | _ => rfl
  rw [needsProject] at h
  simp only [locateIn]
  cases hclassify : ModuleUri.classify uri with
  | error e => rfl
  | ok u =>
    rw [hclassify] at h
    cases u with
    | absolute u => exact congrArg Except.ok (hplaces u h)
    | dependency name path => cases h
    | relative path =>
      dsimp only at h
      dsimp only [bind, Except.bind]
      cases hresolve : ModuleUri.resolveRelative path importer config.sourceRoots with
      | error e => rfl
      | ok u =>
        rw [hresolve] at h
        exact congrArg Except.ok (hplaces u h)

theorem locate_fst (uri : String) (importer : ModuleId) (W : Store) : (locate uri importer W).1
    = locateIn W.config (projectOf importer W).1 uri importer := by
  rw [locate, bind_apply, get_apply]
  generalize projectOf importer = findProject
  split
  · rfl
  · next h => exact (locateIn_of_needsProject (Bool.eq_false_iff.mpr h) _).symm

/-- A project is looked for only where one is needed. -/
theorem locate_snd (uri : String) (importer : ModuleId) (W : Store) : (locate uri importer W).2
    = if needsProject W.config uri importer then (projectOf importer W).2 else W := by
  rw [locate, bind_apply, get_apply]
  generalize projectOf importer = findProject
  split <;> rfl

@[simp] theorem withAnswers_withAnswers (s : Store)
    (answers answers' : Dict Path (Option Project)) :
    (s.withAnswers answers).withAnswers answers' = s.withAnswers answers' := rfl

@[simp] theorem tree?_withAnswers (s : Store) (answers : Dict Path (Option Project))
    (id : ModuleId) : (s.withAnswers answers).tree? id = s.tree? id := rfl

@[simp] theorem find_withAnswers (s : Store) (answers : Dict Path (Option Project)) (uri : String)
    (importer : ModuleId) : (s.withAnswers answers).find uri importer = s.find uri importer := rfl

section Bare

variable {s : Store} (h : s.IsBare)
include h

/-- No directory of a bare store belongs to a project. -/
theorem search_of_isBare (dir : Path) : s.projects.search s.files dir = none := by
  rw [ProjectIndex.search, List.findSome?_eq_none_iff]
  intro d _
  simp [ProjectIndex.projectAt?, h.registered, h.manifests]

theorem nearest_of_isBare (dir : Path) :
    ∃ answers, s.projects.nearest s.files dir = (none, { s.projects with answers }) ∧
      (s.withAnswers answers).IsBare := by
  rw [ProjectIndex.nearest]
  split
  · next answer hanswer =>
    obtain ⟨e, he, -, rfl⟩ := Dict.exists_mem_of_get? hanswer
    exact ⟨s.projects.answers, by rw [h.answers e he], h⟩
  · rw [search_of_isBare h]
    refine ⟨s.projects.answers.insert dir none, rfl, h.loader, h.registered, h.manifests, ?_⟩
    intro e he
    exact (Dict.mem_put he).elim (h.answers e) id

/-- The modules of a bare store belong to no project. -/
theorem projectOf_of_isBare (importer : ModuleId) :
    ∃ answers, projectOf importer s = (none, s.withAnswers answers) ∧
      (s.withAnswers answers).IsBare := by
  obtain ⟨dir?, hproject⟩ := exists_projectOf_eq importer s
  rw [hproject]
  cases dir? with
  | none => exact ⟨s.projects.answers, rfl, h⟩
  | some dir =>
    obtain ⟨answers, hnearest, hbare⟩ := nearest_of_isBare h dir
    exact ⟨answers, by simp only [projectIn, onProjects, hnearest]; rfl, hbare⟩

end Bare

/-- What is located are the places of an absolute URI. -/
theorem exists_placesOf_of_locateIn {config : GraphConfig} {project : Option Project} {uri : String}
    {importer : ModuleId} {target : Target}
    (h : locateIn config project uri importer = .ok target) :
    ∃ u, target = placesOf config project u := by
  simp only [locateIn, bind, Except.bind, pure, Except.pure] at h
  split at h
  · cases h
  · split at h
    · exact ⟨_, (Except.ok.inj h).symm⟩
    · split at h
      · cases h
      · exact ⟨_, (Except.ok.inj h).symm⟩
    · unfold dependencyPlaces at h
      split at h
      · split at h
        · split at h
          · split at h
            · -- the places of a file do not depend on a project
              exact ⟨.file _, (Except.ok.inj h).symm⟩
            · cases h
          · split at h
            · exact ⟨_, (Except.ok.inj h).symm⟩
            · cases h
        · cases h
      · cases h

/-- Without a project there is no project for which a package is looked for. -/
theorem origin_placesOf (config : GraphConfig) (u : AbsoluteUri) :
    (placesOf config none u).origin = none := by
  cases u <;> rfl

theorem origin_locateIn {config : GraphConfig} {uri : String} {importer : ModuleId}
    {target : Target} (h : locateIn config none uri importer = .ok target) :
    target.origin = none := by
  obtain ⟨u, rfl⟩ := exists_placesOf_of_locateIn h
  exact origin_placesOf config u

/-- In a bare store places are located without a project. -/
theorem locate_of_isBare {s : Store} (h : s.IsBare) (uri : String) (importer : ModuleId) :
    ∃ answers, locate uri importer s
        = (locateIn s.config none uri importer, s.withAnswers answers) ∧
      (s.withAnswers answers).IsBare := by
  obtain ⟨answers, hproject, hbare⟩ := projectOf_of_isBare h importer
  have hfst := locate_fst uri importer s
  have hsnd := locate_snd uri importer s
  rw [hproject] at hfst hsnd
  split at hsnd
  · exact ⟨answers, Prod.ext hfst hsnd, hbare⟩
  · exact ⟨s.projects.answers, Prod.ext hfst hsnd, h⟩

/-- In a bare store a reference is looked up among the trees that the store holds, and nothing but
the answers about projects changes. -/
theorem resolve_of_isBare {s : Store} (h : s.IsBare) (uri : String) (importer : ModuleId) :
    ∃ answers, resolve uri importer s = (s.find uri importer, s.withAnswers answers) ∧
      (s.withAnswers answers).IsBare := by
  obtain ⟨answers, hlocate, hbare⟩ := locate_of_isBare h uri importer
  refine ⟨answers, ?_, hbare⟩
  rw [resolve, bind_apply, hlocate, find]
  cases htarget : locateIn s.config none uri importer with
  | error e => rfl
  | ok target =>
    have hrecord : recordOrigin target (s.withAnswers answers) = s.withAnswers answers := by
      simp [recordOrigin, origin_locateIn htarget]
    have hmodify : (modify (recordOrigin target) : StateM Store PUnit) (s.withAnswers answers)
        = (⟨⟩, s.withAnswers answers) := congrArg (PUnit.unit, ·) hrecord
    have hloader : (s.withAnswers answers).loader = none := h.loader
    simp only
    rw [bind_apply, hmodify]
    change (match s.stored? target.places with | some t => _ | none => _ : StateM Store _) _ = _
    cases s.stored? target.places with
    | some t => rfl
    | none =>
      simp only [hloader]
      rfl

/-! ## Actions that only look up -/

/-- An action has an answer in a bare store and changes nothing but the answers about projects. -/
def Reads {α : Type} (s : Store) (act : StateM Store α) (a : α) : Prop :=
  ∀ answers, (s.withAnswers answers).IsBare →
    ∃ answers', act (s.withAnswers answers) = (a, s.withAnswers answers') ∧
      (s.withAnswers answers').IsBare

namespace Reads

variable {α β γ : Type} {s : Store}

theorem pure (a : α) : Reads s (Pure.pure a) a := fun answers h => ⟨answers, rfl, h⟩

theorem bind {act : StateM Store α} {next : α → StateM Store β} {a : α} {b : β}
    (ha : Reads s act a) (hb : Reads s (next a) b) : Reads s (act >>= next) b := by
  intro answers h
  obtain ⟨answers₁, hact, h₁⟩ := ha answers h
  obtain ⟨answers₂, hnext, h₂⟩ := hb answers₁ h₁
  exact ⟨answers₂, by rw [bind_apply, hact]; exact hnext, h₂⟩

theorem foldlM {act : β → γ → StateM Store β} {f : β → γ → β}
    (h : ∀ b c, Reads s (act b c) (f b c)) (b : β) (cs : List γ) :
    Reads s (cs.foldlM act b) (cs.foldl f b) := by
  induction cs generalizing b with
  | nil => exact pure b
  | cons c cs ih => exact bind (h b c) (ih (f b c))

theorem resolve (uri : String) (importer : ModuleId) :
    Reads s (Store.resolve uri importer) (s.find uri importer) := by
  intro answers h
  obtain ⟨answers', hresolve, h'⟩ := resolve_of_isBare h uri importer
  exact ⟨answers', hresolve, h'⟩

/-- The trees of the store stay as they are. -/
theorem get_bind {next : Store → StateM Store β} {b : β}
    (h : ∀ answers, Reads s (next (s.withAnswers answers)) b) : Reads s (get >>= next) b :=
  fun answers hbare => h answers answers hbare

theorem run_fst {act : StateM Store α} {a : α} (h : Reads s act a) (hs : s.IsBare) :
    (act.run s).1 = a := by
  obtain ⟨_, hact, -⟩ := h s.projects.answers hs
  exact congrArg Prod.fst hact

end Reads

end Store

end PklAnalysis
