import PklAnalysis.Proofs.Modules.Directories

/-!
# Lookups that fail

A lookup that fails may leave two traces in a store: it remembers the project of a directory, and it
assigns a package to a project before it is known whether there is such a module.  The first does not
matter where the answer does not depend on the spelling of the directory.  The second does: modules of
the package then belong to a project that they would not belong to.

Without a loader a lookup changes only what a store remembers about projects.  It may assign a package to
the project of the module from which it comes, but only if that module belongs to a project already.  So
lookups from one module never change what later ones from the same module find.
-/

namespace PklAnalysis

namespace ProjectIndex

variable {index : ProjectIndex} {files : Files} {dir dir' : Path}

/-- The search finds the same project, in the same spelling, under each spelling of a directory. -/
def IsPlainAt (index : ProjectIndex) (files : Files) (dir : Path) : Prop :=
  ∀ dir', (dir == dir') = true → index.search files dir' = index.search files dir

theorem IsPlainAt.congr (h : index.IsPlainAt files dir) (hsame : (dir == dir') = true) :
    index.IsPlainAt files dir' := fun dir'' hsame' => by
  rw [h dir'' (BEq.trans hsame hsame'), h dir' hsame]

/-- A registered project is found in the spelling in which it is registered, and no project has no
spelling. -/
theorem isPlainAt_of_registered (hdir : dir.isAbsolute = true)
    (h : ∀ p ∈ index.search files dir, (index.registered.get? p.dir).isSome) :
    index.IsPlainAt files dir := by
  intro dir' hsame
  have hrel : Option.Rel (fun p q => (index.registered.get? p.dir).isSome → q = p)
      (index.search files dir) (index.search files dir') := by
    refine rel_findSome? (Path.forall₂_ancestors hdir hsame) fun a ha b hab => ?_
    have hmanifest := manifestIn?_congr files (Path.isAbsolute_of_mem_ancestors hdir ha) hab
    have hregistered := Dict.get?_congr index.registered hab
    rw [projectAt?, projectAt?, hmanifest, hregistered]
    cases hb : index.registered.get? b with
    | some p => exact .some fun _ => rfl
    | none =>
      cases manifestIn? files b with
      | none => exact .none
      | some m =>
        refine .some fun hp => ?_
        rw [hregistered, hb] at hp
        cases hp
  generalize index.search files dir' = y at hrel
  cases hfound : index.search files dir with
  | none =>
    rw [hfound] at hrel
    cases hrel
    rfl
  | some p =>
    rw [hfound] at hrel
    cases hrel with
    | some hpq => rw [hpq (h p hfound)]

theorem nearest_eq (index : ProjectIndex) (files : Files) (dir : Path) : index.nearest files dir
    = ((index.answers.get? dir).getD (index.search files dir),
      { index with answers := index.answers.insertNew dir (index.search files dir) }) := by
  rw [nearest, Dict.insertNew, Dict.contains_eq]
  cases index.answers.get? dir <;> rfl

/-- Answers that were given before agree with others about a directory: they are the same, or both say
what the search says, in whatever spelling. -/
def AgreeAt (index : ProjectIndex) (files : Files) (answers answers' : Dict Path (Option Project))
    (dir : Path) : Prop :=
  answers.get? dir = answers'.get? dir ∨ index.IsPlainAt files dir ∧
    (∀ a ∈ answers.get? dir, a = index.search files dir) ∧
    ∀ a ∈ answers'.get? dir, a = index.search files dir

variable {answers answers' : Dict Path (Option Project)}

/-- Where answers agree, they give the same project. -/
theorem AgreeAt.getD_eq (h : index.AgreeAt files answers answers' dir) :
    (answers.get? dir).getD (index.search files dir)
      = (answers'.get? dir).getD (index.search files dir) := by
  have hgetD {d : Dict Path (Option Project)} (hd : ∀ a ∈ d.get? dir, a = index.search files dir) :
      (d.get? dir).getD (index.search files dir) = index.search files dir := by
    cases ha : d.get? dir with
    | none => rfl
    | some a => exact hd a ha
  obtain h | ⟨-, ha, ha'⟩ := h
  · rw [h]
  · rw [hgetD ha, hgetD ha']

/-- Answers that agree go on to agree when the project of a directory is remembered. -/
theorem AgreeAt.insertNew (h : index.AgreeAt files answers answers' dir') (dir : Path) :
    index.AgreeAt files (answers.insertNew dir (index.search files dir))
      (answers'.insertNew dir (index.search files dir)) dir' := by
  rw [AgreeAt, Dict.get?_insertNew, Dict.get?_insertNew]
  obtain h | ⟨hplain, ha, ha'⟩ := h
  · exact .inl (by rw [h])
  · have hnew (d : Dict Path (Option Project)) (hd : ∀ a ∈ d.get? dir', a = index.search files dir') :
        ∀ a ∈ (d.get? dir').or (if dir == dir' then some (index.search files dir) else none),
          a = index.search files dir' := by
      intro a hmem
      rcases Option.or_eq_some_iff.mp hmem with hmem | ⟨-, hmem⟩
      · exact hd a hmem
      · obtain ⟨hkey, hfound⟩ := Option.ite_none_right_eq_some.mp hmem
        rw [← Option.some.inj hfound]
        exact hplain dir (BEq.symm hkey)
    exact .inr ⟨hplain, hnew answers ha, hnew answers' ha'⟩

end ProjectIndex

namespace Store

variable {W V : Store}

/-! ## Stores that behave alike -/

/-- The project of a module is found, or is going to be, in a spelling that does not depend on that of
the directory from which it is looked for. -/
def HasPlainProject (W : Store) (importer : ModuleId) : Prop :=
  ∀ dir ∈ W.projectDir? importer,
    (W.projects.answers.get? dir).isSome ∨ W.projects.IsPlainAt W.files dir

/-- Two stores differ only in the projects of some packages, and in what they remember about the
projects of directories, where they agree. -/
structure Alike (pkgs : String → Prop) (W V : Store) : Prop where
  config : V.config = W.config
  trees : V.trees = W.trees
  registered : V.projects.registered = W.projects.registered
  files : V.files = W.files
  loader : V.loader = W.loader
  origins : ∀ b, ¬pkgs b → V.origins.get? b = W.origins.get? b
  answers : ∀ dir, W.projects.AgreeAt W.files W.projects.answers V.projects.answers dir

theorem search_of_registered {index index' : ProjectIndex}
    (h : index'.registered = index.registered) (files : Files) (dir : Path) :
    index'.search files dir = index.search files dir := by
  have hat (d : Path) : index'.projectAt? files d = index.projectAt? files d := by
    rw [ProjectIndex.projectAt?, ProjectIndex.projectAt?, h]
  rw [ProjectIndex.search, ProjectIndex.search]
  exact congrArg (dir.ancestors.findSome? ·) (funext hat)

/-- A package is assigned to a project only if it belongs to none. -/
theorem get?_assigned (target : Target) (origins : Dict String Path) (b : String) :
    (assigned target origins).get? b = (origins.get? b).or
      (if some b ∈ target.places.map (packageOf? ·.id) then target.origin else none) := by
  rw [assigned]
  cases target.origin with
  | none => simp
  | some origin =>
    dsimp only
    generalize target.places = places
    induction places generalizing origins with
    | nil => simp
    | cons place places ih =>
      rw [List.foldl_cons, ih, List.map_cons, packageOf?]
      cases ModuleUri.absolute? place.id.text with
      | none => simp
      | some u =>
        cases u with
        | package p =>
          simp only [Dict.get?_insertNew, List.mem_cons, Option.some.injEq, Option.or_assoc]
          by_cases hp : p.baseUri = b
          · simp [hp]
          · have hp' : b ≠ p.baseUri := Ne.symm hp
            simp [hp, hp']
        | _ => simp

/-- The answer to a lookup depends on a store only through its trees and its loader. -/
theorem answer_congr (htrees : V.trees = W.trees) (hloader : V.loader = W.loader) (uri : String)
    (importer : ModuleId) (located : Except ResolveError Target) :
    V.answer uri importer located = W.answer uri importer located := by
  cases located with
  | error e => rfl
  | ok target => rw [answer, answer, fetch_of_trees htrees hloader]

variable {pkgs : String → Prop}

/-- The project of a package is looked for from the directory to which it is assigned. -/
theorem projectDir?_of_packageOf? {importer : ModuleId} {b : String}
    (h : packageOf? importer = some b) : W.projectDir? importer = W.origins.get? b := by
  rw [packageOf?] at h
  rw [projectDir?]
  split at h
  · next p hp =>
    obtain rfl := Option.some.inj h
    rw [hp]
  · cases h

/-- In stores that are alike a module of none of the packages has the same project, and they are alike
afterwards. -/
theorem Alike.projectOf (h : Alike pkgs W V) {importer : ModuleId}
    (himporter : ∀ b ∈ packageOf? importer, ¬pkgs b) :
    (Store.projectOf importer V).1 = (Store.projectOf importer W).1 ∧
      Alike pkgs (Store.projectOf importer W).2 (Store.projectOf importer V).2 := by
  have hdir : V.projectDir? importer = W.projectDir? importer := by
    rw [packageOf?] at himporter
    rw [projectDir?, projectDir?]
    split
    · rfl
    · next p hp =>
      rw [hp] at himporter
      exact h.origins p.baseUri (himporter _ rfl)
    · rfl
  rw [projectOf_eq, projectOf_eq, hdir]
  cases W.projectDir? importer with
  | none => exact ⟨rfl, h⟩
  | some dir =>
    have hsearch := search_of_registered h.registered W.files dir
    dsimp only [projectIn, onProjects]
    rw [ProjectIndex.nearest_eq, ProjectIndex.nearest_eq, h.files, hsearch]
    exact ⟨(h.answers dir).getD_eq.symm, h.config, h.trees, h.registered, rfl, h.loader,
      h.origins, fun dir' => (h.answers dir').insertNew dir⟩

theorem Alike.locate (h : Alike pkgs W V) (uri : String) {importer : ModuleId}
    (himporter : ∀ b ∈ packageOf? importer, ¬pkgs b) :
    (Store.locate uri importer V).1 = (Store.locate uri importer W).1 ∧
      Alike pkgs (Store.locate uri importer W).2 (Store.locate uri importer V).2 := by
  obtain ⟨hproject, hafter⟩ := h.projectOf himporter
  rw [locate_fst, locate_fst, locate_snd, locate_snd, hproject, h.config]
  refine ⟨rfl, ?_⟩
  split
  · exact hafter
  · exact h

/-- In stores that are alike a lookup from a module of none of the packages finds the same, and they are
alike afterwards. -/
theorem Alike.resolve (h : Alike pkgs W V) (uri : String) {importer : ModuleId}
    (himporter : ∀ b ∈ packageOf? importer, ¬pkgs b) :
    (Store.resolve uri importer V).1 = (Store.resolve uri importer W).1 ∧
      Alike pkgs (Store.resolve uri importer W).2 (Store.resolve uri importer V).2 := by
  obtain ⟨hlocated, hafter⟩ := h.locate uri himporter
  have htrees (located : Except ResolveError Target) :
      V.treesAfter located = W.treesAfter located := by
    cases located with
    | error e => exact h.trees
    | ok target => simp only [treesAfter, stored?, tree?, h.trees, h.loader]
  have horigins (located : Except ResolveError Target) (b : String) (hb : ¬pkgs b) :
      (originsAfter located (Store.locate uri importer V).2.origins).get? b
        = (originsAfter located (Store.locate uri importer W).2.origins).get? b := by
    cases located with
    | error e => exact hafter.origins b hb
    | ok target => rw [originsAfter, originsAfter, get?_assigned, get?_assigned, hafter.origins b hb]
  rw [resolve_fst, resolve_fst, resolve_snd, resolve_snd, hlocated, answer_congr h.trees h.loader,
    htrees]
  generalize (Store.locate uri importer W).2 = W', (Store.locate uri importer V).2 = V'
    at hafter horigins ⊢
  exact ⟨rfl, hafter.config, rfl, hafter.registered, hafter.files, hafter.loader, horigins _,
    hafter.answers⟩

/-- The answers to lookups that follow each other. -/
def resolveAll (W : Store) : List (String × ModuleId) → List (Except ResolveError Tree)
  | [] => []
  | (uri, importer) :: calls =>
    (Store.resolve uri importer W).1 :: resolveAll (Store.resolve uri importer W).2 calls

/-- Stores that are alike give the same answers to all lookups that follow from modules of none of the
packages. -/
theorem Alike.resolveAll_eq (h : Alike pkgs W V) {calls : List (String × ModuleId)}
    (hcalls : ∀ call ∈ calls, ∀ b ∈ packageOf? call.2, ¬pkgs b) :
    V.resolveAll calls = W.resolveAll calls := by
  induction calls generalizing W V with
  | nil => rfl
  | cons call calls ih =>
    obtain ⟨hcall, hcalls⟩ := List.forall_mem_cons.mp hcalls
    obtain ⟨hfound, hafter⟩ := h.resolve call.1 hcall
    rw [resolveAll, resolveAll, hfound, ih hafter hcalls]

/-- A store stays alike to another one if it gets the trees of that one and projects of packages. -/
theorem Alike.update (h : Alike (fun _ => False) W V) {trees : Dict ModuleId Tree}
    {origins : Dict String Path} (htrees : trees = W.trees)
    (horigins : ∀ b, ¬pkgs b → origins.get? b = W.origins.get? b) :
    Alike pkgs W { V with trees := trees, origins := origins } :=
  ⟨h.config, htrees, h.registered, h.files, h.loader, horigins, h.answers⟩

/-! ## What a failed lookup leaves behind -/

/-- A lookup that fails keeps no tree. -/
theorem treesAfter_of_error {uri : String} {importer : ModuleId} {e : ResolveError}
    {located : Except ResolveError Target} (h : W.answer uri importer located = .error e) :
    W.treesAfter located = W.trees := by
  cases located with
  | error _ => rfl
  | ok target =>
    rw [answer, fetch] at h
    rw [treesAfter]
    cases hstored : W.stored? target.places with
    | some t => rfl
    | none =>
      rw [hstored] at h
      dsimp only at h ⊢
      cases hloaded : (W.loader.map (loadFirst · target.places)).getD (.ok none) with
      | error _ => rfl
      | ok found =>
        cases found with
        | none => rfl
        | some t =>
          rw [hloaded] at h
          cases h

theorem trees_resolve_of_error {uri : String} {importer : ModuleId} {e : ResolveError}
    (h : (resolve uri importer W).1 = .error e) : (resolve uri importer W).2.trees = W.trees := by
  rw [resolve_fst] at h
  rw [resolve_snd]
  exact treesAfter_of_error h

/-- Looking for the project of a module makes no difference if it is found in one spelling only. -/
theorem alike_projectOf {importer : ModuleId} (h : W.HasPlainProject importer) :
    Alike (fun _ => False) W (projectOf importer W).2 := by
  rw [projectOf_eq]
  cases hdir : W.projectDir? importer with
  | none => exact ⟨rfl, rfl, rfl, rfl, rfl, fun _ _ => rfl, fun _ => .inl rfl⟩
  | some dir =>
    dsimp only [projectIn, onProjects]
    rw [ProjectIndex.nearest_eq]
    refine ⟨rfl, rfl, rfl, rfl, rfl, fun _ _ => rfl, fun dir' => ?_⟩
    rw [ProjectIndex.AgreeAt, Dict.get?_insertNew]
    cases hanswer : W.projects.answers.get? dir' with
    | some a => exact .inl (Option.some_or).symm
    | none =>
      rw [Option.none_or]
      split
      · next hsame =>
        obtain hsome | hplain := h dir hdir
        · rw [Dict.get?_congr _ hsame, hanswer] at hsome
          cases hsome
        · refine .inr ⟨hplain.congr hsame, nofun, fun a ha => ?_⟩
          rw [← Option.some.inj ha]
          exact (hplain dir' hsame).symm
      · exact .inl rfl

theorem origins_locate (uri : String) (importer : ModuleId) (W : Store) :
    (locate uri importer W).2.origins = W.origins := by
  rw [locate_snd, projectOf_eq]
  split
  · cases W.projectDir? importer <;> rfl
  · rfl

/-- A lookup assigns packages that belong to no project to that of the importing module. -/
theorem origins_resolve {uri : String} {importer : ModuleId} {b : String}
    (h : (resolve uri importer W).2.origins.get? b ≠ W.origins.get? b) :
    W.origins.get? b = none ∧ ∃ p, (projectOf importer W).1 = some p ∧
      (resolve uri importer W).2.origins.get? b = some p.dir := by
  rw [resolve_snd] at h ⊢
  dsimp only at h ⊢
  rw [origins_locate] at h ⊢
  cases hlocated : (locate uri importer W).1 with
  | error e => exact absurd (by rw [hlocated, originsAfter]) h
  | ok target =>
    rw [hlocated] at h
    rw [originsAfter, get?_assigned] at h ⊢
    cases hb : W.origins.get? b with
    | some o => exact absurd (by rw [hb, Option.some_or]) h
    | none =>
      rw [hb, Option.none_or] at h
      rw [Option.none_or]
      obtain ⟨o, ho⟩ := Option.ne_none_iff_exists'.mp h
      rw [locate_fst] at hlocated
      obtain ⟨p, hp, rfl⟩ :=
        origin_locateIn_eq hlocated o (Option.ite_none_right_eq_some.mp ho).2
      exact ⟨rfl, p, hp, ho⟩

/-- The project of a module is the one that is remembered for its directory, or else the one that a
search finds. -/
theorem projectOf_fst (importer : ModuleId) (W : Store) : (projectOf importer W).1
    = (W.projectDir? importer).bind fun dir =>
      (W.projects.answers.get? dir).getD (W.projects.search W.files dir) := by
  rw [projectOf_eq]
  cases W.projectDir? importer with
  | none => rfl
  | some dir =>
    dsimp only [projectIn, onProjects]
    rw [ProjectIndex.nearest_eq]
    rfl

/-- To locate a module is to look for the project of the importing module, if at all. -/
theorem locate_snd_cases (uri : String) (importer : ModuleId) (W : Store) :
    (locate uri importer W).2 = W ∨
      ∃ dir, W.projectDir? importer = some dir ∧ (locate uri importer W).2 = { W with
        projects := { W.projects with
          answers := W.projects.answers.insertNew dir (W.projects.search W.files dir) } } := by
  rw [locate_snd]
  split
  · rw [projectOf_eq]
    cases W.projectDir? importer with
    | none => exact .inl rfl
    | some dir =>
      dsimp only [projectIn, onProjects]
      rw [ProjectIndex.nearest_eq]
      exact .inr ⟨dir, rfl, rfl⟩
  · exact .inl rfl

/-- A lookup does not change the directory from which the project of the importing module is looked
for. -/
theorem projectDir?_resolve (uri : String) (importer : ModuleId) (W : Store) :
    (resolve uri importer W).2.projectDir? importer = W.projectDir? importer := by
  rw [projectDir?, projectDir?]
  split
  · rfl
  · next p hp =>
    -- a package is assigned from a module that has a project, so this is not the package of the module
    by_contra hne
    obtain ⟨hnone, project, hproject, -⟩ := origins_resolve hne
    rw [projectOf_fst, projectDir?, hp] at hproject
    dsimp only at hproject
    rw [hnone] at hproject
    cases hproject
  · rfl

/-- A lookup does not change the project of the importing module. -/
theorem projectOf_resolve (uri : String) (importer : ModuleId) (W : Store) :
    (projectOf importer (resolve uri importer W).2).1 = (projectOf importer W).1 := by
  rw [projectOf_fst, projectOf_fst, projectDir?_resolve, resolve_snd]
  obtain hsame | ⟨dir, hdir, hafter⟩ := locate_snd_cases uri importer W
  · rw [hsame]
  · rw [hafter, hdir, Option.bind_some, Option.bind_some]
    dsimp only
    rw [search_of_registered rfl, Dict.get?_insertNew, if_pos BEq.rfl]
    cases W.projects.answers.get? dir <;> rfl

/-- A lookup assigns the packages of the modules that it looks for, as far as they belong to no project,
to the project for which it looks for them. -/
theorem origins_resolve_of_mem {uri : String} {importer : ModuleId} {target : Target} {b : String}
    (hlocated : (locate uri importer W).1 = .ok target) (hnone : W.origins.get? b = none)
    (hb : some b ∈ target.places.map (packageOf? ·.id)) :
    (resolve uri importer W).2.origins.get? b = target.origin := by
  rw [resolve_snd, hlocated, origins_locate, originsAfter, get?_assigned, hnone, Option.none_or,
    if_pos hb]

/-- After a lookup that fails, a module for which the project of the importing module has become the
project looks for others as that project does. -/
theorem resolve_after_error {uri : String} {importer : ModuleId} {e : ResolveError}
    (hfail : (resolve uri importer W).1 = .error e) {importer' : ModuleId}
    (hdir : (resolve uri importer W).2.projectDir? importer' = W.projectDir? importer)
    (uri' : String) : (resolve uri' importer' (resolve uri importer W).2).1
      = W.answer uri' importer' (locateIn W.config (projectOf importer W).1 uri' importer') := by
  have hproject : (projectOf importer' (resolve uri importer W).2).1 = (projectOf importer W).1 := by
    rw [← projectOf_resolve uri importer W, projectOf_fst, projectOf_fst, hdir,
      projectDir?_resolve]
  have hconfig : (resolve uri importer W).2.config = W.config := by
    rw [resolve_snd]
    obtain hsame | ⟨dir, -, hafter⟩ := locate_snd_cases uri importer W
    · rw [hsame]
    · rw [hafter]
  have hloader : (resolve uri importer W).2.loader = W.loader := by
    rw [resolve_snd]
    exact loader_locate uri importer W
  rw [resolve_fst, locate_fst, hproject, hconfig,
    answer_congr (trees_resolve_of_error hfail) hloader]

/-- After a lookup that fails, everything is found as before, except from the modules of packages that
it has assigned to a project: they belonged to no project, and now belong to that of the importing
module. -/
theorem resolveAll_of_resolve_eq_error {uri : String} {importer : ModuleId} {e : ResolveError}
    (hfail : (resolve uri importer W).1 = .error e)
    (hplain : needsProject W.config uri importer = true → W.HasPlainProject importer) :
    (∀ calls : List (String × ModuleId),
      (∀ call ∈ calls, ∀ b ∈ packageOf? call.2,
        (resolve uri importer W).2.origins.get? b = W.origins.get? b) →
      (resolve uri importer W).2.resolveAll calls = W.resolveAll calls) ∧
    ∀ b, (resolve uri importer W).2.origins.get? b ≠ W.origins.get? b →
      W.origins.get? b = none ∧ ∃ p, (projectOf importer W).1 = some p ∧
        (resolve uri importer W).2.origins.get? b = some p.dir := by
  refine ⟨fun calls hcalls => ?_, fun b => origins_resolve⟩
  have hlocated : Alike (fun _ => False) W (locate uri importer W).2 := by
    rw [locate_snd]
    split
    · next hneeds => exact alike_projectOf (hplain hneeds)
    · exact ⟨rfl, rfl, rfl, rfl, rfl, fun _ _ => rfl, fun _ => .inl rfl⟩
  have htrees := trees_resolve_of_error hfail
  obtain ⟨pkgs, hpkgs⟩ : ∃ pkgs : String → Prop, ∀ b, pkgs b ↔
      (resolve uri importer W).2.origins.get? b ≠ W.origins.get? b := ⟨_, fun _ => Iff.rfl⟩
  have horigins (b : String) (hb : ¬pkgs b) :
      (resolve uri importer W).2.origins.get? b = W.origins.get? b :=
    Classical.not_not.mp fun hne => hb ((hpkgs b).mpr hne)
  have hresolve : Alike pkgs W (resolve uri importer W).2 := by
    rw [resolve_snd] at htrees horigins ⊢
    exact hlocated.update htrees horigins
  exact hresolve.resolveAll_eq fun call hcall b hb hne => (hpkgs b).mp hne (hcalls call hcall b hb)

/-- A module that belongs to a registered project, or to none, has a plain project. -/
theorem IsGrounded.hasPlainProject (hW : W.IsGrounded) {importer : ModuleId}
    (h : ∀ p ∈ W.projectFor importer, (W.projects.registered.get? p.dir).isSome) :
    W.HasPlainProject importer := fun dir hdir =>
  .inr <| ProjectIndex.isPlainAt_of_registered (hW.isAbsolute_projectDir? hdir) fun p hp =>
    h p (Option.mem_bind_iff.mpr ⟨dir, hdir, hp⟩)

/-- A store with two registered projects, for which a package has different versions, and with modules
of the later one of these and of another package. -/
def aviary : Store :=
  let project (dir birds : String) : Project := ⟨⟨dir⟩, 1,
    ⟨[("package://example.com/birds@1", .remote birds none)]⟩,
    ⟨[("birds", "package://example.com/birds@1")]⟩⟩
  let projects := ((Store.new ⟨[], none, []⟩ .none none).registerProject
    (project "/a" "projectpackage://example.com/birds@1.3.0")).registerProject
    (project "/b" "projectpackage://example.com/birds@1.4.0")
  (projects.insertSource (bareModule "package://example.com/lib@1.0.0#/Lib.pkl")).insertSource
    (bareModule "package://example.com/birds@1.4.0#/Bird.pkl")

theorem arises_aviary : aviary.Arises :=
  ((((Arises.new _ _ _).registerProject _).registerProject _).insertSource _).insertSource _

/-- A module that the other package does not have. -/
def missing : String := "package://example.com/lib@1.0.0#/Missing.pkl"

theorem resolve_missing : (resolve missing ⟨"file:///a/m.pkl"⟩ aviary).1
    = .error (.notFound missing ⟨"file:///a/m.pkl"⟩) := by
  decide +kernel

/-- From modules of files everything is found as before the lookup. -/
theorem resolveAll_after_missing :
    aviary.HasPlainProject ⟨"file:///a/m.pkl"⟩ ∧
      ∀ calls : List (String × ModuleId), (∀ call ∈ calls, packageOf? call.2 = none) →
        (resolve missing ⟨"file:///a/m.pkl"⟩ aviary).2.resolveAll calls = aviary.resolveAll calls := by
  have hregistered : (aviary.projectFor ⟨"file:///a/m.pkl"⟩).all
      fun p => (aviary.projects.registered.get? p.dir).isSome := by
    decide
  have hplain :=
    arises_aviary.isGrounded.hasPlainProject ((Option.all_eq_true _ _).mp hregistered)
  refine ⟨hplain, fun calls hcalls => ?_⟩
  refine (resolveAll_of_resolve_eq_error resolve_missing fun _ => hplain).1 calls ?_
  intro call hcall b hb
  rw [hcalls call hcall] at hb
  cases hb

/-- A module of the other package. -/
def lib : ModuleId := ⟨"package://example.com/lib@1.0.0#/Lib.pkl"⟩

/-- The lookup that fails assigns the other package to the project of the importing module. -/
theorem projectDir?_after_missing : (resolve missing ⟨"file:///a/m.pkl"⟩ aviary).2.projectDir? lib
    = aviary.projectDir? ⟨"file:///a/m.pkl"⟩ := by
  have hpackage : packageOf? lib = some "package://example.com/lib@1.0.0" := by
    decide
  have hlocated : (locate missing ⟨"file:///a/m.pkl"⟩ aviary).1.toOption.map
      (fun target => (target.places.map (packageOf? ·.id), target.origin.map (·.text)))
        = some ([some "package://example.com/lib@1.0.0"], some "/a") := by
    decide +kernel
  have hdir : (aviary.projectDir? ⟨"file:///a/m.pkl"⟩).map (·.text) = some "/a" := by
    decide
  have htext {d d' : Option Path} (h : d.map (·.text) = d'.map (·.text)) : d = d' :=
    Option.map_injective (fun ⟨_⟩ ⟨_⟩ => congrArg Path.mk) h
  cases htarget : (locate missing ⟨"file:///a/m.pkl"⟩ aviary).1 with
  | error e =>
    rw [htarget] at hlocated
    cases hlocated
  | ok target =>
    rw [htarget] at hlocated
    obtain ⟨hplaces, horigin⟩ := Prod.mk.inj (Option.some.inj hlocated)
    rw [projectDir?_of_packageOf? hpackage, origins_resolve_of_mem htarget rfl]
    · exact htext (horigin.trans hdir.symm)
    · rw [hplaces]
      exact List.mem_singleton_self _

/-- The lookup that fails decides for which project the package that it names is looked for, and thus
which versions of other packages the modules of the package refer to. -/
theorem exists_resolveAll_ne : aviary.Arises ∧
    (resolve missing ⟨"file:///a/m.pkl"⟩ aviary).1
      = .error (.notFound missing ⟨"file:///a/m.pkl"⟩) ∧
    ∃ calls, (resolve missing ⟨"file:///a/m.pkl"⟩ aviary).2.resolveAll calls
      ≠ aviary.resolveAll calls := by
  -- the later version is the one that the absolute URI names, but not that of the first project
  obtain ⟨bird, hbird⟩ : ∃ uri, uri = "package://example.com/birds@1.4.0#/Bird.pkl" := ⟨_, rfl⟩
  refine ⟨arises_aviary, resolve_missing, [(bird, lib)], fun h => ?_⟩
  have hbefore : (resolve bird lib aviary).1.toOption.isSome := by
    have hproject : (projectOf lib aviary).1 = none := by
      rw [projectOf_fst, projectDir?_of_packageOf? (b := "package://example.com/lib@1.0.0")]
      · rfl
      · decide
    rw [resolve_fst, locate_fst, hproject, hbird]
    decide +kernel
  have hafter :
      (resolve bird lib (resolve missing ⟨"file:///a/m.pkl"⟩ aviary).2).1.toOption.isNone := by
    rw [resolve_after_error resolve_missing projectDir?_after_missing, hbird]
    decide +kernel
  rw [resolveAll, resolveAll] at h
  rw [(List.cons.inj h).1, Option.isNone_iff_eq_none] at hafter
  rw [hafter] at hbefore
  cases hbefore

/-! ## Lookups from one module -/

variable {importer : ModuleId}

/-- Two stores without loader differ only in what they remember about projects, and not in the project of
a module. -/
structure AlikeFrom (importer : ModuleId) (W V : Store) : Prop where
  config : V.config = W.config
  trees : V.trees = W.trees
  loader : V.loader = W.loader
  unloaded : W.loader = none
  project : (projectOf importer V).1 = (projectOf importer W).1

theorem AlikeFrom.refl (h : W.loader = none) : AlikeFrom importer W W := ⟨rfl, rfl, rfl, h, rfl⟩

/-- In stores that are alike for a module a lookup from it finds the same. -/
theorem AlikeFrom.resolve_fst (h : AlikeFrom importer W V) (uri : String) :
    (resolve uri importer V).1 = (resolve uri importer W).1 := by
  rw [Store.resolve_fst, Store.resolve_fst, locate_fst, locate_fst, h.config, h.project,
    answer_congr h.trees h.loader]

/-- A lookup from a module leaves a store alike for it. -/
theorem AlikeFrom.resolve_snd (h : AlikeFrom importer W V) (uri : String) :
    AlikeFrom importer W (resolve uri importer V).2 := by
  obtain ⟨hloader, htrees⟩ := resolve_of_loader (h.loader.trans h.unloaded) uri importer
  refine { config := ?_, trees := htrees.trans h.trees, loader := hloader.trans h.unloaded.symm,
           unloaded := h.unloaded, project := (projectOf_resolve uri importer V).trans h.project }
  rw [Store.resolve_snd]
  obtain hsame | ⟨dir, -, hafter⟩ := locate_snd_cases uri importer V
  · rw [hsame, h.config]
  · rw [hafter, h.config]

/-- A module that the base module's URI names is not found, unless it is stored. -/
theorem isNotFound_of_resolve_baseUri (hW : W.loader = none) {e : ResolveError}
    (h : (resolve BaseModule.uri importer W).1 = .error e) : e.isNotFound = true := by
  have hlocate (project : Option Project) : locateIn W.config project BaseModule.uri importer
      = .ok (.single BaseModule.id none) := rfl
  rw [Store.resolve_fst, locate_fst, hlocate, answer, fetch, hW] at h
  cases hstored : W.stored? (Target.single BaseModule.id none).places with
  | some t =>
    rw [hstored] at h
    cases h
  | none =>
    rw [hstored] at h
    cases h
    rfl

end Store

end PklAnalysis
