import PklAnalysis.Proofs.Modules.Directories

/-!
# References and the directories that they are followed from

A module path is followed from the source roots, the path in a package from the directory of the
package, and the path in a dependency from the directory of the dependency.  Where it leads is not
looked at: the places stay inside these directories for all configurations and projects exactly if the
path at no point goes back further than forward.
-/

namespace PklAnalysis

namespace Path

theorem LiesIn.suffix {dir p : Path} (h : LiesIn dir p) : dir.reduced <:+ p.reduced := by
  obtain ⟨names, hnames⟩ := h
  exact ⟨_, hnames.symm⟩

theorem descends_withoutSlashes (text : String) :
    Descends (ModuleUri.withoutSlashes text) ↔ Descends text := by
  rw [Descends, Descends, steps_withoutSlashes]

end Path

/-- The path that a URI gives below a source root, a package or a dependency. -/
def ModuleUri.inner? : ModuleUri → Option String
  | .absolute (.modulePath path) => some path
  | .absolute (.package p) => some p.modulePath
  | .dependency _ path => some path
  | .absolute (.stdlib _) | .absolute (.file _) | .absolute (.network _) | .relative _ => none

/-- The files at which a module may be. -/
def Target.files (target : Target) : List Path := target.places.filterMap (·.path)

namespace Store

/-! ## Where places are taken from -/

/-- The directory of a package among the downloaded ones. -/
def packageDir (cache : Path) (p : PackageUri) : Path :=
  ((cache.join "package-2").join p.authority).join (relativeText p.path ++ "@" ++ p.version.text)

theorem cachePath_eq (cache : Path) (p : PackageUri) :
    cachePath cache p = (packageDir cache p).join (relativeText p.modulePath) := rfl

/-- The directory of a package: that of the project that stands in for it, or else that of its pinned
version among the downloaded ones. -/
def packageDirs (config : GraphConfig) (project : Option Project) (p : PackageUri) : List Path :=
  match (project.map (pinned · p)).getD (p, none) with
  | (_, some dir) => [dir]
  | (p, none) => (config.packageCache.map (packageDir · p)).toList

/-- The directory of a dependency of a project. -/
def dependencyDirs (config : GraphConfig) (p : Project) (d : Dependency) (path : String) :
    List Path :=
  match p.localDir? d, d.package with
  | some dir, _ => [dir]
  | none, .ok package => packageDirs config (some p) { package with fragment := some path }
  | none, .error _ => []

/-- The directories from which the path in a URI is followed. -/
def directories (config : GraphConfig) (project : Option Project) : ModuleUri → List Path
  | .absolute (.modulePath _) => config.sourceRoots
  | .absolute (.package p) => packageDirs config project p
  | .dependency name path =>
    match project with
    | some p => (p.dependency? name).elim [] fun (_, d) => dependencyDirs config p d path
    | none => []
  | .absolute (.stdlib _) | .absolute (.file _) | .absolute (.network _) | .relative _ => []

/-- Each file at which a module may be lies in the directory from which it is taken. -/
def Confines (W : Store) (u : ModuleUri) (importer : ModuleId) (target : Target) : Prop :=
  List.Forall₂ Path.LiesIn (directories W.config (projectOf importer W).1 u) target.files

/-! ## Paths that descend -/

section Descending

variable {config : GraphConfig} {project : Option Project} {path : String}

theorem liesIn_join_relativeText (dir : Path) (hpath : Path.Descends path) :
    Path.LiesIn dir (dir.join (relativeText path)) :=
  Path.liesIn_join dir (Path.startsWith_withoutSlashes path)
    ((Path.descends_withoutSlashes path).mpr hpath)

theorem modulePath_of_pinned (project : Project) (p : PackageUri) :
    (pinned project p).1.modulePath = p.modulePath := by
  rw [pinned]
  split <;> rfl

theorem forall₂_package (p : PackageUri) (hp : Path.Descends p.modulePath) :
    List.Forall₂ Path.LiesIn (packageDirs config project p)
      (placesOf config project (.package p)).files := by
  have hmodule : ((project.map (pinned · p)).getD (p, none)).1.modulePath = p.modulePath := by
    cases project with
    | none => rfl
    | some q => exact modulePath_of_pinned q p
  rw [packageDirs, placesOf, Target.files]
  generalize (project.map (pinned · p)).getD (p, none) = found at hmodule
  obtain ⟨p', localDir⟩ := found
  dsimp only at hmodule
  have hlies (dir : Path) : Path.LiesIn dir (dir.join (relativeText p'.modulePath)) :=
    liesIn_join_relativeText dir (hmodule ▸ hp)
  cases localDir with
  | some dir => exact .cons (hlies dir) .nil
  | none =>
    cases config.packageCache with
    | none => exact .nil
    | some cache => exact .cons (hlies _) .nil

theorem forall₂_modulePath (hpath : Path.Descends path) :
    List.Forall₂ Path.LiesIn config.sourceRoots (placesOf config project (.modulePath path)).files := by
  have hfiles : (placesOf config project (.modulePath path)).files
      = config.sourceRoots.map fun root => root.join (relativeText path) := by
    simp [placesOf, Target.files, List.filterMap_map]
  rw [hfiles, List.forall₂_map_right_iff, List.forall₂_same]
  exact fun root _ => liesIn_join_relativeText root hpath

/-- A directory of a project is absolute if that of the project is. -/
theorem isAbsolute_localDir? {p : Project} (hp : p.dir.isAbsolute = true) {d : Dependency}
    {dir : Path} (h : p.localDir? d = some dir) : dir.isAbsolute = true := by
  cases d with
  | remote uri sha256 => cases h
  | localProject uri path =>
    obtain rfl := Option.some.inj h
    by_cases hslash : Text.startsWith "/" path = true
    · rwa [Path.join, hslash, Bool.true_or, if_pos rfl]
    · have hrelative := Bool.eq_false_iff.mpr hslash
      rw [Path.isAbsolute_iff, Path.components_join (Path.text_ne_empty_of_isAbsolute hp) hrelative,
        List.head?_append, (Path.isAbsolute_iff _).mp hp, Option.some_or]

theorem forall₂_dependency {p : Project} (hp : p.dir.isAbsolute = true) {uri name : String}
    {importer : ModuleId} {target : Target} (hpath : Path.Descends path)
    (h : dependencyPlaces config (some p) uri name path importer = .ok target) :
    List.Forall₂ Path.LiesIn (directories config (some p) (.dependency name path)) target.files := by
  simp only [dependencyPlaces] at h
  rw [directories]
  cases hd : p.dependency? name with
  | none =>
    rw [hd] at h
    cases h
  | some entry =>
    obtain ⟨key, d⟩ := entry
    simp only [hd] at h
    dsimp only [Option.elim_some, dependencyDirs]
    cases hlocal : p.localDir? d with
    | some dir =>
      simp only [hlocal] at h
      split at h <;> [skip; cases h]
      next file hfile =>
      obtain rfl := Except.ok.inj h
      refine .cons ?_ .nil
      have hreduced := Path.reduced_of_joinNormalized? (isAbsolute_localDir? hp hlocal)
        (Path.startsWith_withoutSlashes path) hfile
      rw [Path.LiesIn, hreduced]
      exact liesIn_join_relativeText dir hpath
    | none =>
      simp only [hlocal] at h
      split at h <;> [skip; cases h]
      next package hpackage =>
      obtain rfl := Except.ok.inj h
      rw [hpackage]
      exact forall₂_package _ hpath

end Descending

/-- What is located for a path that descends lies in the directories from which it is taken. -/
theorem confines_of_descends {W : Store} (hW : W.IsGrounded) {uri path : String} {u : ModuleUri}
    (hu : ModuleUri.classify uri = .ok u) (hinner : u.inner? = some path)
    (hpath : Path.Descends path) {importer : ModuleId} {target : Target}
    (h : (locate uri importer W).1 = .ok target) : W.Confines u importer target := by
  rw [locate_fst, locateIn, hu] at h
  rw [Confines]
  unfold ModuleUri.inner? at hinner
  split at hinner
  · cases hinner
    cases h
    exact forall₂_modulePath hpath
  · cases hinner
    cases h
    exact forall₂_package _ hpath
  · cases hinner
    cases hproject : (projectOf importer W).1 with
    | none =>
      rw [hproject] at h
      cases h
    | some p =>
      rw [hproject] at h
      dsimp only [bind, Except.bind] at h
      exact forall₂_dependency (hW.isAbsolute_projectOf hproject) hpath h
  all_goals cases hinner

/-! ## Paths that do not descend -/

/-- A project with one dependency, recorded under a name, in a directory. -/
def neighbouring (name dir : String) : Project :=
  ⟨⟨"/p"⟩, 1, ⟨[(name, .localProject "" dir)]⟩, ⟨[]⟩⟩

theorem dependency?_neighbouring (name dir : String) :
    (neighbouring name dir).dependency? name = some (name, .localProject "" dir) := by
  simp [Project.dependency?, neighbouring, Dict.entry?]

theorem localDir?_neighbouring (name : String) {dir : String} (hdir : Path.isAbsolute ⟨dir⟩ = true) :
    (neighbouring name dir).localDir? (.localProject "" dir) = some ⟨dir⟩ := by
  have hslash : Text.startsWith "/" dir = true := hdir
  rw [Project.localDir?, Path.join, hslash, Bool.true_or, if_pos rfl]

/-- There is a store in which the project is that of some module. -/
theorem exists_projectOf (name dir : String) : ∃ (W : Store) (importer : ModuleId), W.Arises ∧
    (projectOf importer W).1 = some (neighbouring name dir) := by
  have hdir : (Store.new ⟨[], none, []⟩ .none none).projectDir? ⟨"file:///p/m.pkl"⟩ = some ⟨"/p"⟩ := rfl
  exact ⟨_, _, (Arises.new _ _ _).registerProject _,
    projectOf_registerProject hdir ((Path.beq_iff _ _).mpr rfl)⟩

theorem not_forall₂_package {config : GraphConfig} {p : PackageUri} {dir : String}
    (hdir : Path.isAbsolute ⟨dir⟩ = true)
    (houtside : ¬Path.LiesIn ⟨dir⟩ (Path.join ⟨dir⟩ (relativeText p.modulePath))) :
    ¬List.Forall₂ Path.LiesIn (packageDirs config (some (neighbouring p.canonicalName dir)) p)
      (placesOf config (some (neighbouring p.canonicalName dir)) (.package p)).files := by
  intro h
  have hlocal : (pinned (neighbouring p.canonicalName dir) p).2 = some ⟨dir⟩ := by
    rw [pinned, dependency?_neighbouring]
    exact localDir?_neighbouring _ hdir
  have hmodule := modulePath_of_pinned (neighbouring p.canonicalName dir) p
  rw [packageDirs, placesOf, Target.files, Option.map_some, Option.getD_some] at h
  generalize pinned (neighbouring p.canonicalName dir) p = found at hlocal hmodule h
  obtain ⟨p', localDir⟩ := found
  obtain rfl : localDir = some ⟨dir⟩ := hlocal
  dsimp only at hmodule
  rw [← hmodule] at houtside
  exact houtside (List.forall₂_cons.mp h).1

theorem not_forall₂_dependency (config : GraphConfig) (uri name : String) (importer : ModuleId)
    {path dir : String} (hdir : Path.isAbsolute ⟨dir⟩ = true)
    (hfile : (Path.joinNormalized? dir (relativeText path)).isSome)
    (houtside : ¬Path.LiesIn ⟨dir⟩ (Path.join ⟨dir⟩ (relativeText path))) :
    ∃ target, dependencyPlaces config (some (neighbouring name dir)) uri name path importer
        = .ok target ∧
      ¬List.Forall₂ Path.LiesIn
        (directories config (some (neighbouring name dir)) (.dependency name path)) target.files := by
  obtain ⟨file, hfile⟩ := Option.isSome_iff_exists.mp hfile
  refine ⟨.single (AbsoluteUri.fileId ⟨file⟩) (some ⟨file⟩), ?_, fun h => houtside ?_⟩
  · simp only [dependencyPlaces, dependency?_neighbouring, localDir?_neighbouring _ hdir, hfile]
    rfl
  · simp only [directories, dependency?_neighbouring, Option.elim_some, dependencyDirs,
      localDir?_neighbouring _ hdir] at h
    have hlies := (List.forall₂_cons.mp h).1
    rwa [Path.LiesIn, Path.reduced_of_joinNormalized? hdir (Path.startsWith_withoutSlashes path)
      hfile] at hlies

/-- For a path that goes back further than forward, some store locates a module outside of the
directory from which it is taken. -/
theorem exists_not_confines {uri path : String} {u : ModuleUri}
    (hu : ModuleUri.classify uri = .ok u) (hinner : u.inner? = some path)
    (hpath : ¬Path.Descends path) : ∃ (W : Store) (importer : ModuleId) (target : Target),
      W.Arises ∧ (locate uri importer W).1 = .ok target ∧ ¬W.Confines u importer target := by
  obtain ⟨dir, hdir, hfile, houtside⟩ := Path.exists_not_liesIn (Path.startsWith_withoutSlashes path)
    (mt (Path.descends_withoutSlashes path).mp hpath)
  unfold ModuleUri.inner? at hinner
  split at hinner
  · next path' =>
    obtain rfl := Option.some.inj hinner
    refine ⟨Store.new ⟨[⟨dir⟩], none, []⟩ .none none, ⟨""⟩, _, .new _ _ _,
      by rw [locate_fst, locateIn, hu]; rfl, fun h => ?_⟩
    exact houtside (List.forall₂_cons.mp h).1
  · next p =>
    obtain rfl := Option.some.inj hinner
    obtain ⟨W, importer, hW, hproject⟩ := exists_projectOf p.canonicalName dir
    refine ⟨W, importer, _, hW, by rw [locate_fst, locateIn, hu, hproject]; rfl, fun h => ?_⟩
    rw [Confines, hproject] at h
    exact not_forall₂_package hdir houtside h
  · next name path' =>
    obtain rfl := Option.some.inj hinner
    obtain ⟨W, importer, hW, hproject⟩ := exists_projectOf name dir
    obtain ⟨target, htarget, hnot⟩ :=
      not_forall₂_dependency W.config uri name importer hdir hfile houtside
    refine ⟨W, importer, target, hW, ?_, ?_⟩
    · rw [locate_fst, locateIn, hu, hproject]
      exact htarget
    · rwa [Confines, hproject]
  all_goals cases hinner

/-! ## Which references are confined -/

/-- A reference leads, in all stores and from all modules, only to files inside of the directories
from which its path is followed exactly if the path at no point goes back further than forward. -/
theorem forall_confines_iff {uri path : String} {u : ModuleUri}
    (hu : ModuleUri.classify uri = .ok u) (hinner : u.inner? = some path) :
    (∀ W : Store, W.Arises → ∀ importer target, (locate uri importer W).1 = .ok target →
      W.Confines u importer target) ↔ Path.Descends path := by
  constructor
  · intro h
    by_contra hpath
    obtain ⟨W, importer, target, hW, htarget, hnot⟩ := exists_not_confines hu hinner hpath
    exact hnot (h W hW importer target htarget)
  · intro hpath W hW importer target htarget
    exact confines_of_descends hW.isGrounded hu hinner hpath htarget

/-- A path may go back as long as it does not go back further than forward. -/
theorem forall_confines_detour : Path.Descends "/a/../b.pkl" ∧
    ∀ W : Store, W.Arises → ∀ importer target,
      (locate "modulepath:/a/../b.pkl" importer W).1 = .ok target →
        W.Confines (.absolute (.modulePath "/a/../b.pkl")) importer target := by
  have hdescends : Path.Descends "/a/../b.pkl" := by decide
  exact ⟨hdescends, (forall_confines_iff (by rfl) (by rfl)).mpr hdescends⟩

/-- The texts of the files at which a module may be. -/
def filesFor (W : Store) (uri : String) (importer : ModuleId) : Option (List String) :=
  (locate uri importer W).1.toOption.map fun target => target.files.map (·.text)

/-- A store with a source root, a directory of downloaded packages, and a project with a dependency
that is a project in another directory. -/
def orchard : Store :=
  (Store.new ⟨[⟨"/w/src"⟩], some ⟨"/cache"⟩, []⟩ .none none).registerProject
    ⟨⟨"/w/app"⟩, 1,
      ⟨[("package://example.com/fruit@2",
        .localProject "package://example.com/fruit@2.0.1" "../fruit")]⟩,
      ⟨[("fruit", "package://example.com/fruit@2")]⟩⟩

/-- Module paths, package URIs and references to dependencies are followed out of the source root,
the package and the dependency. -/
theorem located_outside :
    (orchard.filesFor "modulepath:/../x.pkl" ⟨"file:///w/app/m.pkl"⟩ = some ["/w/src/../x.pkl"] ∧
      ¬Path.LiesIn ⟨"/w/src"⟩ ⟨"/w/src/../x.pkl"⟩) ∧
    (orchard.filesFor "package://h/p@1.0.0#/../x.pkl" ⟨"file:///w/app/m.pkl"⟩
        = some ["/cache/package-2/h/p@1.0.0/../x.pkl"] ∧
      ¬Path.LiesIn ⟨"/cache/package-2/h/p@1.0.0"⟩ ⟨"/cache/package-2/h/p@1.0.0/../x.pkl"⟩) ∧
    (orchard.filesFor "@fruit/../secret.pkl" ⟨"file:///w/app/m.pkl"⟩ = some ["/w/secret.pkl"] ∧
      ¬Path.LiesIn ⟨"/w/app/../fruit"⟩ ⟨"/w/secret.pkl"⟩) :=
  ⟨⟨by decide, fun h => absurd h.suffix (by decide)⟩,
    ⟨by decide, fun h => absurd h.suffix (by decide)⟩,
    ⟨by decide, fun h => absurd h.suffix (by decide)⟩⟩

end Store

end PklAnalysis
