import PklAnalysis.Proofs.Modules.DependencySpellings

/-!
# The versions to which packages are pinned

A project records its dependencies under their canonical names, which hold the major version, and a
module of the project that names a package gets the recorded version of it.  If nothing is recorded
under the canonical name of the package, another dependency may stand in for it, in whatever major
version it is: the package is then pinned to the version of that one.
-/

namespace PklAnalysis

namespace PackageUri

variable {uri : String} {p : PackageUri} {v : Version}

/-- The version of a package URI that has been read is the one that its text is read as. -/
theorem parse_version_text (h : parse uri = .ok p) :
    Version.parse p.version.text = .ok p.version := by
  obtain ⟨rest, path, version, fragment, -, hspells⟩ := exists_spells_of_parse h
  rw [Version.text_of_parse hspells.version]
  exact hspells.version

/-- A package URI stays one in another version. -/
theorem parse_withVersion (h : parse uri = .ok p) (hv : Version.parse v.text = .ok v) :
    parse ({ p with version := v } : PackageUri).text = .ok { p with version := v } := by
  obtain ⟨rest, path, version, fragment, -, hspells⟩ := exists_spells_of_parse h
  rw [parse, afterScheme?_text]
  refine mapError_eq_ok.mpr (parts_eq_ok_iff.mpr ⟨path, v.text, p.fragment, ?_⟩)
  exact ⟨by simp [PackageUri.body, name], hspells.name, hspells.authority, hspells.path, hv,
    (fragmentOf_eq_ok hspells.fragment).1⟩

/-- In another version a written form ends with that version or as before. -/
theorem isTrimmed_withVersion (h : Text.IsTrimmed p.text) (hv : Version.parse v.text = .ok v) :
    Text.IsTrimmed ({ p with version := v } : PackageUri).text := by
  constructor
  · rw [text_eq]
    intro c hc
    have hp : 'p' = c := by simpa using hc
    subst hp
    decide
  · have hsplit (v : Version) : ({ p with version := v } : PackageUri).text.toList
        = ("package://" ++ p.name ++ "@").toList ++ v.text.toList ++ fragmentText p.fragment := by
      simp [text_eq, body, name]
    cases hf : p.fragment with
    | none =>
      rw [← hf, hsplit, hf, fragmentText, List.append_nil,
        List.getLast?_append_of_ne_nil _ (by simpa using Version.ne_empty_of_parse hv)]
      intro c hc
      exact Version.not_isBlank_of_isTextChar
        (Version.isTextChar_of_mem_parse hv c (List.mem_of_getLast? hc))
    | some f =>
      have hback : fragmentText p.fragment <:+ p.text.toList := ⟨_, (hsplit p.version).symm⟩
      rw [← hf, hsplit, List.getLast?_append_of_ne_nil _ (by simp [hf, fragmentText])]
      exact h.last_of_suffix hback

end PackageUri

namespace ModuleUri

/-- A text that is read as a package is the text of a package URI. -/
theorem Reads.parse_package {s : String} {p : PackageUri} (h : Reads s (.package p)) :
    PackageUri.parse s = .ok p := by
  obtain ⟨scheme, rest, -, hscheme⟩ := h.scheme
  unfold schemeOf at hscheme
  split at hscheme <;> try cases hscheme
  · simp only at hscheme
    split at hscheme <;> cases hscheme
  all_goals
    split at hscheme
    next q hq =>
      cases hscheme
      exact hq
    · cases hscheme

/-- The identity of a package in another version is read as the package in that version. -/
theorem absolute?_withVersion {uri : String} {p : PackageUri} {v : Version}
    (h : classify uri = .ok (.absolute (.package p))) (hv : Version.parse v.text = .ok v) :
    absolute? (AbsoluteUri.package { p with version := v }).id.text
      = some (.package { p with version := v }) := by
  have hid := (classify_eq_absolute_iff.mp h).id_text
  have hparse := PackageUri.parse_withVersion hid.parse_package hv
  have htrimmed := PackageUri.isTrimmed_withVersion hid.trimmed hv
  have hreads := reads_package htrimmed hparse
  have hclassify : classify (AbsoluteUri.package { p with version := v }).id.text
      = .ok (.absolute (.package { p with version := v })) := by
    rw [classify_eq_absolute_iff, hreads.trimmed.trim_eq]
    exact hreads
  rw [absolute?, hclassify]

end ModuleUri

namespace Project

variable {q : Project} {package : String}

/-- Two keys of a manifest name the same package if versions are left out. -/
def SamePackage (key package : String) : Prop :=
  ∃ rest, key = "package://" ++ rest ∧ Text.before '@' rest = bareName package

/-- The dependencies that stand in for a package of which none is recorded. -/
inductive StandsIn (q : Project) (package : String) : Dependency → Prop where
  /-- The package is a name used in imports, and the dependency is what it stands for. -/
  | named {canonical : String} {d : Dependency}
    (hname : q.manifest.names.get? package = some canonical)
    (hrecorded : q.manifest.resolved.get? canonical = some d) : StandsIn q package d
  /-- The package is no such name, and the dependency is the first of the package in any
  version. -/
  | bare {front back : List (String × Dependency)} {key : String} {d : Dependency}
    (hname : ∀ canonical ∈ q.manifest.names.get? package,
      q.manifest.resolved.get? canonical = none)
    (hentries : q.manifest.resolved.entries = front ++ (key, d) :: back)
    (hkey : SamePackage key package) (hfront : ∀ e ∈ front, ¬SamePackage e.1 package) :
    StandsIn q package d

/-- The version that a project records for a package under its canonical name. -/
def Records (q : Project) (p : PackageUri) (v : Version) : Prop :=
  ∃ d p', q.manifest.resolved.get? p.canonicalName = some d ∧ d.package = .ok p' ∧ p'.version = v

theorem samePackage_iff {key : String} :
    SamePackage key package ↔ (match Text.after? "package://" key with
      | some rest => decide (Text.before '@' rest = bareName package)
      | none => false) = true := by
  cases h : Text.after? "package://" key with
  | some rest =>
    rw [Text.after?_eq_some_iff] at h
    constructor
    · rintro ⟨rest', hrest', hbare⟩
      rw [hrest', String.append_right_inj] at h
      exact decide_eq_true (h ▸ hbare)
    · intro hbare
      exact ⟨rest, h, of_decide_eq_true hbare⟩
  | none =>
    rw [Text.after?_eq_none_iff] at h
    refine iff_of_false ?_ Bool.false_ne_true
    rintro ⟨rest, hrest, -⟩
    exact h rest hrest

/-- What is found for a package of which nothing is recorded stands in for it. -/
theorem standsIn_iff (hnone : q.manifest.resolved.get? package = none) {d : Dependency} :
    StandsIn q package d ↔ ∃ key, q.dependency? package = some (key, d) := by
  have hentry : q.manifest.resolved.entry? package = none := Option.map_eq_none_iff.mp hnone
  simp only [dependency?, hentry, Option.none_or]
  constructor
  · rintro (⟨hname, hrecorded⟩ | ⟨hname, hentries, hkey, hfront⟩)
    · obtain ⟨⟨key, d'⟩, hd', rfl⟩ := Option.map_eq_some_iff.mp hrecorded
      exact ⟨key, by rw [hname, Option.bind_some, hd', Option.some_or]⟩
    · next front back key =>
      have hnames : (q.manifest.names.get? package).bind q.manifest.resolved.entry? = none :=
        Option.bind_eq_none_iff.mpr fun canonical hcanonical =>
          Option.map_eq_none_iff.mp (hname canonical hcanonical)
      refine ⟨key, ?_⟩
      rw [hnames, Option.none_or, hentries]
      refine List.find?_eq_some_iff_append.mpr ⟨samePackage_iff.mp hkey, _, _, rfl, ?_⟩
      intro e he
      have hfalse := Bool.eq_false_of_not_eq_true (mt samePackage_iff.mpr (hfront e he))
      exact (Bool.not_eq_true' _).mpr hfalse
  · rintro ⟨key, hd⟩
    obtain hd | ⟨hnames, hd⟩ := Option.or_eq_some_iff.mp hd
    · obtain ⟨canonical, hname, hd⟩ := Option.bind_eq_some_iff.mp hd
      exact .named hname (by rw [Dict.get?, hd, Option.map_some])
    · obtain ⟨hkey, front, back, hentries, hfront⟩ := List.find?_eq_some_iff_append.mp hd
      refine .bare (fun canonical hcanonical => ?_) hentries (samePackage_iff.mpr hkey) ?_
      · exact Option.map_eq_none_iff.mpr (Option.bind_eq_none_iff.mp hnames canonical hcanonical)
      · intro e he hsame
        have hfalse := (Bool.not_eq_true' _).mp (hfront e he)
        exact Bool.false_ne_true (hfalse.symm.trans (samePackage_iff.mp hsame))

theorem dependencyVersion?_eq_some {v : Version} : q.dependencyVersion? package = some v ↔
    ∃ key d p', q.dependency? package = some (key, d) ∧ d.package = .ok p' ∧ p'.version = v := by
  constructor
  · intro h
    obtain ⟨⟨key, d⟩, hd, h⟩ := Option.bind_eq_some_iff.mp h
    dsimp only at h
    cases hp' : d.package with
    | error e => rw [hp'] at h; cases h
    | ok p' =>
      rw [hp'] at h
      exact ⟨key, d, p', hd, hp', Option.some.inj h⟩
  · rintro ⟨key, d, p', hd, hp', rfl⟩
    simp [dependencyVersion?, hd, hp', Except.toOption]

theorem dependency?_of_recorded {d : Dependency} (h : q.manifest.resolved.get? package = some d) :
    ∃ key, q.dependency? package = some (key, d) := by
  obtain ⟨⟨key, d'⟩, hentry, rfl⟩ := Option.map_eq_some_iff.mp h
  exact ⟨key, by simp only [dependency?, hentry, Option.some_or]⟩

/-- The version of a package of which a dependency is recorded is that of this dependency. -/
theorem records_iff {p : PackageUri} {d : Dependency} {v : Version}
    (h : q.manifest.resolved.get? p.canonicalName = some d) :
    q.Records p v ↔ q.dependencyVersion? p.canonicalName = some v := by
  obtain ⟨key, hd⟩ := dependency?_of_recorded h
  rw [dependencyVersion?_eq_some]
  constructor
  · rintro ⟨d', p', hd', hp', hv⟩
    obtain rfl := Option.some.inj (h.symm.trans hd')
    exact ⟨key, d, p', hd, hp', hv⟩
  · rintro ⟨key', d', p', hd', hp', hv⟩
    obtain ⟨rfl, rfl⟩ := Prod.mk.inj (Option.some.inj (hd.symm.trans hd'))
    exact ⟨d, p', h, hp', hv⟩

end Project

namespace Store

variable {W : Store} {importer : ModuleId} {q : Project} {uri : String} {p : PackageUri}

/-- A reference to a package leads to the package in a certain version. -/
def PinsTo (W : Store) (importer : ModuleId) (uri : String) (p : PackageUri) (v : Version) : Prop :=
  ∃ target, (locate uri importer W).1 = .ok target ∧
    target.places.map (fun place => ModuleUri.absolute? place.id.text)
      = [some (.package { p with version := v })]

theorem pinned_fst (q : Project) (p : PackageUri) :
    (pinned q p).1 = { p with version := (pinned q p).1.version } := by
  rw [pinned]
  cases q.dependency? p.canonicalName <;> rfl

theorem version_pinned (q : Project) (p : PackageUri) : (pinned q p).1.version
    = (q.dependencyVersion? p.canonicalName).getD p.version := by
  rw [pinned, Project.dependencyVersion?]
  cases q.dependency? p.canonicalName with
  | none => rfl
  | some e => cases h : e.2.package <;> simp [h, Except.toOption]

/-- A reference from a project leads to the version to which the project pins the package. -/
theorem pinsTo_pinned (hproject : (projectOf importer W).1 = some q)
    (huri : ModuleUri.classify uri = .ok (.absolute (.package p))) :
    PinsTo W importer uri p (pinned q p).1.version := by
  have hlocate : (locate uri importer W).1
      = .ok (placesOf W.config (some q) (.package p)) := by
    rw [locate_fst, locateIn, huri, hproject]
    rfl
  have hparse := (ModuleUri.classify_eq_absolute_iff.mp huri).parse_package
  have hversion : Version.parse (pinned q p).1.version.text = .ok (pinned q p).1.version := by
    rw [pinned]
    split
    · exact PackageUri.parse_version_text hparse
    · dsimp only
      split
      next declared hdeclared => exact PackageUri.parse_version_text hdeclared
      · exact PackageUri.parse_version_text hparse
  refine ⟨_, hlocate, ?_⟩
  show [ModuleUri.absolute? (AbsoluteUri.package (pinned q p).1).id.text] = _
  rw [pinned_fst, ModuleUri.absolute?_withVersion huri hversion]

/-- In every project, a package that the project records under its canonical name is found in the
recorded version.  A package is found in another version than the one it is named with only if the
project records that version for it, exactly if no dependency of another version stands in for a
package of which none is recorded. -/
theorem exists_pinsTo (hproject : (projectOf importer W).1 = some q)
    (huri : ModuleUri.classify uri = .ok (.absolute (.package p))) :
    ∃ v, PinsTo W importer uri p v ∧ (∀ w, q.Records p w → w = v) ∧
      ((v ≠ p.version → q.Records p v) ↔
        (q.manifest.resolved.get? p.canonicalName = none →
          ∀ d p', q.StandsIn p.canonicalName d → d.package = .ok p' → p'.version = p.version)) := by
  refine ⟨_, pinsTo_pinned hproject huri, ?_⟩
  rw [version_pinned]
  cases h : q.manifest.resolved.get? p.canonicalName with
  | some d =>
    refine ⟨fun w hw => ?_, fun _ => nofun, fun _ hne => ?_⟩
    · rw [(Project.records_iff h).mp hw, Option.getD_some]
    · cases hv : q.dependencyVersion? p.canonicalName with
      | none => rw [hv] at hne; exact absurd rfl hne
      | some w => exact (Project.records_iff h).mpr hv
  | none =>
    have hnone (w : Version) : ¬q.Records p w := by
      rintro ⟨d, p', hd, -⟩
      exact absurd (h.symm.trans hd) nofun
    refine ⟨fun w hw => absurd hw (hnone w), fun hown _ d p' hd hp' => ?_, fun hall hne => ?_⟩
    · obtain ⟨key, hd⟩ := (Project.standsIn_iff h).mp hd
      have hversion := Project.dependencyVersion?_eq_some.mpr ⟨key, d, p', hd, hp', rfl⟩
      rw [hversion, Option.getD_some] at hown
      exact Classical.byContradiction fun hne => hnone _ (hown hne)
    · cases hv : q.dependencyVersion? p.canonicalName with
      | none => rw [hv] at hne; exact absurd rfl hne
      | some w =>
        obtain ⟨key, d, p', hd, hp', rfl⟩ := Project.dependencyVersion?_eq_some.mp hv
        rw [hv] at hne
        exact absurd (hall rfl d p' ((Project.standsIn_iff h).mpr ⟨key, hd⟩) hp') hne

/-- The package of the farm is found in the version that the farm records for its major version. -/
theorem exists_pinsTo_farm : ∃ v,
    PinsTo farmStore ⟨"file:///w/app/m.pkl"⟩ "package://example.com/birds@1.0.0#/Bird.pkl"
      { birds with version := ⟨1, 0, 0, "", ""⟩, fragment := some "/Bird.pkl" } v ∧
    v = ⟨1, 4, 2, "", ""⟩ := by
  obtain ⟨v, hpins, hrecords, -⟩ := exists_pinsTo projectOf_farmStore
    (show ModuleUri.classify "package://example.com/birds@1.0.0#/Bird.pkl"
      = .ok (.absolute (.package
        { birds with version := ⟨1, 0, 0, "", ""⟩, fragment := some "/Bird.pkl" })) from rfl)
  refine ⟨v, hpins, (hrecords _ ⟨_, birds, rfl, ?_, rfl⟩).symm⟩
  rfl

/-- A project with a dependency on the second major version of a package. -/
def roost : Project where
  dir := ⟨"/w/app"⟩
  manifest := {
    schemaVersion := 1
    resolved := ⟨[("package://example.com/birds@2",
      .remote "projectpackage://example.com/birds@2.0.0" none)]⟩
    names := ⟨[]⟩ }

/-- A store in which the project is registered. -/
def roostStore : Store := (Store.new ⟨[], some ⟨"/cache"⟩, []⟩ .none none).registerProject roost

/-- A module that names the first major version gets the second one, which is recorded for other
references. -/
theorem not_forall_records_of_pinsTo : ¬∀ (W : Store) (importer : ModuleId) (q : Project)
    (uri : String) (p : PackageUri) (v : Version), (projectOf importer W).1 = some q →
    ModuleUri.classify uri = .ok (.absolute (.package p)) → PinsTo W importer uri p v →
    v ≠ p.version → q.Records p v := by
  intro h
  have hproject : (projectOf ⟨"file:///w/app/m.pkl"⟩ roostStore).1 = some roost :=
    projectOf_registerProject (show Store.projectDir? _ _ = some ⟨"/w/app"⟩ from rfl) (by decide)
  have huri : ModuleUri.classify "package://example.com/birds@1.0.0#/Bird.pkl" = .ok (.absolute
      (.package { birds with version := ⟨1, 0, 0, "", ""⟩, fragment := some "/Bird.pkl" })) := rfl
  obtain ⟨d, p', hd, -⟩ := h _ _ _ _ _ _ hproject huri (pinsTo_pinned hproject huri) (by
    rw [version_pinned]
    decide +kernel)
  have hnone : roost.manifest.resolved.get? "package://example.com/birds@1" = none := by decide
  exact absurd (hnone.symm.trans hd) nofun

end Store

end PklAnalysis
