import PklAnalysis.Proofs.Modules.Directories

/-!
# Two references to one dependency

A module of a dependency can be referred to by the name of the dependency or by the URI of its package.
For a published package both references lead to the module under the same identity.  For a dependency
that is a project in another directory they never do: by the name it is a file, by the URI a module of
the package.
-/

namespace PklAnalysis

namespace Text

/-- A text without the blanks at its end. -/
def trimEnd (s : String) : String := String.ofList (s.toList.rdropWhile isBlank)

theorem dropWhile_append_slash (back front : List Char) :
    (back ++ '/' :: front).dropWhile isBlank = back.dropWhile isBlank ++ '/' :: front := by
  have hslash : ('/' :: front).dropWhile isBlank = '/' :: front :=
    List.dropWhile_cons_of_neg (by decide)
  rw [List.dropWhile_append, hslash]
  split
  · next hempty => rw [List.isEmpty_iff.mp hempty, List.nil_append]
  · rfl

/-- Blanks behind a slash are dropped, and none in front of it if the text does not start with one. -/
theorem trim_append {front : String} (s : String) (h : ∃ c ∈ front.toList.head?, ¬isBlank c) :
    trim (front ++ "/" ++ s) = front ++ "/" ++ trimEnd s := by
  obtain ⟨c, hc, hblank⟩ := h
  have hhead : (front ++ "/" ++ s).toList.dropWhile isBlank = (front ++ "/" ++ s).toList := by
    refine dropWhile_isBlank fun d hd => ?_
    have hfirst : (front ++ "/" ++ s).toList.head? = some c := by simp_all
    rwa [← Option.some.inj (hfirst.symm.trans hd)]
  have hreverse : (front ++ "/" ++ s).toList.reverse
      = s.toList.reverse ++ '/' :: front.toList.reverse := by simp
  rw [trim, hhead, hreverse, dropWhile_append_slash, trimEnd, List.rdropWhile, ← String.toList_inj]
  simp

end Text

/-! ## How the references are read -/

namespace ModuleUri

theorem classify_dependency {name : String} (hne : name ≠ "") (hslash : '/' ∉ name.toList)
    (path : String) : classify ("@" ++ name ++ "/" ++ path)
      = .ok (.dependency name ("/" ++ Text.trimEnd path)) := by
  have htrim := Text.trim_append path (⟨'@', by simp, by decide⟩ :
    ∃ c ∈ ("@" ++ name).toList.head?, ¬Text.isBlank c)
  have hafter : Text.after? "@" ("@" ++ name ++ "/" ++ Text.trimEnd path)
      = some (name ++ "/" ++ Text.trimEnd path) :=
    Text.after?_eq_some_iff.mpr (by simp [String.append_assoc])
  have hcut : Text.cut? '/' (name ++ "/" ++ Text.trimEnd path) = some (name, Text.trimEnd path) :=
    Text.cut?_eq_some_iff.mpr ⟨by simp, hslash⟩
  have hnonempty : "@" ++ name ++ "/" ++ Text.trimEnd path ≠ "" := by
    intro h
    have hlist := congrArg String.toList h
    simp at hlist
  have hdependency : dependencyOf (name ++ "/" ++ Text.trimEnd path)
      = some (.dependency name ("/" ++ Text.trimEnd path)) := by
    rw [dependencyOf, hcut]
    exact if_neg hne
  simp only [classify, htrim, if_neg hnonempty, hafter, hdependency]

/-- The URI of a module of a package that has been read is read as that module, without the blanks at
its end. -/
theorem classify_package {uri : String} {p : PackageUri} (hp : PackageUri.parse uri = .ok p)
    (path : String) : classify ({ p with fragment := some ("/" ++ path) } : PackageUri).text
      = .ok (.absolute (.package { p with fragment := some ("/" ++ Text.trimEnd path) })) := by
  let q (path : String) : PackageUri := { p with fragment := some ("/" ++ path) }
  obtain ⟨rest, path', version, fragment, -, hspells⟩ := PackageUri.exists_spells_of_parse hp
  have hparse : PackageUri.parse (q (Text.trimEnd path)).text = .ok (q (Text.trimEnd path)) := by
    have hslash : Text.startsWith "/" ("/" ++ Text.trimEnd path) = true :=
      Text.startsWith_iff.mpr ⟨_, rfl⟩
    have hne : "/" ++ Text.trimEnd path ≠ "" := by
      intro h
      have hlist := congrArg String.toList h
      simp at hlist
    have hfragment : PackageUri.fragmentOf (some ("/" ++ Text.trimEnd path))
        = .ok (some ("/" ++ Text.trimEnd path)) := by
      rw [PackageUri.fragmentOf, if_neg hne, if_pos hslash]
    rw [PackageUri.parse, PackageUri.afterScheme?_text]
    refine mapError_eq_ok.mpr (PackageUri.parts_eq_ok_iff.mpr
      ⟨path', p.version.text, some ("/" ++ Text.trimEnd path), ?_⟩)
    exact ⟨by simp [PackageUri.body, q, PackageUri.name], hspells.name, hspells.authority,
      hspells.path, hspells.body.version, hfragment⟩
  have htext (path : String) : (q path).text = p.baseUri ++ "#" ++ "/" ++ path := by
    simp only [PackageUri.text, q, PackageUri.baseUri, String.append_assoc]
  have hhead : ∃ c ∈ (p.baseUri ++ "#").toList.head?, ¬Text.isBlank c :=
    ⟨'p', by simp [PackageUri.baseUri], by decide⟩
  have htrim : Text.trim (q path).text = (q (Text.trimEnd path)).text := by
    rw [htext, htext, Text.trim_append path hhead]
  have htrimmed : Text.IsTrimmed (q (Text.trimEnd path)).text := htrim ▸ Text.isTrimmed_trim _
  refine classify_eq_absolute_iff.mpr ?_
  show Reads (Text.trim (q path).text) _
  rw [htrim]
  exact reads_package htrimmed hparse

end ModuleUri

/-! ## Where the references lead -/

namespace Store

variable {W : Store} {importer : ModuleId} {q : Project}

theorem pinned_withFragment (q : Project) (p : PackageUri) (fragment : Option String) :
    (pinned q { p with fragment }).1 = { (pinned q p).1 with fragment } := by
  have hname : ({ p with fragment } : PackageUri).canonicalName = p.canonicalName := rfl
  rw [pinned, pinned, hname]
  cases q.dependency? p.canonicalName <;> rfl

theorem text_withFragment (p : PackageUri) (f : String) :
    ({ p with fragment := some f } : PackageUri).text = p.baseUri ++ "#" ++ f := rfl

/-- A package that a project declares under its canonical name is pinned to the declared version. -/
theorem pinned_of_declared {d : Dependency} {p : PackageUri}
    (hrecorded : q.manifest.resolved.get? p.canonicalName = some d) (hp : d.package = .ok p) :
    (pinned q p).1 = p := by
  obtain ⟨⟨key, d'⟩, hentry, rfl⟩ := Option.map_eq_some_iff.mp hrecorded
  have hdependency : q.dependency? p.canonicalName = some (key, d') := by
    simp only [Project.dependency?]
    rw [hentry, Option.some_or]
  rw [pinned, hdependency]
  simp only [hp]

theorem ids_package (config : GraphConfig) (q : Project) (p : PackageUri) (f : String) :
    (placesOf config (some q) (.package { p with fragment := some f })).places.map (·.id)
      = [⟨(pinned q p).1.baseUri ++ "#" ++ f⟩] := by
  have hpinned := pinned_withFragment q p (some f)
  show [(AbsoluteUri.package (pinned q { p with fragment := some f }).1).id] = _
  rw [hpinned, AbsoluteUri.id, text_withFragment]

/-- Two references lead to places with the same identities. -/
def LeadAlike (W : Store) (importer : ModuleId) (uri uri' : String) : Prop :=
  ∃ target target', (locate uri importer W).1 = .ok target ∧
    (locate uri' importer W).1 = .ok target' ∧
    target.places.map (·.id) = target'.places.map (·.id)

/-- A dependency that a project declares as a published package, pinned to the version of a package. -/
def IsPublishedAs (q : Project) (p : PackageUri) : Dependency → Prop
  | .remote uri _ => ∃ p', PackageUri.parse uri = .ok p' ∧ (pinned q p').1.baseUri = p.baseUri
  | .localProject .. => False

/-- By the name of a dependency the same module is found as in a package exactly if the dependency is
published as this package. -/
theorem exists_dependencyPlaces_iff {name key : String} {d : Dependency} {p : PackageUri}
    (config : GraphConfig) (uri path : String) (importer : ModuleId) (hd : q.dependency? name = some (key, d)) :
    (∃ target, dependencyPlaces config (some q) uri name path importer = .ok target ∧
      target.places.map (·.id) = [⟨p.baseUri ++ "#" ++ path⟩]) ↔ IsPublishedAs q p d := by
  simp only [dependencyPlaces, hd]
  cases d with
  | localProject localUri localPath =>
    refine iff_of_false ?_ id
    rintro ⟨target, htarget, hids⟩
    dsimp only [Project.localDir?] at htarget
    split at htarget
    · obtain rfl := Except.ok.inj htarget
      have htext := congrArg (·.map fun id => id.text.toList) hids
      simp [Target.single, AbsoluteUri.fileId, PackageUri.baseUri] at htext
    · cases htarget
  | remote remoteUri sha256 =>
    dsimp only [Project.localDir?, Dependency.package, Dependency.uri]
    rw [IsPublishedAs]
    constructor
    · rintro ⟨target, htarget, hids⟩
      split at htarget
      · next p' hp' =>
        obtain rfl := Except.ok.inj htarget
        rw [ids_package] at hids
        exact ⟨p', hp', by simpa using hids⟩
      · cases htarget
    · rintro ⟨p', hp', hbase⟩
      rw [hp']
      exact ⟨_, rfl, by rw [ids_package, hbase]⟩

/-- A name leads to the dependency recorded under the name itself, or else to the one recorded under
the canonical name that it stands for. -/
theorem dependency?_of_names {name canonical : String} {d : Dependency}
    (hname : q.manifest.names.get? name = some canonical)
    (hrecorded : q.manifest.resolved.get? canonical = some d) :
    ∃ key, q.dependency? name = some (key, (q.manifest.resolved.get? name).getD d) := by
  obtain ⟨⟨key, d'⟩, hentry, rfl⟩ := Option.map_eq_some_iff.mp hrecorded
  simp only [Project.dependency?, hname, Option.bind_some, hentry]
  rw [Dict.get?]
  cases q.manifest.resolved.entry? name with
  | none => exact ⟨key, rfl⟩
  | some e => exact ⟨e.1, rfl⟩

/-- The name of a dependency and the URI of the package that a project declares for it lead to the
same module exactly if the dependency to which the name leads is published as this package.  Unless
there is another dependency recorded under the name itself, that is so exactly if the dependency is a
published one. -/
theorem leadAlike_iff {name path : String} {d : Dependency} {p : PackageUri}
    (hproject : (projectOf importer W).1 = some q) (hne : name ≠ "") (hslash : '/' ∉ name.toList)
    (hname : q.manifest.names.get? name = some p.canonicalName)
    (hrecorded : q.manifest.resolved.get? p.canonicalName = some d) (hp : d.package = .ok p) :
    (W.LeadAlike importer ("@" ++ name ++ "/" ++ path)
        ({ p with fragment := some ("/" ++ path) } : PackageUri).text
      ↔ IsPublishedAs q p ((q.manifest.resolved.get? name).getD d)) ∧
    (q.manifest.resolved.get? name = none →
      (IsPublishedAs q p ((q.manifest.resolved.get? name).getD d)
        ↔ ∃ uri sha256, d = .remote uri sha256)) := by
  obtain ⟨key, hd⟩ := dependency?_of_names hname hrecorded
  have hpinned := pinned_of_declared hrecorded hp
  constructor
  · have hbyName : (locate ("@" ++ name ++ "/" ++ path) importer W).1
        = dependencyPlaces W.config (some q) ("@" ++ name ++ "/" ++ path) name
          ("/" ++ Text.trimEnd path) importer := by
      rw [locate_fst, locateIn, ModuleUri.classify_dependency hne hslash, hproject]
      rfl
    have hbyPackage :
        (locate ({ p with fragment := some ("/" ++ path) } : PackageUri).text importer W).1
          = .ok (placesOf W.config (some q)
            (.package { p with fragment := some ("/" ++ Text.trimEnd path) })) := by
      rw [locate_fst, locateIn, ModuleUri.classify_package hp, hproject]
      rfl
    have hids := ids_package W.config q p ("/" ++ Text.trimEnd path)
    rw [hpinned] at hids
    rw [← exists_dependencyPlaces_iff W.config ("@" ++ name ++ "/" ++ path)
      ("/" ++ Text.trimEnd path) importer hd, ← hbyName, ← hids]
    constructor
    · rintro ⟨target, target', htarget, htarget', hsame⟩
      obtain rfl := Except.ok.inj (hbyPackage.symm.trans htarget')
      exact ⟨target, htarget, hsame⟩
    · rintro ⟨target, htarget, hsame⟩
      exact ⟨target, _, htarget, hbyPackage, hsame⟩
  · intro hnone
    rw [hnone, Option.getD_none]
    cases d with
    | localProject uri path => simp [IsPublishedAs]
    | remote uri sha256 =>
      exact iff_of_true ⟨p, hp, congrArg PackageUri.baseUri hpinned⟩ ⟨uri, sha256, rfl⟩

/-- A project with a published dependency and one that is a project in another directory. -/
def farm : Project where
  dir := ⟨"/w/app"⟩
  manifest := {
    schemaVersion := 1
    resolved := ⟨[("package://example.com/birds@1",
        .remote "projectpackage://example.com/birds@1.4.2" none),
      ("package://example.com/fruit@2",
        .localProject "projectpackage://example.com/fruit@2.0.1" "../fruit")]⟩
    names := ⟨[("birds", "package://example.com/birds@1"),
      ("fruit", "package://example.com/fruit@2")]⟩ }

/-- A store in which the project is registered. -/
def farmStore : Store := (Store.new ⟨[], some ⟨"/cache"⟩, []⟩ .none none).registerProject farm

def birds : PackageUri := ⟨"example.com", "/birds", ⟨1, 4, 2, "", ""⟩, none⟩

theorem projectOf_farmStore : (projectOf ⟨"file:///w/app/m.pkl"⟩ farmStore).1 = some farm :=
  projectOf_registerProject (show Store.projectDir? _ _ = some ⟨"/w/app"⟩ from rfl) (by decide)

/-- Both references to a module of the published dependency lead alike. -/
theorem leadAlike_birds :
    farmStore.LeadAlike ⟨"file:///w/app/m.pkl"⟩ "@birds/Bird.pkl"
      "package://example.com/birds@1.4.2#/Bird.pkl" := by
  have hname : farm.manifest.names.get? "birds" = some birds.canonicalName := rfl
  have h := @leadAlike_iff _ _ _ "birds" "Bird.pkl" _ birds projectOf_farmStore (by decide)
    (by decide) hname rfl rfl
  exact h.1.mpr ((h.2 rfl).mpr ⟨_, _, rfl⟩)

/-- The references to a module of the other dependency lead to a file and to a module of a
package. -/
theorem not_leadAlike_fruit :
    ¬farmStore.LeadAlike ⟨"file:///w/app/m.pkl"⟩ "@fruit/Apple.pkl"
      "package://example.com/fruit@2.0.1#/Apple.pkl" := by
  have hbyName : ((locate "@fruit/Apple.pkl" ⟨"file:///w/app/m.pkl"⟩ farmStore).1.toOption.map
      fun target => target.places.map (·.id)) = some [⟨"file:///w/fruit/Apple.pkl"⟩] := by
    decide
  have hbyPackage : ((locate "package://example.com/fruit@2.0.1#/Apple.pkl"
      ⟨"file:///w/app/m.pkl"⟩ farmStore).1.toOption.map fun target => target.places.map (·.id))
        = some [⟨"package://example.com/fruit@2.0.1#/Apple.pkl"⟩] := by
    decide
  rintro ⟨target, target', htarget, htarget', hids⟩
  rw [htarget] at hbyName
  rw [htarget'] at hbyPackage
  have hsame := (Option.some.inj hbyName).symm.trans (hids.trans (Option.some.inj hbyPackage))
  exact absurd hsame (by decide)

end Store

end PklAnalysis
