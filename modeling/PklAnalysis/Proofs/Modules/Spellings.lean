import PklAnalysis.Proofs.Modules.ArisingStores
import PklAnalysis.Proofs.Modules.PathSteps

/-!
# Spellings of file paths

Paths are compared by their components, but the identity of a file is made of the text of its path.
Two spellings of one file thus have the same identity only if they are the same text, and two
spellings of a source root lead to the same modules only if they are the same text up to a slash at
the end.
-/

namespace PklAnalysis

namespace ModuleUri

/-- Two URIs are the same if they are written the same, but for the spelling of a file's path. -/
def Same : ModuleUri → ModuleUri → Prop
  | .absolute (.file p), .absolute (.file q) => p == q
  | u, v => u = v

theorem Same.refl (u : ModuleUri) : u.Same u := by
  unfold Same
  split
  · exact (Path.beq_iff _ _).mpr rfl
  · rfl

/-- What is the same as the URI of a file is the URI of a file. -/
theorem Same.exists_file {p : Path} {v : ModuleUri} (h : (absolute (.file p)).Same v) :
    ∃ q, v = absolute (.file q) := by
  unfold Same at h
  split at h
  · next q _ => exact ⟨q, rfl⟩
  · exact ⟨p, h.symm⟩

/-- The URIs of two files are written the same exactly if the paths are the same text. -/
theorem absolute_file_inj {p q : Path} :
    absolute (.file p) = absolute (.file q) ↔ p.text = q.text := by
  obtain ⟨p⟩ := p
  obtain ⟨q⟩ := q
  simp

theorem absolute?_of_classify {uri : String} {u : AbsoluteUri} (h : classify uri = .ok (.absolute u)) :
    absolute? uri = some u := by
  rw [absolute?, h]

end ModuleUri

theorem AbsoluteUri.fileId_inj {p q : Path} : fileId p = fileId q ↔ p.text = q.text := by
  simp [fileId]

/-- Of two URIs that are the same, the identities are the same exactly if the URIs are written the
same. -/
theorem ModuleUri.Same.id?_eq_iff {u v : ModuleUri} (h : u.Same v) : u.id? = v.id? ↔ u = v := by
  unfold Same at h
  split at h
  · next p q =>
    obtain ⟨p⟩ := p
    obtain ⟨q⟩ := q
    simp [id?, AbsoluteUri.id, AbsoluteUri.fileId_inj]
  · exact iff_of_true (h ▸ rfl) h

namespace Store

variable {W : Store}

/-! ## Modules under another spelling -/

theorem idOf_of_absolute? {uri : String} {u : AbsoluteUri} (h : ModuleUri.absolute? uri = some u) :
    idOf uri = u.id := by rw [idOf, h]

theorem locate_of_file {uri : String} {q : Path} (h : ModuleUri.absolute? uri = some (.file q))
    (importer : ModuleId) (W : Store) :
    (locate uri importer W).1 = .ok (.single (AbsoluteUri.fileId q) (some q)) := by
  rw [locate_fst, locateIn, ModuleUri.classify_of_absolute? h]
  rfl

/-- A module stored under the path of its file is found under a path exactly if that is written the
same. -/
theorem resolve_insertSource_iff (hW : W.IsKeyed) {m : Source.Module} {uri : String} {p q : Path}
    (hm : ModuleUri.absolute? m.uri = some (.file p))
    (huri : ModuleUri.absolute? uri = some (.file q)) (importer : ModuleId) :
    (resolve uri importer (W.insertSource m)).1 = .ok (W.treeOf m) ↔ p.text = q.text := by
  have hid : (W.treeOf m).id = AbsoluteUri.fileId p := (id_treeOf W m).trans (idOf_of_absolute? hm)
  rw [resolve_fst, locate_of_file huri, answer_eq_ok_iff]
  constructor
  · rintro ⟨target, htarget, hfetch⟩
    obtain rfl := Except.ok.inj htarget
    obtain ⟨place, hplace, htree⟩ := exists_place_of_fetch (hW.insertSource m) hfetch
    rw [List.mem_singleton.mp hplace, hid] at htree
    exact AbsoluteUri.fileId_inj.mp htree
  · intro h
    refine ⟨_, rfl, fetch_of_tree? ?_ _⟩
    show (W.insertSource m).tree? (AbsoluteUri.fileId q) = _
    rw [← AbsoluteUri.fileId_inj.mpr h, ← hid, id_treeOf, tree?_insertSource_self]

/-! ## Source roots under another spelling -/

/-- The store with other source roots. -/
def withRoots (W : Store) (sourceRoots : List Path) : Store :=
  { W with config := { W.config with sourceRoots } }

theorem projectOf_withRoots (importer : ModuleId) (W : Store) (roots : List Path) :
    (projectOf importer (W.withRoots roots)).1 = (projectOf importer W).1 := by
  rw [projectOf_eq, projectOf_eq]
  show (projectIn W (W.projectDir? importer) (W.withRoots roots)).1 = _
  cases W.projectDir? importer <;> rfl

theorem resolve_withRoots (uri : String) (importer : ModuleId) (W : Store) (roots : List Path) :
    (resolve uri importer (W.withRoots roots)).1
      = W.answer uri importer (locateIn { W.config with sourceRoots := roots }
        (projectOf importer W).1 uri importer) := by
  rw [resolve_fst, locate_fst, projectOf_withRoots]
  rfl

/-- Two source roots lead to the same places if they are the same and open with the same text. -/
theorem locateIn_of_opening {config : GraphConfig} {before after : List Path} {r r' : Path}
    (hr : (r == r') = true) (hopening : r.opening = r'.opening) (project : Option Project)
    (uri : String) (importer : ModuleId) :
    locateIn { config with sourceRoots := before ++ r' :: after } project uri importer
      = locateIn { config with sourceRoots := before ++ r :: after } project uri importer := by
  have hbelow (dir : Path) : ModuleUri.belowRoots? (before ++ r' :: after) dir
      = ModuleUri.belowRoots? (before ++ r :: after) dir := by
    simp only [ModuleUri.belowRoots?, List.findSome?_append, List.findSome?_cons, Path.below?,
      (Path.beq_iff r r').mp hr]
  have hplaces (u : AbsoluteUri) :
      placesOf { config with sourceRoots := before ++ r' :: after } project u
        = placesOf { config with sourceRoots := before ++ r :: after } project u := by
    cases u with
    | modulePath path =>
      have hrelative : Text.startsWith "/" (relativeText path) = false :=
        Path.startsWith_withoutSlashes path
      simp only [placesOf, List.map_append, List.map_cons, Path.join_eq _ hrelative, hopening]
    | _ => rfl
  have hresolve (path : String) : ModuleUri.resolveRelative path importer (before ++ r' :: after)
      = ModuleUri.resolveRelative path importer (before ++ r :: after) := by
    simp only [ModuleUri.resolveRelative, hbelow]
  have hdependency (name path : String) :
      dependencyPlaces { config with sourceRoots := before ++ r' :: after } project uri name path
        importer = dependencyPlaces { config with sourceRoots := before ++ r :: after } project uri
        name path importer := by
    simp only [dependencyPlaces, hplaces]
  simp only [locateIn, hplaces, hresolve, hdependency]

/-- The identity of a file is that of a description whose URI is the identity, unless this ends with
a blank. -/
theorem idOf_fileId {p : Path} (hp : ∀ c ∈ (AbsoluteUri.fileId p).text.toList.getLast?,
    ¬Text.isBlank c) :
    idOf (AbsoluteUri.fileId p).text = AbsoluteUri.fileId p := by
  have htrimmed : Text.IsTrimmed (AbsoluteUri.fileId p).text := by
    refine ⟨?_, hp⟩
    rw [AbsoluteUri.fileId, String.toList_append]
    simp
    decide
  rw [idOf]
  split
  · next u hu =>
    have hreads := ModuleUri.classify_eq_absolute_iff.mp (ModuleUri.classify_of_absolute? hu)
    rw [htrimmed.trim_eq] at hreads
    obtain ⟨scheme, rest, hcut, hscheme⟩ := hreads.scheme
    have hcut' : Text.cut? ':' (AbsoluteUri.fileId p).text = some ("file", "//" ++ p.text) :=
      Text.cut?_eq_some_iff.mpr ⟨by simp [AbsoluteUri.fileId], by decide⟩
    obtain ⟨rfl, rfl⟩ := Prod.mk.inj (Option.some.inj (hcut.symm.trans hcut'))
    simp only [ModuleUri.schemeOf, Text.after?_eq_some_iff.mpr rfl, Option.getD_some] at hscheme
    split at hscheme
    · rw [← Except.ok.inj hscheme, AbsoluteUri.id]
    · cases hscheme
  · rfl

/-- A module that imports `x.pkl`. -/
def neighbour : ModuleId := ⟨"modulepath:/m.pkl"⟩

theorem locate_neighbour {r : Path} (hroots : W.config.sourceRoots = [r]) :
    (locate "x.pkl" neighbour W).1 = .ok ⟨[⟨AbsoluteUri.fileId ⟨r.opening ++ "x.pkl"⟩,
      some ⟨r.opening ++ "x.pkl"⟩⟩, ⟨⟨"modulepath:/x.pkl"⟩, none⟩], none⟩ := by
  have hresolve : ModuleUri.resolveRelative "x.pkl" neighbour [r] = .ok (.modulePath "/x.pkl") := by
    rfl
  have hrelative : relativeText "/x.pkl" = "x.pkl" := by decide
  have hjoin : r.join "x.pkl" = ⟨r.opening ++ "x.pkl"⟩ := Path.join_eq r (by decide)
  have hclassify : ModuleUri.classify "x.pkl" = .ok (.relative "x.pkl") := rfl
  simp only [locate_fst, locateIn, hclassify, hroots, bind, Except.bind, hresolve, placesOf,
    List.map_cons, List.map_nil, hrelative, hjoin]
  rfl

/-- There is a store with one source root and a module under it. -/
theorem exists_rooted (r : Path) : ∃ W : Store, W.Arises ∧ W.config.sourceRoots = [r] ∧
    ∃ t, W.tree? (AbsoluteUri.fileId ⟨r.opening ++ "x.pkl"⟩) = some t := by
  have hid : idOf (AbsoluteUri.fileId ⟨r.opening ++ "x.pkl"⟩).text
      = AbsoluteUri.fileId ⟨r.opening ++ "x.pkl"⟩ := by
    have htext : (AbsoluteUri.fileId ⟨r.opening ++ "x.pkl"⟩).text.toList
        = ("file://" ++ r.opening ++ "x.pk").toList ++ ['l'] := by
      simp [AbsoluteUri.fileId]
    refine idOf_fileId fun c hc => ?_
    rw [htext, List.getLast?_concat] at hc
    rw [← Option.mem_some.mp hc]
    decide
  have ht := tree?_insertSource_self (Store.new ⟨[r], none, []⟩ .none none)
    (bareModule (AbsoluteUri.fileId ⟨r.opening ++ "x.pkl"⟩).text)
  rw [bareModule, hid] at ht
  exact ⟨_, (Arises.new _ _ _).insertSource _, rfl, _, ht⟩

/-- The module under a source root is found under another one only if this opens with the same
text. -/
theorem opening_of_resolve {r r' : Path} (hW : W.IsKeyed) (hroots : W.config.sourceRoots = [r])
    {t : Tree} (ht : W.tree? (AbsoluteUri.fileId ⟨r.opening ++ "x.pkl"⟩) = some t)
    (h : (resolve "x.pkl" neighbour (W.withRoots [r'])).1 = (resolve "x.pkl" neighbour W).1) :
    r.opening = r'.opening := by
  have hfound : (resolve "x.pkl" neighbour W).1 = .ok t := by
    rw [resolve_fst, locate_neighbour hroots, answer_eq_ok_iff]
    exact ⟨_, rfl, fetch_of_tree? ht _⟩
  have hroots' : (W.withRoots [r']).config.sourceRoots = [r'] := rfl
  rw [hfound, resolve_fst, locate_neighbour hroots', answer_eq_ok_iff] at h
  obtain ⟨target, htarget, hfetch⟩ := h
  obtain rfl := Except.ok.inj htarget
  obtain ⟨place, hplace, hid⟩ := exists_place_of_fetch (W := W.withRoots [r']) hW hfetch
  rw [hW _ _ ht] at hid
  simp only [List.mem_cons, List.not_mem_nil, or_false] at hplace
  rcases hplace with rfl | rfl
  · simpa [AbsoluteUri.fileId] using hid
  · have htext := congrArg (·.text.toList) hid
    simp [AbsoluteUri.fileId] at htext

/-- Two source roots that are the same lead relative imports to the same modules exactly if they open
with the same text. -/
theorem resolve_withRoots_iff {r r' : Path} (hr : (r == r') = true) :
    (∀ W : Store, W.Arises → ∀ before after, W.config.sourceRoots = before ++ r :: after →
      ∀ uri path importer, ModuleUri.classify uri = .ok (.relative path) →
        (resolve uri importer (W.withRoots (before ++ r' :: after))).1
          = (resolve uri importer W).1) ↔ r.opening = r'.opening := by
  constructor
  · intro h
    obtain ⟨W, hW, hroots, t, ht⟩ := exists_rooted r
    exact opening_of_resolve hW.isFiled.keyed hroots ht
      (h W hW [] [] hroots "x.pkl" "x.pkl" neighbour rfl)
  · intro hopening W _ before after hroots uri path importer _
    rw [resolve_withRoots, locateIn_of_opening hr hopening, ← hroots, resolve_fst, locate_fst]

/-! ## Which spellings do not matter -/

/-- URIs that are the same have the same identity exactly if they are written the same.  Therefore a
module stored under one spelling of the path of its file is found under another one, and source roots
that are the same lead relative imports to the same modules, exactly if the spellings are the same
text, for source roots up to a slash at the end. -/
theorem spelling_matters {uri uri' : String} {u v : ModuleUri} (hu : ModuleUri.classify uri = .ok u)
    (hv : ModuleUri.classify uri' = .ok v) (huv : u.Same v) {r r' : Path} (hr : (r == r') = true) :
    (u.id? = v.id? ↔ u = v) ∧
    (∀ p, u = .absolute (.file p) → ∀ W : Store, W.Arises → ∀ m importer, m.uri = uri →
      ((resolve uri' importer (W.insertSource m)).1 = .ok (W.treeOf m) ↔ u = v)) ∧
    ((∀ W : Store, W.Arises → ∀ before after, W.config.sourceRoots = before ++ r :: after →
      ∀ ref path importer, ModuleUri.classify ref = .ok (.relative path) →
        (resolve ref importer (W.withRoots (before ++ r' :: after))).1
          = (resolve ref importer W).1) ↔ r.opening = r'.opening) := by
  refine ⟨huv.id?_eq_iff, ?_, resolve_withRoots_iff hr⟩
  rintro p rfl W hW m importer rfl
  obtain ⟨q, rfl⟩ := huv.exists_file
  rw [ModuleUri.absolute_file_inj]
  exact resolve_insertSource_iff hW.isFiled.keyed (ModuleUri.absolute?_of_classify hu)
    (ModuleUri.absolute?_of_classify hv) importer

/-- A store with a source root and a module under it. -/
def shelved (root uri : String) : Store :=
  (Store.new ⟨[⟨root⟩], none, []⟩ .none none).insertSource (bareModule uri)

/-- The spellings of a URI and of a source root that do not matter. -/
theorem spelling_matters_plain :
    (ModuleUri.absolute (.file ⟨"/w/src/b.pkl"⟩)).id?
        = (ModuleUri.absolute (.file ⟨"/w/src/b.pkl"⟩)).id? ∧
      (resolve "file:/w/src/b.pkl" ⟨"file:///w/m.pkl"⟩ (shelved "/w/src" "file:///w/src/b.pkl")).1
        = .ok ((Store.new ⟨[⟨"/w/src"⟩], none, []⟩ .none none).treeOf
          (bareModule "file:///w/src/b.pkl")) ∧
      (resolve "b.pkl" ⟨"file:///w/src/a.pkl"⟩
          ((shelved "/w/src" "file:///w/src/b.pkl").withRoots [⟨"/w/src/"⟩])).1
        = (resolve "b.pkl" ⟨"file:///w/src/a.pkl"⟩ (shelved "/w/src" "file:///w/src/b.pkl")).1 := by
  obtain ⟨hids, hstored, hroots⟩ := @spelling_matters "file:///w/src/b.pkl" "file:/w/src/b.pkl"
    (.absolute (.file ⟨"/w/src/b.pkl"⟩)) _ rfl rfl (ModuleUri.Same.refl _) ⟨"/w/src"⟩ ⟨"/w/src/"⟩
    (by decide)
  refine ⟨hids.mpr rfl, ?_, ?_⟩
  · exact (hstored _ rfl _ (.new _ _ _) (bareModule "file:///w/src/b.pkl") _ rfl).mpr rfl
  · have hW : (shelved "/w/src" "file:///w/src/b.pkl").Arises := (Arises.new _ _ _).insertSource _
    exact hroots.mpr (by decide) _ hW [] [] rfl "b.pkl" "b.pkl" ⟨"file:///w/src/a.pkl"⟩ rfl

/-- With a repeated slash the URI of a file is the same and has another identity, the module stored
under it is not found under the usual spelling, and a source root does not lead to the module that it
leads to under its usual spelling. -/
theorem not_found_with_repeated_slash :
    ModuleUri.classify "file:///w//src/b.pkl" = .ok (.absolute (.file ⟨"/w//src/b.pkl"⟩)) ∧
      ModuleUri.classify "file:///w/src/b.pkl" = .ok (.absolute (.file ⟨"/w/src/b.pkl"⟩)) ∧
      ModuleUri.Same (.absolute (.file ⟨"/w//src/b.pkl"⟩)) (.absolute (.file ⟨"/w/src/b.pkl"⟩)) ∧
      (ModuleUri.absolute (.file ⟨"/w//src/b.pkl"⟩)).id?
        ≠ (ModuleUri.absolute (.file ⟨"/w/src/b.pkl"⟩)).id? ∧
      (resolve "file:///w/src/b.pkl" ⟨"file:///w/m.pkl"⟩ (shelved "/w" "file:///w//src/b.pkl")).1
        = .error (.notFound "file:///w/src/b.pkl" ⟨"file:///w/m.pkl"⟩) ∧
      ((⟨"/w/src"⟩ : Path) == ⟨"/w//src"⟩) = true ∧
      (resolve "b.pkl" ⟨"file:///w/src/a.pkl"⟩ (shelved "/w/src" "file:///w/src/b.pkl")).1.isOk ∧
      (resolve "b.pkl" ⟨"file:///w/src/a.pkl"⟩ (shelved "/w//src" "file:///w/src/b.pkl")).1
        = .error (.notFound "b.pkl" ⟨"file:///w/src/a.pkl"⟩) :=
  ⟨rfl, rfl, (by decide : ((⟨"/w//src/b.pkl"⟩ : Path) == ⟨"/w/src/b.pkl"⟩) = true), by decide, rfl,
    by decide, rfl, rfl⟩

end Store

end PklAnalysis
