import PklAnalysis.Modules.Store
import PklAnalysis.Proofs.Modules.VersionTexts

/-!
# Identities are read back

A module is kept under the identity that its URI has, and this identity is read as a URI again
wherever the module imports another.  The two readings agree: the identity of an absolute URI is
classified as that URI.

Each scheme prints less than it reads.  Blanks around the URI, slashes after `modulepath:`, the
`project` in front of `package` and an empty fragment are all dropped, and what is left is read as
before because the signs between the parts stay where they were found: no `#` before the first
one, no `@` in a version, no `/` in an authority.
-/

namespace PklAnalysis

open Text

namespace Version

theorem bounds_of_isTextChar {c : Char} (h : isTextChar c) : 43 ≤ c.toNat ∧ c.toNat ≤ 122 := by
  simp only [isTextChar, isIdentifierChar, Char.isAlphanum, Char.isAlpha, Char.isUpper,
    Char.isLower, Char.isDigit, Bool.or_eq_true, Bool.and_eq_true, decide_eq_true_eq,
    UInt32.le_iff_toNat_le, ge_iff_le] at h
  change (((((65 ≤ c.toNat ∧ c.toNat ≤ 90) ∨ (97 ≤ c.toNat ∧ c.toNat ≤ 122)) ∨
    (48 ≤ c.toNat ∧ c.toNat ≤ 57)) ∨ c = '-') ∨ c = '.') ∨ c = '+' at h
  obtain ((((h | h) | h) | rfl) | rfl) | rfl := h
  · omega
  · omega
  · omega
  all_goals decide

theorem not_isBlank_of_isTextChar {c : Char} (h : isTextChar c) : ¬isBlank c := by
  obtain ⟨hlow, hhigh⟩ := bounds_of_isTextChar h
  rw [isBlank, if_pos (by omega)]
  simp only [Bool.or_eq_true, Bool.and_eq_true, decide_eq_true_eq]
  rintro (rfl | ⟨-, hle⟩)
  · exact absurd hlow (by decide)
  · omega

/-- The signs between the parts of a package URI do not occur in its version. -/
theorem signs_notMem_of_parse {s : String} {v : Version} (h : parse s = .ok v) :
    '#' ∉ s.toList ∧ '@' ∉ s.toList :=
  ⟨fun hc => absurd (isTextChar_of_mem_parse h _ hc) (by decide),
    fun hc => absurd (isTextChar_of_mem_parse h _ hc) (by decide)⟩

end Version

namespace PackageUri

/-- A fragment as it stands behind a base. -/
def fragmentText : Option String → List Char
  | none => []
  | some f => '#' :: f.toList

theorem exists_fragment (rest : String) : ∃ (base : String) (fragment : Option String),
    '#' ∉ base.toList ∧ rest.toList = base.toList ++ fragmentText fragment := by
  cases h : cut? '#' rest with
  | none => exact ⟨rest, none, cut?_eq_none_iff.mp h, by simp [fragmentText]⟩
  | some cut =>
    obtain ⟨hrest, hbase⟩ := cut?_eq_some_iff.mp h
    exact ⟨cut.1, some cut.2, hbase, hrest⟩

/-- The parts of a text whose fragment has been cut off. -/
def partsOf (base : String) (fragment : Option String) : Except Reason PackageUri := do
  let some (location, version) := cutLast? '@' base | throw .noVersion
  let version ← (Version.parse version).mapError .version
  let some (authority, path) := cut? '/' location | throw .noPath
  if authority = "" || path = "" then throw .emptyPart
  return ⟨authority, "/" ++ path, version, ← fragmentOf fragment⟩

theorem parts_eq_partsOf {rest base : String} {fragment : Option String}
    (hbase : '#' ∉ base.toList) (hrest : rest.toList = base.toList ++ fragmentText fragment) :
    parts rest = partsOf base fragment := by
  cases fragment with
  | none =>
    obtain rfl : rest = base := by simpa [fragmentText, String.toList_inj] using hrest
    rw [parts, cut?_eq_none_iff.mpr hbase]
    rfl
  | some f =>
    rw [parts, cut?_eq_some_iff.mpr ⟨hrest, hbase⟩]
    rfl

/-- The grammar of what follows the scheme: an authority, a path, a version, a fragment. -/
structure Spells (rest : String) (p : PackageUri) (path version : String)
    (fragment : Option String) : Prop where
  rest : rest.toList =
    p.name.toList ++ '@' :: version.toList ++ fragmentText fragment
  name : '#' ∉ p.name.toList
  authority : p.authority ≠ "" ∧ '/' ∉ p.authority.toList
  path : path ≠ "" ∧ p.path = "/" ++ path
  version : Version.parse version = .ok p.version
  fragment : fragmentOf fragment = .ok p.fragment

/-- The parts of a text are those from which it is made up. -/
theorem parts_eq_ok_iff {rest : String} {p : PackageUri} :
    parts rest = .ok p ↔ ∃ path version fragment, Spells rest p path version fragment := by
  constructor
  · intro h
    obtain ⟨base, fragment, hbase, hrest⟩ := exists_fragment rest
    rw [parts_eq_partsOf hbase hrest, partsOf] at h
    split at h <;> [skip; cases h]
    next location version hat =>
    obtain ⟨v, hversion, h⟩ := bind_eq_ok.mp h
    split at h <;> [skip; cases h]
    next authority path hslash =>
    split at h
    · cases h
    next hparts =>
    obtain ⟨f, hfragment, h⟩ := bind_eq_ok.mp h
    cases h
    obtain ⟨hat, -⟩ := cutLast?_eq_some_iff.mp hat
    obtain ⟨hslash, hauthority⟩ := cut?_eq_some_iff.mp hslash
    simp only [Bool.or_eq_true, decide_eq_true_eq, not_or] at hparts
    have hname : base.toList = authority.toList ++ '/' :: path.toList ++ '@' :: version.toList := by
      rw [hat, hslash]
    refine ⟨path, version, fragment, ?_, ?_, ⟨hparts.1, hauthority⟩, ⟨hparts.2, rfl⟩,
      mapError_eq_ok.mp hversion, hfragment⟩
    · simp [hrest, hname, name]
    · rw [hname] at hbase
      simp_all [name]
  · rintro ⟨path, version, fragment, h⟩
    obtain ⟨authority, p', v, f⟩ := p
    obtain ⟨hrest, hname, ⟨hauthority, hslash⟩, ⟨hpath, rfl⟩, hversion, hfragment⟩ := h
    obtain ⟨hversionHash, hversionAt⟩ := Version.signs_notMem_of_parse hversion
    dsimp only at hauthority hslash hversion hfragment
    have hlocation : cut? '/' (authority ++ ("/" ++ path)) = some (authority, path) :=
      cut?_eq_some_iff.mpr ⟨by simp, hslash⟩
    have hat : cutLast? '@' (authority ++ ("/" ++ path) ++ "@" ++ version)
        = some (authority ++ ("/" ++ path), version) :=
      cutLast?_eq_some_iff.mpr ⟨by simp, hversionAt⟩
    have hhash : '#' ∉ (authority ++ ("/" ++ path) ++ "@" ++ version).toList := by
      simpa [hversionHash, name] using hname
    rw [parts_eq_partsOf hhash (by simpa [name] using hrest), partsOf, hat]
    simp only [hversion, hlocation, hauthority, hpath, hfragment]
    rfl

theorem fragmentOf_eq_ok {fragment f : Option String} (h : fragmentOf fragment = .ok f) :
    fragmentOf f = .ok f ∧ ∀ g ∈ f, fragment = some g ∧ g ≠ "" := by
  cases fragment with
  | none =>
    cases h
    exact ⟨rfl, by simp⟩
  | some g =>
    rw [fragmentOf] at h
    split at h
    · cases h
      exact ⟨rfl, by simp⟩
    next hne =>
      split at h
      next hslash =>
        cases h
        exact ⟨by rw [fragmentOf, if_neg hne, if_pos hslash], by simp [hne]⟩
      · cases h

/-- What the written form has behind its scheme. -/
def body (p : PackageUri) : String :=
  String.ofList (p.name.toList ++ '@' :: p.version.text.toList ++ fragmentText p.fragment)

theorem text_eq (p : PackageUri) : p.text = "package://" ++ p.body := by
  rw [← String.toList_inj, text]
  cases h : p.fragment <;> simp [baseUri, body, name, fragmentText, h]

/-- A text that has been read spells its own written form as well. -/
theorem Spells.body {rest path version : String} {p : PackageUri} {fragment : Option String}
    (h : Spells rest p path version fragment) :
    Spells p.body p path p.version.text p.fragment := by
  refine ⟨by simp [PackageUri.body], h.name, h.authority, h.path, ?_,
    (fragmentOf_eq_ok h.fragment).1⟩
  rw [Version.text_of_parse h.version]
  exact h.version

theorem afterScheme?_text (p : PackageUri) : afterScheme? p.text = some p.body := by
  rw [afterScheme?, text_eq, after?_eq_some_iff.mpr rfl, Option.some_or]

theorem afterScheme?_eq_some {uri rest : String} (h : afterScheme? uri = some rest) :
    rest.toList <:+ uri.toList := by
  obtain h | ⟨-, h⟩ := Option.or_eq_some_iff.mp h
  all_goals
    rw [after?_eq_some_iff.mp h, String.toList_append]
    exact List.suffix_append _ _

theorem exists_spells_of_parse {uri : String} {p : PackageUri} (h : parse uri = .ok p) :
    ∃ rest path version fragment, rest.toList <:+ uri.toList ∧
      Spells rest p path version fragment := by
  rw [parse] at h
  split at h
  · cases h
  next rest hrest =>
    obtain ⟨path, version, fragment, hspells⟩ := parts_eq_ok_iff.mp (mapError_eq_ok.mp h)
    exact ⟨rest, path, version, fragment, afterScheme?_eq_some hrest, hspells⟩

/-- The written form of a package URI is read as that package URI. -/
theorem parse_text_of_parse {uri : String} {p : PackageUri} (h : parse uri = .ok p) :
    parse p.text = .ok p := by
  obtain ⟨rest, path, version, fragment, -, hspells⟩ := exists_spells_of_parse h
  rw [parse, afterScheme?_text]
  exact mapError_eq_ok.mpr (parts_eq_ok_iff.mpr ⟨_, _, _, hspells.body⟩)

/-- The written form ends with a version or with the fragment that ended the text. -/
theorem text_last_of_parse {uri : String} {p : PackageUri} (h : parse uri = .ok p)
    (huri : IsTrimmed uri) : ∀ c ∈ p.text.toList.getLast?, ¬isBlank c := by
  obtain ⟨rest, path, version, fragment, hrest, hspells⟩ := exists_spells_of_parse h
  suffices hback : ∃ front back, p.body.toList = front ++ back ∧ back ≠ [] ∧
      ∀ c ∈ back.getLast?, ¬isBlank c by
    obtain ⟨front, back, hbody, hne, hlast⟩ := hback
    rw [text_eq, String.toList_append, hbody, ← List.append_assoc,
      List.getLast?_append_of_ne_nil _ hne]
    exact hlast
  cases hf : p.fragment with
  | none =>
    have hversion : p.version.text = version := Version.text_of_parse hspells.version
    refine ⟨p.name.toList ++ ['@'], version.toList, by simp [body, hf, fragmentText, hversion], ?_,
      fun c hc => ?_⟩
    · simpa using Version.ne_empty_of_parse hspells.version
    · exact Version.not_isBlank_of_isTextChar
        (Version.isTextChar_of_mem_parse hspells.version c (List.mem_of_getLast? hc))
  | some g =>
    obtain ⟨hg, hne⟩ := (fragmentOf_eq_ok hspells.fragment).2 g hf
    refine ⟨p.name.toList ++ '@' :: p.version.text.toList ++ ['#'], g.toList,
      by simp [body, hf, fragmentText], by simpa using hne, huri.last_of_suffix ?_⟩
    refine List.IsSuffix.trans ?_ hrest
    rw [hspells.rest, hg]
    exact (List.suffix_cons _ _).trans (List.suffix_append _ _)

end PackageUri

namespace ModuleUri

/-- A trimmed text with a scheme that makes it an absolute URI. -/
structure Reads (s : String) (u : AbsoluteUri) : Prop where
  trimmed : IsTrimmed s
  notDependency : after? "@" s = none
  scheme : ∃ scheme rest, cut? ':' s = some (scheme, rest) ∧ schemeOf s scheme rest = .ok u

theorem classify_eq_absolute_iff {uri : String} {u : AbsoluteUri} :
    classify uri = .ok (.absolute u) ↔ Reads (trim uri) u := by
  constructor
  · intro h
    simp only [classify] at h
    split at h
    · cases h
    split at h
    · split at h
      next hdep =>
        simp only [dependencyOf] at hdep
        grind
      · cases h
    next hat =>
      split at h
      · cases h
      next scheme rest hcut =>
        obtain ⟨v, hv, heq⟩ := map_eq_ok.mp (mapError_eq_ok.mp h)
        cases heq
        exact ⟨isTrimmed_trim uri, hat, scheme, rest, hcut, hv⟩
  · rintro ⟨-, hat, scheme, rest, hcut, hscheme⟩
    have hne : trim uri ≠ "" := by
      intro hempty
      rw [hempty] at hcut
      cases hcut
    simp only [classify, if_neg hne, hat, hcut, hscheme]
    rfl

/-- How a text starts and ends that is a scheme, a colon and something that does not end with a
blank. -/
theorem Reads.intro {s : String} {u : AbsoluteUri} (scheme rest : String)
    (hs : s = scheme ++ ":" ++ rest) (hcolon : ':' ∉ scheme.toList)
    (hhead : ∃ c ∈ scheme.toList.head?, c ≠ '@' ∧ ¬isBlank c)
    (hlast : ∀ c ∈ s.toList.getLast?, ¬isBlank c) (hscheme : schemeOf s scheme rest = .ok u) :
    Reads s u := by
  obtain ⟨c, hc, hat, hblank⟩ := hhead
  have hsc : s.toList.head? = some c := by
    rw [hs]
    simp_all
  refine ⟨⟨by simpa [hsc] using hblank, hlast⟩, ?_, scheme, rest, ?_, hscheme⟩
  · refine after?_eq_none_iff.mpr fun rest' h => ?_
    simp [h] at hsc
    exact hat hsc.symm
  · exact cut?_eq_some_iff.mpr ⟨by simp [hs], hcolon⟩

theorem withoutSlashes_append (s : String) :
    withoutSlashes ("/" ++ withoutSlashes s) = withoutSlashes s := by
  simp [withoutSlashes, List.dropWhile_idempotent]

/-- A text that ends like a trimmed one, or with a slash. -/
theorem last_of_path {s path : String} (hs : IsTrimmed s) (hpath : path.toList <:+ s.toList)
    (front : List Char) : ∀ c ∈ (front ++ '/' :: path.toList).getLast?, ¬isBlank c := by
  rw [List.getLast?_append_of_ne_nil _ (List.cons_ne_nil _ _)]
  cases hp : path.toList with
  | nil => simp; decide
  | cons d cs =>
    rw [List.getLast?_cons_cons, ← hp]
    exact hs.last_of_suffix hpath

theorem reads_fileId {s rest : String} (hs : IsTrimmed s) (hrest : rest.toList <:+ s.toList)
    (hslash : startsWith "/" ((after? "//" rest).getD rest)) :
    Reads (AbsoluteUri.fileId ⟨(after? "//" rest).getD rest⟩).text
      (.file ⟨(after? "//" rest).getD rest⟩) := by
  have hsuffix : ((after? "//" rest).getD rest).toList <:+ s.toList := by
    cases hafter : after? "//" rest with
    | none => exact hrest
    | some path =>
      refine List.IsSuffix.trans ?_ hrest
      rw [after?_eq_some_iff.mp hafter, String.toList_append]
      exact List.suffix_append _ _
  generalize (after? "//" rest).getD rest = path at hslash hsuffix
  obtain ⟨path, rfl⟩ := startsWith_iff.mp hslash
  refine Reads.intro "file" ("//" ++ ("/" ++ path)) ?_ (by decide)
    ⟨'f', by decide⟩ ?_ ?_
  · rw [← String.toList_inj]
    simp [AbsoluteUri.fileId]
  · have hpath : path.toList <:+ s.toList := by
      refine List.IsSuffix.trans ?_ hsuffix
      rw [String.toList_append]
      exact List.suffix_append _ _
    simpa [AbsoluteUri.fileId] using last_of_path hs hpath "file://".toList
  · simp only [schemeOf, after?_eq_some_iff.mpr rfl, Option.getD_some]
    exact if_pos hslash

theorem reads_modulePath {s rest : String} (hs : IsTrimmed s) (hrest : rest.toList <:+ s.toList) :
    Reads (AbsoluteUri.modulePath ("/" ++ withoutSlashes rest)).id.text
      (.modulePath ("/" ++ withoutSlashes rest)) := by
  refine Reads.intro "modulepath" ("/" ++ withoutSlashes rest) ?_ (by decide)
    ⟨'m', by decide⟩ ?_ ?_
  · rw [← String.toList_inj]
    simp [AbsoluteUri.id]
  · have hpath : (withoutSlashes rest).toList <:+ s.toList := by
      rw [withoutSlashes, String.toList_ofList]
      exact (List.dropWhile_suffix _).trans hrest
    simpa [AbsoluteUri.id] using last_of_path hs hpath "modulepath:".toList
  · simp only [schemeOf, withoutSlashes_append]

theorem reads_package {uri : String} {p : PackageUri} (hs : IsTrimmed uri)
    (hp : PackageUri.parse uri = .ok p) : Reads (AbsoluteUri.package p).id.text (.package p) := by
  refine Reads.intro "package" ("//" ++ p.body) ?_ (by decide) ⟨'p', by decide⟩
    (PackageUri.text_last_of_parse hp hs) ?_
  · rw [AbsoluteUri.id, PackageUri.text_eq, ← String.toList_inj]
    simp
  · simp only [schemeOf, AbsoluteUri.id, PackageUri.parse_text_of_parse hp]

/-- The identity of an absolute URI is read as that URI. -/
theorem Reads.id_text {s : String} {u : AbsoluteUri} (h : Reads s u) : Reads u.id.text u := by
  have hs := h.trimmed
  obtain ⟨scheme, rest, hcut, hscheme⟩ := h.scheme
  obtain ⟨hcut, -⟩ := cut?_eq_some_iff.mp hcut
  have hrest : rest.toList <:+ s.toList := by
    rw [hcut]
    exact (List.suffix_cons _ _).trans (List.suffix_append _ _)
  unfold schemeOf at hscheme
  split at hscheme
  case h_1 =>
    cases hscheme
    have hid : (AbsoluteUri.stdlib rest).id.text = s := by
      rw [← String.toList_inj, hcut]
      simp [AbsoluteUri.id]
    rwa [hid]
  case h_2 =>
    simp only at hscheme
    split at hscheme
    next hslash =>
      cases hscheme
      exact reads_fileId hs hrest hslash
    · cases hscheme
  case h_3 =>
    cases hscheme
    exact reads_modulePath hs hrest
  case h_6 | h_7 =>
    -- The identity of a module on a host is its whole URI.
    cases hscheme
    exact h
  case h_8 => cases hscheme
  all_goals
    split at hscheme
    next p hp =>
      cases hscheme
      exact reads_package hs hp
    · cases hscheme

theorem absolute_of_id? {u : ModuleUri} {id : ModuleId} (h : u.id? = some id) :
    ∃ a, u = .absolute a ∧ a.id = id := by
  cases u with
  | absolute a => exact ⟨a, rfl, Option.some.inj h⟩
  | dependency name path => cases h
  | relative path => cases h

theorem classify_absolute_id {uri : String} {u : AbsoluteUri}
    (h : classify uri = .ok (.absolute u)) : classify u.id.text = .ok (.absolute u) := by
  have hreads := (classify_eq_absolute_iff.mp h).id_text
  rw [← hreads.trimmed.trim_eq] at hreads
  exact classify_eq_absolute_iff.mpr hreads

/-- An identity is classified as the URI whose identity it is, and this has the same identity. -/
theorem classify_id_text {uri : String} {u : ModuleUri} {id : ModuleId}
    (h : classify uri = .ok u) (hid : u.id? = some id) :
    classify id.text = .ok u ∧ (classify id.text).map id? = .ok (some id) := by
  obtain ⟨a, rfl, rfl⟩ := absolute_of_id? hid
  have hclassify := classify_absolute_id h
  exact ⟨hclassify, by rw [hclassify]; rfl⟩

/-- Every sign that separates two parts also stands inside one of them. -/
def crowdedPackage : PackageUri :=
  ⟨"a@b", "/c@0.1.0/d", ⟨1, 0, 0, "rc.1-x", "001"⟩, some "/e@f#g:h/i.pkl"⟩

theorem classify_id_text_crowdedPackage :
    classify " projectpackage://a@b/c@0.1.0/d@1.0.0-rc.1-x+001#/e@f#g:h/i.pkl "
        = .ok (.absolute (.package crowdedPackage)) ∧
      classify "package://a@b/c@0.1.0/d@1.0.0-rc.1-x+001#/e@f#g:h/i.pkl"
        = .ok (.absolute (.package crowdedPackage)) := by
  have h : classify " projectpackage://a@b/c@0.1.0/d@1.0.0-rc.1-x+001#/e@f#g:h/i.pkl "
      = .ok (.absolute (.package crowdedPackage)) := by rfl
  have hid : id? (.absolute (.package crowdedPackage))
      = some ⟨"package://a@b/c@0.1.0/d@1.0.0-rc.1-x+001#/e@f#g:h/i.pkl"⟩ := by rfl
  exact ⟨h, (classify_id_text h hid).1⟩

end ModuleUri

/-- A description is kept under the identity that its identity has. -/
theorem Store.idOf_idOf (uri : String) : Store.idOf (Store.idOf uri).text = Store.idOf uri := by
  cases h : ModuleUri.absolute? uri with
  | none => simp only [Store.idOf, h]
  | some u =>
    have hclassify : ModuleUri.classify uri = .ok (.absolute u) := by
      unfold ModuleUri.absolute? at h
      split at h <;> cases h
      assumption
    have hagain : ModuleUri.absolute? u.id.text = some u := by
      rw [ModuleUri.absolute?, ModuleUri.classify_absolute_id hclassify]
    simp only [Store.idOf, h, hagain]

end PklAnalysis
