import PklAnalysis.Proofs.Modules.PathSteps

/-!
# Joined paths

A path followed from a directory is walked component by component with the names passed so far on a
stack: a name goes on top, `..` takes one away.  The walk gets stuck only where `..` finds the stack
empty, and what it leaves is written as a path without dots.  So a path may be followed in parts,
and what is relative to a module of a package, of the module path or of a host stays inside.
-/

namespace PklAnalysis

namespace Path

/-! ## Walks -/

/-- What a component does to the names passed so far, the last one first. -/
inductive Step : List String → Component → List String → Prop where
  | root (above : List String) : Step above .root above
  | here (above : List String) : Step above .here above
  | up (n : String) (above : List String) : Step (n :: above) .up above
  | name (n : String) (above : List String) : Step above (.name n) (n :: above)

/-- Components passed one after the other. -/
inductive Walk : List String → List Component → List String → Prop where
  | nil (above : List String) : Walk above [] above
  | cons {above next final : List String} {c : Component} {cs : List Component} :
      Step above c next → Walk next cs final → Walk above (c :: cs) final

/-- Some `..` meets an empty stack. -/
def Underflows (cs : List Component) : Prop :=
  ∃ before after, cs = before ++ .up :: after ∧ Walk [] before []

/-- The walk ends, with the names of a path on the stack. -/
def Arrives (cs : List Component) (file : String) : Prop :=
  ∃ names : List String, file = ofNames names ∧ Walk [] cs names.reverse

/-- Only `..` has a stack from which it cannot step. -/
theorem exists_step_or (above : List String) (c : Component) :
    (∃ next, Step above c next) ∨ above = [] ∧ c = .up := by
  cases c with
  | root => exact .inl ⟨above, .root above⟩
  | here => exact .inl ⟨above, .here above⟩
  | name n => exact .inl ⟨n :: above, .name n above⟩
  | up =>
    cases above with
    | nil => exact .inr ⟨rfl, rfl⟩
    | cons n above => exact .inl ⟨above, .up n above⟩

theorem Step.collapse_eq {above next : List String} {c : Component} (h : Step above c next)
    (cs : List Component) : collapse above (c :: cs) = collapse next cs := by
  cases h <;> rfl

theorem Step.unique {above next next' : List String} {c : Component} (h : Step above c next)
    (h' : Step above c next') : next = next' := by
  cases h <;> cases h' <;> rfl

theorem not_step_up {next : List String} : ¬Step [] .up next := nofun

/-- A path collapses to the names at which its walk ends. -/
theorem collapse_eq_some_iff {cs : List Component} {above names : List String} :
    collapse above cs = some names ↔ Walk above cs names.reverse := by
  induction cs generalizing above with
  | nil =>
    rw [collapse, Option.some.injEq]
    constructor
    · rintro rfl
      rw [List.reverse_reverse]
      exact .nil above
    · intro h
      generalize hfinal : names.reverse = final at h
      cases h
      rw [← hfinal, List.reverse_reverse]
  | cons c cs ih =>
    obtain ⟨next, hstep⟩ | ⟨rfl, rfl⟩ := exists_step_or above c
    · rw [hstep.collapse_eq, ih]
      constructor
      · exact .cons hstep
      · rintro (_ | ⟨hstep', h⟩)
        exact hstep.unique hstep' ▸ h
    · constructor
      · intro h
        cases h
      · rintro (_ | ⟨hstep, -⟩)
        exact absurd hstep not_step_up

/-- A path does not collapse exactly if its walk meets `..` with nothing on the stack. -/
theorem collapse_eq_none_iff {cs : List Component} {above : List String} :
    collapse above cs = none ↔
      ∃ before after, cs = before ++ .up :: after ∧ Walk above before [] := by
  induction cs generalizing above with
  | nil =>
    constructor
    · intro h
      cases h
    · rintro ⟨before, after, h, -⟩
      cases before <;> cases h
  | cons c cs ih =>
    obtain ⟨next, hstep⟩ | ⟨rfl, rfl⟩ := exists_step_or above c
    · rw [hstep.collapse_eq, ih]
      constructor
      · rintro ⟨before, after, rfl, h⟩
        exact ⟨c :: before, after, rfl, .cons hstep h⟩
      · rintro ⟨before, after, hcs, h⟩
        cases h with
        | nil =>
          obtain ⟨rfl, -⟩ := List.cons.inj hcs
          exact absurd hstep not_step_up
        | cons hstep' h =>
          obtain ⟨rfl, rfl⟩ := List.cons.inj hcs
          exact ⟨_, after, rfl, hstep.unique hstep' ▸ h⟩
    · exact ⟨fun _ => ⟨[], cs, rfl, .nil []⟩, fun _ => rfl⟩

/-- Components are passed in two parts, the second from where the first one ends. -/
theorem collapse_append (above : List String) (cs ds : List Component) :
    collapse above (cs ++ ds)
      = (collapse above cs).bind fun names => collapse names.reverse ds := by
  induction cs generalizing above with
  | nil => rw [collapse, Option.bind_some, List.reverse_reverse, List.nil_append]
  | cons c cs ih =>
    obtain ⟨next, hstep⟩ | ⟨rfl, rfl⟩ := exists_step_or above c
    · rw [List.cons_append, hstep.collapse_eq, hstep.collapse_eq, ih]
    · rfl

/-! ## Normal paths -/

/-- An absolute path in which nothing between the slashes is empty, a dot or `..`. -/
def IsNormal (text : String) : Prop := ∃ names : List String, text = ofNames names ∧
  ∀ n ∈ names, n ≠ "" ∧ n ≠ "." ∧ n ≠ ".." ∧ '/' ∉ n.toList

theorem isName_iff {n : String} :
    IsName n ↔ n ≠ "" ∧ n ≠ "." ∧ n ≠ ".." ∧ '/' ∉ n.toList := by
  have hcomponent : componentOf? n = some (.name n) ↔ n ≠ "" ∧ n ≠ "." ∧ n ≠ ".." := by
    rw [componentOf?]
    split
    · next h => grind
    · next h => split <;> grind
  constructor
  · rintro ⟨h, hslash⟩
    obtain ⟨hempty, hdot, hdots⟩ := hcomponent.mp h
    exact ⟨hempty, hdot, hdots, hslash⟩
  · rintro ⟨hempty, hdot, hdots, hslash⟩
    exact ⟨hcomponent.mpr ⟨hempty, hdot, hdots⟩, hslash⟩

theorem isNormal_iff {text : String} :
    IsNormal text ↔ ∃ names, text = ofNames names ∧ ∀ n ∈ names, IsName n := by
  simp only [IsNormal, isName_iff]

/-- The names that a path passes are names. -/
theorem isName_of_collapse {p : Path} {names : List String}
    (h : collapse [] p.components = some names) : ∀ n ∈ names, IsName n := by
  intro n hn
  rw [collapse_components] at h
  exact isName_of_mem_steps ((mem_of_collapse h hn).resolve_left List.not_mem_nil)

theorem steps_ofNames {names : List String} (h : ∀ n ∈ names, IsName n) :
    steps (ofNames names) = names.map .name := by
  have hroot : isAbsolute ⟨ofNames names⟩ = true := Text.startsWith_iff.mpr ⟨_, rfl⟩
  have hcomponents := components_ofNames h
  rw [components_eq, start, if_pos hroot] at hcomponents
  exact (List.cons.inj hcomponents).2

theorem toList_ofNames (n : String) (names : List String) :
    (ofNames (n :: names)).toList = (n :: names).flatMap fun m => '/' :: m.toList := by
  induction names generalizing n with
  | nil => simp [ofNames]
  | cons m names ih =>
    rw [List.flatMap_cons, ← ih m]
    simp [ofNames, String.intercalate_cons_cons]

/-! ## Joined paths -/

theorem joinNormalized?_eq_none_iff (dir text : String) :
    joinNormalized? dir text = none ↔ Underflows (join ⟨dir⟩ text).components := by
  rw [joinNormalized?_eq_collapse, Option.map_eq_none_iff]
  exact collapse_eq_none_iff

theorem joinNormalized?_eq_some_iff {dir text file : String} :
    joinNormalized? dir text = some file ↔ Arrives (join ⟨dir⟩ text).components file := by
  rw [joinNormalized?_eq_collapse, Option.map_eq_some_iff]
  constructor
  · rintro ⟨names, hnames, rfl⟩
    exact ⟨names, rfl, collapse_eq_some_iff.mp hnames⟩
  · rintro ⟨names, rfl, hwalk⟩
    exact ⟨names, collapse_eq_some_iff.mpr hwalk, rfl⟩

/-- A walk leads to a normal path. -/
theorem Arrives.isNormal {p : Path} {file : String} (h : Arrives p.components file) :
    IsNormal file := by
  obtain ⟨names, hfile, hwalk⟩ := h
  exact isNormal_iff.mpr ⟨names, hfile, isName_of_collapse (collapse_eq_some_iff.mpr hwalk)⟩

theorem startsWith_slash_append {p : String} (hp : p ≠ "") (h : Text.startsWith "/" p = false)
    (q : String) : Text.startsWith "/" (p ++ "/" ++ q) = false := by
  rw [Text.startsWith] at h ⊢
  cases hchars : p.toList with
  | nil => exact absurd (String.toList_eq_nil_iff.mp hchars) hp
  | cons c cs => simpa [hchars, List.isPrefixOf] using h

/-- A relative path may be followed in parts. -/
theorem joinNormalized?_append (dir : String) {p q : String} (hp : p ≠ "")
    (hrelative : Text.startsWith "/" p = false) (hq : Text.startsWith "/" q = false) :
    joinNormalized? dir (p ++ "/" ++ q)
      = (joinNormalized? dir p).bind fun e => joinNormalized? e q := by
  rw [joinNormalized?_eq dir (startsWith_slash_append hp hrelative q),
    joinNormalized?_eq dir hrelative, steps_append, ← List.append_assoc, collapse_append,
    Option.map_bind, Option.bind_map]
  apply Option.bind_congr
  intro names hnames
  have hvalid : ∀ n ∈ names, IsName n := by
    intro n hn
    have hmem := (mem_of_collapse hnames hn).resolve_left List.not_mem_nil
    exact (List.mem_append.mp hmem).elim isName_of_mem_steps isName_of_mem_steps
  rw [Function.comp_apply, Function.comp_apply, joinNormalized?_eq _ hq, steps_ofNames hvalid,
    collapse_names, List.append_nil]

end Path

namespace ModuleUri

/-! ## Hosts -/

theorem cutAuthority_cons {c : Char} {cs : List Char}
    (h : ∀ ds, c :: cs ≠ ':' :: '/' :: '/' :: ds) :
    cutAuthority (c :: cs) = (cutAuthority cs).map fun (a, b) => (c :: a, b) := by
  rw [cutAuthority]
  rintro ds rfl rfl
  exact h ds rfl

/-- The scheme of a URL is cut off in the same way whatever follows it. -/
theorem cutAuthority_eq_some {cs scheme rest : List Char}
    (h : cutAuthority cs = some (scheme, rest)) :
    cs = scheme ++ rest ∧ ∀ ds, cutAuthority (scheme ++ ds) = some (scheme, ds) := by
  fun_induction cutAuthority cs generalizing scheme with
  | case1 cs =>
    cases h
    exact ⟨rfl, fun ds => rfl⟩
  | case2 c cs hslashes ih =>
    obtain ⟨⟨scheme, rest⟩, hcut, h⟩ := Option.map_eq_some_iff.mp h
    cases h
    obtain ⟨rfl, hscheme⟩ := ih hcut
    refine ⟨rfl, fun ds => ?_⟩
    -- What follows the sign ends with a scheme of its own, so it is long enough to tell.
    have hlater : ∀ ds', c :: (scheme ++ ds) ≠ ':' :: '/' :: '/' :: ds' := by
      intro ds' heq
      obtain ⟨hc, htail⟩ := List.cons.inj heq
      match scheme, hscheme [] with
      | a :: b :: scheme, _ =>
        obtain ⟨rfl, hsecond⟩ := List.cons.inj htail
        obtain ⟨rfl, -⟩ := List.cons.inj hsecond
        exact hslashes _ hc rfl
    rw [List.cons_append, cutAuthority_cons hlater, hscheme]
    rfl
  | case3 => cases h

/-- At most one of two neighbours is a slash. -/
def Apart (a b : Char) : Prop := a ≠ '/' ∨ b ≠ '/'

/-- Where no two slashes follow each other there is no authority. -/
theorem cutAuthority_eq_none {cs : List Char} (h : cs.IsChain Apart) : cutAuthority cs = none := by
  induction cs with
  | nil => rfl
  | cons c cs ih =>
    have hslashes : ∀ ds, c :: cs ≠ ':' :: '/' :: '/' :: ds := by
      rintro ds heq
      rw [heq] at h
      simp [Apart] at h
    rw [cutAuthority_cons hslashes, ih h.tail]
    rfl

theorem isChain_append {cs ds : List Char} (hcs : cs.IsChain Apart) (hds : ds.IsChain Apart)
    (hlast : cs.getLast? ≠ some '/') : (cs ++ ds).IsChain Apart := by
  refine List.isChain_append.mpr ⟨hcs, hds, fun a ha b hb => .inl ?_⟩
  rintro rfl
  exact hlast ha

theorem isChain_of_notMem {word : List Char} (h : '/' ∉ word) : word.IsChain Apart :=
  (List.pairwise_of_forall_mem_list fun _ ha _ _ => .inl (ne_of_mem_of_not_mem ha h)).isChain

/-- The slashes of a path are between its names. -/
theorem isChain_ofNames {names : List String} (h : ∀ n ∈ names, Path.IsName n) :
    (Path.ofNames names).toList.IsChain Apart := by
  have hname : ∀ n ∈ names, ('/' :: n.toList).IsChain Apart ∧
      ('/' :: n.toList).getLast? ≠ some '/' := by
    intro n hn
    obtain ⟨hempty, -, -, hslash⟩ := Path.isName_iff.mp (h n hn)
    cases hchars : n.toList with
    | nil => exact absurd (String.toList_eq_nil_iff.mp hchars) hempty
    | cons c cs =>
      rw [hchars] at hslash
      refine ⟨.cons_cons (.inr ?_) (isChain_of_notMem hslash), ?_⟩
      · exact fun hc => hslash (hc ▸ List.mem_cons_self)
      · rw [List.getLast?_cons_cons]
        exact fun hlast => hslash (List.mem_of_getLast? hlast)
  cases names with
  | nil => exact .singleton '/'
  | cons n names =>
    rw [Path.toList_ofNames]
    generalize n :: names = names at hname
    induction names with
    | nil => exact .nil
    | cons n names ih =>
      obtain ⟨⟨hchain, hlast⟩, hnames⟩ := List.forall_mem_cons.mp hname
      exact isChain_append hchain (ih hnames) hlast

/-- The origin of a URL is its scheme, if it has one, and a text without slashes. -/
theorem exists_origin (url : String) : ∃ scheme host,
    (splitUrl url).1 = String.ofList (scheme ++ host) ∧ '/' ∉ host ∧
      (scheme = [] ∨ ∀ ds, cutAuthority (scheme ++ ds) = some (scheme, ds)) := by
  obtain ⟨scheme, rest, hcut, hurl, hscheme⟩ : ∃ scheme rest,
      (cutAuthority url.toList).getD ([], url.toList) = (scheme, rest) ∧
        url.toList = scheme ++ rest ∧
        (scheme = [] ∨ ∀ ds, cutAuthority (scheme ++ ds) = some (scheme, ds)) := by
    cases h : cutAuthority url.toList with
    | none => exact ⟨[], url.toList, rfl, rfl, .inl rfl⟩
    | some cut =>
      obtain ⟨hurl, hscheme⟩ := cutAuthority_eq_some h
      exact ⟨cut.1, cut.2, rfl, hurl, .inr hscheme⟩
  refine ⟨scheme, rest.takeWhile (· ≠ '/'), ?_, ?_, hscheme⟩
  · rw [splitUrl, hcut]
    dsimp only
    split
    · rfl
    · next hslash =>
      have hwhole : rest.takeWhile (· ≠ '/') = rest := by
        rw [List.takeWhile_eq_self_iff]
        intro c hc
        have hne : c ≠ '/' := fun hc' => hslash (hc' ▸ List.contains_iff_mem.mpr hc)
        simpa using hne
      rw [hwhole, ← hurl, String.ofList_toList]
  · intro hmem
    simpa using List.mem_takeWhile_imp hmem

/-- A URL keeps its origin when a path takes the place of its own. -/
theorem splitUrl_append (url : String) {path : String} (hpath : Path.IsNormal path) :
    splitUrl ((splitUrl url).1 ++ path) = ((splitUrl url).1, path) := by
  obtain ⟨names, rfl, hnames⟩ := Path.isNormal_iff.mp hpath
  obtain ⟨scheme, host, horigin, hhost, hscheme⟩ := exists_origin url
  have hchars : (String.ofList (scheme ++ host) ++ Path.ofNames names).toList
      = scheme ++ (host ++ (Path.ofNames names).toList) := by simp
  have hcut : (cutAuthority (scheme ++ (host ++ (Path.ofNames names).toList))).getD
      ([], scheme ++ (host ++ (Path.ofNames names).toList))
        = (scheme, host ++ (Path.ofNames names).toList) := by
    obtain rfl | hscheme := hscheme
    · have hlast : host.getLast? ≠ some '/' := fun h => hhost (List.mem_of_getLast? h)
      have hchain := isChain_append (isChain_of_notMem hhost) (isChain_ofNames hnames) hlast
      rw [List.nil_append, cutAuthority_eq_none hchain]
      rfl
    · rw [hscheme, Option.getD_some]
  have hpath : (Path.ofNames names).toList = '/' :: ("/".intercalate names).toList := by
    simp [Path.ofNames]
  have hkept : ∀ c ∈ host, decide (c ≠ '/') = true := fun c hc =>
    decide_eq_true (ne_of_mem_of_not_mem hc hhost)
  rw [horigin, splitUrl, hchars, hcut]
  dsimp only
  rw [hpath, if_pos (by simp), List.takeWhile_append_of_pos hkept,
    List.dropWhile_append_of_pos hkept]
  simp [← String.toList_inj, hpath]

/-! ## Relative references -/

/-- The path of a module in what its references do not leave: the module path, its package, its
host. -/
def inside? : AbsoluteUri → Option String
  | .modulePath path => some path
  | .package p => some p.modulePath
  | .network url => some (splitUrl url).2
  | .stdlib _ | .file _ => none

/-- A module at a path of the module path, of the same package or of the same host as another. -/
inductive StaysAt (path : String) : AbsoluteUri → AbsoluteUri → Prop where
  | modulePath (own : String) : StaysAt path (.modulePath own) (.modulePath path)
  | package {p q : PackageUri} (authority : q.authority = p.authority) (name : q.path = p.path)
      (version : q.version = p.version) (fragment : q.fragment = some path) :
      StaysAt path (.package p) (.package q)
  | network {url target : String} (text : target = (splitUrl url).1 ++ path)
      (split : splitUrl target = ((splitUrl url).1, path)) :
      StaysAt path (.network url) (.network target)

/-- A reference fails if it leads out, and else means the module at the joined path. -/
theorem resolveRelative_inside {importer : ModuleId} {u : AbsoluteUri} {own : String}
    (hu : classify importer.text = .ok (.absolute u)) (hown : inside? u = some own) (path : String)
    (roots : List Path) :
    (Path.joinNormalized? (directoryOf own) path = none ∧
        ∃ reason, resolveRelative path importer roots = .error (.invalidUri path reason)) ∨
      ∃ file v, Path.joinNormalized? (directoryOf own) path = some file ∧
        resolveRelative path importer roots = .ok v ∧ StaysAt file u v := by
  cases hjoin : Path.joinNormalized? (directoryOf own) path with
  | none =>
    refine .inl ⟨rfl, ?_⟩
    rw [resolveRelative, hu]
    cases u with
    | stdlib | file => cases hown
    | modulePath | package | network =>
      cases hown
      dsimp only [bind, Except.bind]
      rw [hjoin]
      exact ⟨_, rfl⟩
  | some file =>
    refine .inr ⟨file, ?_⟩
    have hnormal := (Path.joinNormalized?_eq_some_iff.mp hjoin).isNormal
    rw [resolveRelative, hu]
    cases u with
    | stdlib | file => cases hown
    | modulePath =>
      cases hown
      dsimp only [bind, Except.bind]
      rw [hjoin]
      exact ⟨_, rfl, rfl, .modulePath _⟩
    | package =>
      cases hown
      dsimp only [bind, Except.bind]
      rw [hjoin]
      exact ⟨_, rfl, rfl, .package rfl rfl rfl rfl⟩
    | network url =>
      cases hown
      dsimp only [bind, Except.bind]
      rw [hjoin]
      exact ⟨_, rfl, rfl, .network rfl (splitUrl_append url hnormal)⟩

/-- A path followed from a directory becomes the path to which its walk leads, and this is normal;
there is none exactly if `..` meets an empty stack on the way.  Followed in two parts a path leads
where it leads as a whole.  A reference in a module of the module path, of a package or of a host
fails or leads to such a path in the same package or on the same host. -/
theorem joins_normalize_and_stay :
    (∀ dir path, (Path.joinNormalized? dir path = none ↔
        Path.Underflows (Path.join ⟨dir⟩ path).components) ∧
      ∀ file, Path.joinNormalized? dir path = some file →
        Path.Arrives (Path.join ⟨dir⟩ path).components file ∧ Path.IsNormal file) ∧
    (∀ dir p q, p ≠ "" → Text.startsWith "/" p = false → Text.startsWith "/" q = false →
      Path.joinNormalized? dir (p ++ "/" ++ q)
        = (Path.joinNormalized? dir p).bind fun e => Path.joinNormalized? e q) ∧
    ∀ (importer : ModuleId) (u : AbsoluteUri) (own : String),
      classify importer.text = .ok (.absolute u) → inside? u = some own →
      ∀ (path : String) (roots : List Path),
        (Path.joinNormalized? (directoryOf own) path = none ∧
            ∃ reason, resolveRelative path importer roots = .error (.invalidUri path reason)) ∨
          ∃ file v, Path.joinNormalized? (directoryOf own) path = some file ∧
            resolveRelative path importer roots = .ok v ∧ StaysAt file u v ∧
              Path.IsNormal file := by
  refine ⟨fun dir path => ⟨Path.joinNormalized?_eq_none_iff dir path, ?_⟩,
    fun dir p q => Path.joinNormalized?_append dir, ?_⟩
  · intro file hfile
    have harrives := Path.joinNormalized?_eq_some_iff.mp hfile
    exact ⟨harrives, harrives.isNormal⟩
  · intro importer u own hu hown path roots
    obtain hfailed | ⟨file, v, hjoin, hresolve, hstays⟩ :=
      resolveRelative_inside hu hown path roots
    · exact .inl hfailed
    · exact .inr ⟨file, v, hjoin, hresolve, hstays,
        (Path.joinNormalized?_eq_some_iff.mp hjoin).isNormal⟩

def birdPackage : PackageUri := ⟨"example.com", "/birds", ⟨1, 2, 0, "", ""⟩, some "/lib/Bird.pkl"⟩

/-- From `/lib` a reference reaches the top of the package and goes no further. -/
theorem joins_normalize_and_stay_birds :
    Path.joinNormalized? "/lib" "../.." = none ∧ Path.IsNormal "/etc/Nest.pkl" ∧
      Path.joinNormalized? "/lib" "..//x/./../etc" = some "/etc" ∧
      Path.joinNormalized? "/lib" ("..//x/." ++ "/" ++ "../etc")
        = Path.joinNormalized? "/x" "../etc" ∧
      ∃ v, resolveRelative "..//etc/Nest.pkl" ⟨"package://example.com/birds@1.2.0#/lib/Bird.pkl"⟩ []
          = .ok v ∧ StaysAt "/etc/Nest.pkl" (.package birdPackage) v := by
  obtain ⟨hjoin, hparts, hresolve⟩ := joins_normalize_and_stay
  have hu : classify "package://example.com/birds@1.2.0#/lib/Bird.pkl"
      = .ok (.absolute (.package birdPackage)) := by rfl
  have hfile : Path.joinNormalized? "/lib" "..//etc/Nest.pkl" = some "/etc/Nest.pkl" := by decide
  refine ⟨(hjoin "/lib" "../..").1.mpr ⟨[.root, .name "lib", .up], [], by decide, ?_⟩,
    ((hjoin "/lib" "..//etc/Nest.pkl").2 _ hfile).2, by decide, ?_, ?_⟩
  · exact .cons (.root []) (.cons (.name "lib" []) (.cons (.up "lib" []) (.nil [])))
  · exact hparts "/lib" "..//x/." "../etc" (by decide) (by decide) (by decide)
  · obtain ⟨hnone, -⟩ | ⟨file, v, hsome, hok, hstays, -⟩ :=
      hresolve ⟨_⟩ _ "/lib/Bird.pkl" hu rfl "..//etc/Nest.pkl" []
    · exact absurd (hfile.symm.trans hnone) (by simp)
    · obtain rfl := Option.some.inj (hfile.symm.trans hsome)
      exact ⟨v, hok, hstays⟩

end ModuleUri

end PklAnalysis
