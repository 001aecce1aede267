import PklAnalysis.Proofs.Modules.Directories

/-!
# Nearest projects

The paths above a path, relative ones and those that start with a dot included, are what its
components leave when the last ones are taken away.  So the search for the project of a directory
goes through the directories that enclose it, innermost first, and where no manifests are found it
ends at the project registered there last.  An answer is remembered until the next registration, and
only a registration could change it: after every history of calls the nearest project is the one
that the registrations alone determine.
-/

namespace PklAnalysis

/-! ## Parents -/

namespace Text

theorem head?_piecesFrom (piece cs : List Char) :
    (piecesFrom (· = '/') piece cs).head? = some (piece.reverse ++ cs.takeWhile (· ≠ '/')) := by
  induction cs generalizing piece with
  | nil => simp [piecesFrom]
  | cons c cs ih =>
    rw [piecesFrom]
    split
    · next hc => simp_all
    · next hc =>
      rw [ih]
      simp_all

/-- Only an absolute path and the empty one start with an empty piece. -/
theorem head?_pieces_eq_empty_iff {s : String} :
    (pieces (· = '/') s).head? = some "" ↔ s = "" ∨ startsWith "/" s = true := by
  rw [pieces, List.head?_map, head?_piecesFrom, startsWith]
  cases h : s.toList with
  | nil => simp [String.toList_eq_nil_iff.mp h]
  | cons c cs =>
    have hne : s ≠ "" := fun hempty => by simp [hempty] at h
    by_cases hc : c = '/'
    · simp [hc, List.isPrefixOf]
    · simp [hne, hc, Ne.symm hc, List.isPrefixOf]

/-- The pieces of pieces with slashes between them are these. -/
theorem pieces_intercalate {first : String} {rest : List String}
    (h : ∀ s ∈ first :: rest, '/' ∉ s.toList) :
    pieces (· = '/') ("/".intercalate (first :: rest)) = first :: rest := by
  induction rest generalizing first with
  | nil =>
    rw [String.intercalate_singleton]
    exact pieces_of_notMem (h first List.mem_cons_self)
  | cons second rest ih =>
    obtain ⟨hfirst, hrest⟩ := List.forall_mem_cons.mp h
    rw [String.intercalate_cons_cons, pieces_append, pieces_of_notMem hfirst, ih hrest]
    rfl

end Text

namespace Path

variable {p q : Path}

/-- The first pieces of a path that is not absolute are a path that is not absolute either and that
starts with a dot if the path does. -/
theorem components_intercalate {first : String} {rest : List String} (hp : p.text ≠ "")
    (habsolute : p.isAbsolute = false) (hpieces : first :: rest <+: p.pieces) :
    isAbsolute ⟨"/".intercalate (first :: rest)⟩ = false ∧
      components ⟨"/".intercalate (first :: rest)⟩
        = p.start ++ (first :: rest).filterMap componentOf? := by
  generalize hq : Path.mk ("/".intercalate (first :: rest)) = q
  have hown : q.pieces = first :: rest := by
    rw [← hq]
    exact Text.pieces_intercalate fun s hs => Text.notMem_of_mem_pieces (hpieces.subset hs)
  have hhead : q.pieces.head? = p.pieces.head? := by
    obtain ⟨later, hlater⟩ := hpieces
    rw [hown, ← hlater]
    rfl
  have hroot : q.isAbsolute = false := by
    rw [Bool.eq_false_iff]
    intro hroot
    have hempty := Text.head?_pieces_eq_empty_iff.mpr (.inr hroot)
    rw [← pieces, hhead] at hempty
    obtain hempty | habsolute' := Text.head?_pieces_eq_empty_iff.mp hempty
    · exact hp hempty
    · exact absurd (habsolute.symm.trans habsolute') Bool.false_ne_true
  have hstart : q.start = p.start := by
    rw [start, start, hroot, habsolute, startsHere, startsHere, hhead]
  exact ⟨hroot, by rw [components_eq, hstart, steps, ← pieces, hown]⟩

/-- Pieces without the last component, and without what counts for nothing before it. -/
theorem exists_of_trimmed {body rest : List String} {last : String}
    (h : trimmed body.reverse = last :: rest) :
    (trimmed rest).reverse <+: body ∧
      ∃ c, body.filterMap componentOf? = (trimmed rest).reverse.filterMap componentOf? ++ [c] := by
  constructor
  · have hrest : trimmed rest <:+ last :: rest :=
      (List.dropWhile_suffix _).trans (List.suffix_cons _ _)
    have hbody : last :: rest <:+ body.reverse := h ▸ List.dropWhile_suffix _
    simpa using List.reverse_prefix.mpr (hrest.trans hbody)
  · have hhead := List.head?_dropWhile_not (fun s => (componentOf? s).isNone) body.reverse
    rw [← trimmed, h] at hhead
    obtain ⟨c, hc⟩ : ∃ c, componentOf? last = some c :=
      Option.isSome_iff_exists.mp (by simpa using hhead)
    refine ⟨c, ?_⟩
    have hreverse : body.reverse.filterMap componentOf?
        = c :: (trimmed rest).filterMap componentOf? := by
      rw [← filterMap_trimmed, h, List.filterMap_cons_some hc, filterMap_trimmed]
    rw [List.filterMap_reverse, ← List.reverse_inj, List.reverse_reverse] at hreverse
    rw [hreverse, List.reverse_cons, List.filterMap_reverse]

theorem filterMap_eq_nil_of_trimmed {body : List String} (h : trimmed body.reverse = []) :
    body.filterMap componentOf? = [] := by
  rw [← List.reverse_inj, ← List.filterMap_reverse, ← filterMap_trimmed, h]
  rfl

/-- The parent of a relative path that does not start with a dot. -/
theorem parent?_of_plain (habsolute : p.isAbsolute = false) (hhere : p.startsHere = false) :
    (p.parent? = none ∧ p.components = []) ∨
      ∃ q c, p.parent? = some q ∧ p.components = q.components ++ [c] ∧ q.isAbsolute = false := by
  have hanchor : p.anchor = ("", p.pieces) := by
    rw [anchor, habsolute, hhere]
    rfl
  have hstart : p.start = [] := by
    rw [start, habsolute, hhere]
    rfl
  rw [parent?, hanchor, hhere, components_eq, hstart, List.nil_append, steps, ← pieces]
  dsimp only
  cases h : trimmed p.pieces.reverse with
  | nil => exact .inl ⟨rfl, filterMap_eq_nil_of_trimmed h⟩
  | cons last rest =>
    obtain ⟨hfront, c, hc⟩ := exists_of_trimmed h
    have hp : p.text ≠ "" := by
      intro hempty
      rw [pieces, hempty] at h
      cases h
    refine .inr ⟨_, c, rfl, ?_⟩
    rw [String.empty_append, hc]
    cases hrest : (trimmed rest).reverse with
    | nil => exact ⟨by rfl, by rfl⟩
    | cons first others =>
      obtain ⟨hroot, hcomponents⟩ := components_intercalate hp habsolute (hrest ▸ hfront)
      exact ⟨by rw [hcomponents, hstart, List.nil_append], hroot⟩

/-- The parent of a path that starts with a dot. -/
theorem parent?_of_startsHere (habsolute : p.isAbsolute = false) (hhere : p.startsHere = true) :
    ∃ q c, p.parent? = some q ∧ p.components = q.components ++ [c] ∧ q.isAbsolute = false := by
  obtain ⟨tail, htail⟩ := List.head?_eq_some_iff.mp (of_decide_eq_true hhere)
  have hp : p.text ≠ "" := by
    intro hempty
    simp [pieces, hempty, Text.pieces, Text.piecesFrom] at htail
  have hstart : p.start = [.here] := by
    rw [start, habsolute, hhere]
    rfl
  have hcomponents : p.components = .here :: tail.filterMap componentOf? := by
    rw [components_eq, hstart, steps, ← pieces, htail]
    rfl
  -- Behind the dot the pieces go on as behind a root.
  obtain ⟨body, hanchor, hbody⟩ : ∃ body, p.anchor = (".", body) ∧
      (body = [] ∧ tail = [] ∨ body = "" :: tail) := by
    rw [anchor, habsolute, hhere, htail]
    cases tail with
    | nil => exact ⟨[], rfl, .inl ⟨rfl, rfl⟩⟩
    | cons first others => exact ⟨"" :: first :: others, rfl, .inr rfl⟩
  have hsteps : tail.filterMap componentOf? = body.filterMap componentOf? := by
    obtain ⟨rfl, rfl⟩ | rfl := hbody <;> rfl
  rw [parent?, hanchor, hhere, hcomponents, hsteps]
  dsimp only
  cases h : trimmed body.reverse with
  | nil =>
    refine ⟨_, .here, rfl, ?_, by rfl⟩
    rw [filterMap_eq_nil_of_trimmed h]
    rfl
  | cons last rest =>
    obtain ⟨hfront, c, hc⟩ := exists_of_trimmed h
    refine ⟨_, c, rfl, ?_⟩
    obtain ⟨others, htext, hothers, hkept⟩ : ∃ others,
        "." ++ "/".intercalate (trimmed rest).reverse = "/".intercalate ("." :: others) ∧
          others <+: tail ∧
          (trimmed rest).reverse.filterMap componentOf? = others.filterMap componentOf? := by
      cases hrest : (trimmed rest).reverse with
      | nil => exact ⟨[], by simp, List.nil_prefix, rfl⟩
      | cons first others =>
        obtain ⟨rfl, -⟩ | rfl := hbody
        · cases h
        · obtain ⟨rfl, hothers⟩ := List.cons_prefix_cons.mp (hrest ▸ hfront)
          refine ⟨others, ?_, hothers, rfl⟩
          cases others with
          | nil => simp
          | cons second others =>
            rw [String.intercalate_cons_cons, String.intercalate_cons_cons, String.empty_append,
              String.append_assoc]
    obtain ⟨hroot, hq⟩ := components_intercalate hp habsolute
      (htail ▸ List.cons_prefix_cons.mpr ⟨rfl, hothers⟩)
    rw [htext, hc, hkept, hq, hstart]
    exact ⟨rfl, hroot⟩

/-- Only the empty path and the root have no parent; another path has one more component than its
parent, and starts where that one starts. -/
theorem parent?_spec (p : Path) :
    (p.parent? = none ∧ (p.components = [] ∨ p.components = [.root])) ∨
      ∃ q c, p.parent? = some q ∧ p.components = q.components ++ [c] ∧
        q.isAbsolute = p.isAbsolute := by
  cases habsolute : p.isAbsolute with
  | true =>
    obtain ⟨hroot, hnone⟩ | ⟨q, hq, hq', -, hcomponents⟩ := parent?_of_isAbsolute habsolute
    · exact .inl ⟨hnone, .inr hroot⟩
    · have hne : p.components ≠ [] := by
        intro hempty
        have hhead := (isAbsolute_iff p).mp habsolute
        rw [hempty] at hhead
        cases hhead
      refine .inr ⟨q, p.components.getLast hne, hq, ?_, hq'⟩
      rw [hcomponents, List.dropLast_append_getLast]
  | false =>
    cases hhere : p.startsHere with
    | true => exact .inr (parent?_of_startsHere habsolute hhere)
    | false => exact (parent?_of_plain habsolute hhere).imp_left fun ⟨h, h'⟩ => ⟨h, .inl h'⟩

/-! ## Enclosing paths -/

/-- A path that is another one or lies above it.  The empty path lies above relative paths only. -/
def Encloses (q p : Path) : Prop := q.components <+: p.components ∧ q.isAbsolute = p.isAbsolute

theorem Encloses.refl (p : Path) : p.Encloses p := ⟨List.prefix_rfl, rfl⟩

/-- Equal paths enclose the same paths and are enclosed by the same. -/
theorem Encloses.congr {p' q' : Path} (hq : (q == q') = true) (hp : (p == p') = true) :
    q.Encloses p ↔ q'.Encloses p' := by
  rw [Encloses, Encloses, isAbsolute_congr hq, isAbsolute_congr hp, (beq_iff q q').mp hq,
    (beq_iff p p').mp hp]

/-- A path is enclosed by itself and by what encloses its parent. -/
theorem encloses_iff_of_parent? {r : Path} {c : Component}
    (hcomponents : p.components = r.components ++ [c]) (hroot : r.isAbsolute = p.isAbsolute) :
    q.Encloses p ↔ (q == p) = true ∨ q.Encloses r := by
  rw [Encloses, Encloses, hcomponents, hroot, beq_iff, hcomponents, List.prefix_concat_iff]
  constructor
  · rintro ⟨heq | hfront, habsolute⟩
    · exact .inl heq
    · exact .inr ⟨hfront, habsolute⟩
  · rintro (heq | ⟨hfront, habsolute⟩)
    · refine ⟨.inl heq, ?_⟩
      rw [Bool.eq_iff_iff, isAbsolute_iff, isAbsolute_iff, heq, hcomponents]
    · exact ⟨.inr hfront, habsolute⟩

/-- A path without parent is enclosed only by itself. -/
theorem encloses_iff_of_root (h : p.components = [] ∨ p.components = [.root]) :
    q.Encloses p ↔ (q == p) = true := by
  constructor
  · rintro ⟨hfront, habsolute⟩
    rw [beq_iff]
    obtain hp | hp := h
    · rw [hp] at hfront ⊢
      exact List.prefix_nil.mp hfront
    · have hroot : q.components.head? = some .root := by
        rw [← isAbsolute_iff, habsolute, isAbsolute_iff, hp]
        rfl
      obtain ⟨rest, hrest⟩ := List.head?_eq_some_iff.mp hroot
      rw [hp, hrest] at hfront ⊢
      rw [List.prefix_nil.mp (List.cons_prefix_cons.mp hfront).2]
  · intro heq
    exact (Encloses.congr heq BEq.rfl).mpr (.refl p)

theorem Encloses.length_le (h : q.Encloses p) : q.components.length ≤ p.components.length :=
  h.1.length_le

/-- The paths above a path are ever shorter and enclose it. -/
theorem pairwise_ancestorsWithin (n : Nat) (p : Path) :
    (∀ a ∈ ancestorsWithin n p, a.Encloses p) ∧
      (ancestorsWithin n p).Pairwise fun a b => b.components.length < a.components.length := by
  have hself (p : Path) : (∀ a ∈ [p], a.Encloses p) ∧
      [p].Pairwise fun a b => b.components.length < a.components.length :=
    ⟨fun a ha => List.mem_singleton.mp ha ▸ .refl p, List.pairwise_singleton _ _⟩
  induction n generalizing p with
  | zero => exact hself p
  | succ n ih =>
    rw [ancestorsWithin]
    obtain ⟨hnone, -⟩ | ⟨r, c, hr, hcomponents, hroot⟩ := parent?_spec p
    · rw [hnone]
      exact hself p
    · rw [hr]
      obtain ⟨hencloses, hshorter⟩ := ih r
      refine ⟨fun a ha => ?_, List.pairwise_cons.mpr ⟨fun a ha => ?_, hshorter⟩⟩
      · obtain rfl | ha := List.mem_cons.mp ha
        · exact .refl a
        · exact (encloses_iff_of_parent? hcomponents hroot).mpr (.inr (hencloses a ha))
      · have hle := (hencloses a ha).length_le
        rw [hcomponents, List.length_append, List.length_singleton]
        omega

/-- Each path that encloses another one is above it, in some spelling. -/
theorem exists_mem_ancestorsWithin {n : Nat} (hn : p.components.length ≤ n) (h : q.Encloses p) :
    ∃ a ∈ ancestorsWithin n p, (a == q) = true := by
  induction n generalizing p with
  | zero =>
    have hempty : p.components = [] := List.length_eq_zero_iff.mp (Nat.le_zero.mp hn)
    exact ⟨p, List.mem_singleton_self p, BEq.symm ((encloses_iff_of_root (.inl hempty)).mp h)⟩
  | succ n ih =>
    rw [ancestorsWithin]
    obtain ⟨hnone, hroot⟩ | ⟨r, c, hr, hcomponents, hroot⟩ := parent?_spec p
    · rw [hnone]
      exact ⟨p, List.mem_singleton_self p, BEq.symm ((encloses_iff_of_root hroot).mp h)⟩
    · rw [hr]
      obtain heq | habove := (encloses_iff_of_parent? hcomponents hroot).mp h
      · exact ⟨p, List.mem_cons_self, BEq.symm heq⟩
      · rw [hcomponents, List.length_append, List.length_singleton] at hn
        obtain ⟨a, ha, heq⟩ := ih (Nat.le_of_succ_le_succ hn) habove
        exact ⟨a, List.mem_cons_of_mem p ha, heq⟩

theorem encloses_of_mem_ancestors (h : q ∈ p.ancestors) : q.Encloses p :=
  (pairwise_ancestorsWithin _ p).1 q h

theorem exists_mem_ancestors (h : q.Encloses p) : ∃ a ∈ p.ancestors, (a == q) = true :=
  exists_mem_ancestorsWithin le_rfl h

/-- Of the paths above a path those before another one are longer and those behind it shorter. -/
theorem length_lt_of_ancestors_eq {inner outer : List Path}
    (h : p.ancestors = inner ++ q :: outer) :
    (∀ a ∈ inner, q.components.length < a.components.length) ∧
      ∀ a ∈ outer, a.components.length < q.components.length := by
  have hshorter := (pairwise_ancestorsWithin p.components.length p).2
  rw [← ancestors, h] at hshorter
  obtain ⟨-, hrest, hinner⟩ := List.pairwise_append.mp hshorter
  exact ⟨fun a ha => hinner a ha q List.mem_cons_self,
    fun a ha => List.rel_of_pairwise_cons hrest ha⟩

theorem length_eq_of_beq (h : (p == q) = true) : p.components.length = q.components.length := by
  rw [(beq_iff p q).mp h]

end Path

/-! ## Registrations -/

/-- The project that has been registered last at a directory. -/
def IsLatestAt (projects : List Project) (dir : Path) (p : Project) : Prop :=
  ∃ before after, projects = before ++ p :: after ∧ (p.dir == dir) = true ∧
    ∀ q ∈ after, ¬(q.dir == dir) = true

/-- The project that encloses a directory most closely: registered last at its own directory, and
this is the deepest one with a registered project that encloses the other. -/
structure IsNearest (projects : List Project) (dir : Path) (p : Project) : Prop where
  latest : IsLatestAt projects p.dir p
  encloses : p.dir.Encloses dir
  deepest : ∀ q ∈ projects, q.dir.Encloses dir →
    q.dir.components.length ≤ p.dir.components.length

section Registrations

variable {projects : List Project} {dir dir' : Path} {p q : Project}

theorem isLatestAt_iff :
    IsLatestAt projects dir p ↔ projects.reverse.find? (·.dir == dir) = some p := by
  rw [List.find?_eq_some_iff_append]
  constructor
  · rintro ⟨before, after, rfl, hp, hafter⟩
    refine ⟨hp, after.reverse, before.reverse, by simp, fun q hq => ?_⟩
    simpa using hafter q (List.mem_reverse.mp hq)
  · rintro ⟨hp, after, before, hreverse, hafter⟩
    refine ⟨before.reverse, after.reverse, ?_, hp, fun q hq => ?_⟩
    · rw [← List.reverse_inj, hreverse]
      simp
    · simpa using hafter q (List.mem_reverse.mp hq)

theorem isLatestAt_concat :
    IsLatestAt (projects ++ [q]) dir p ↔
      if (q.dir == dir) = true then q = p else IsLatestAt projects dir p := by
  rw [isLatestAt_iff, isLatestAt_iff, List.reverse_concat, List.find?_cons]
  cases q.dir == dir <;> simp

theorem IsLatestAt.congr (h : (dir == dir') = true) :
    IsLatestAt projects dir p ↔ IsLatestAt projects dir' p := by
  have hkey (q : Project) : (q.dir == dir) = (q.dir == dir') := BEq.congr_right h
  simp only [IsLatestAt, hkey]

theorem IsLatestAt.mem (h : IsLatestAt projects dir p) : p ∈ projects := by
  obtain ⟨before, after, rfl, -⟩ := h
  exact List.mem_append_right _ List.mem_cons_self

theorem IsLatestAt.beq (h : IsLatestAt projects dir p) : (p.dir == dir) = true := by
  obtain ⟨before, after, -, hp, -⟩ := h
  exact hp

/-- Where a project has been registered, one has been registered last. -/
theorem exists_isLatestAt (hq : q ∈ projects) (h : (q.dir == dir) = true) :
    ∃ p, IsLatestAt projects dir p := by
  simp only [isLatestAt_iff]
  exact Option.isSome_iff_exists.mp (List.find?_isSome.mpr ⟨q, List.mem_reverse.mpr hq, h⟩)

/-- A project is the nearest one under each spelling of a directory. -/
theorem IsNearest.congr (h : (dir == dir') = true) :
    IsNearest projects dir p ↔ IsNearest projects dir' p := by
  have hencloses (d : Path) : d.Encloses dir ↔ d.Encloses dir' := Path.Encloses.congr BEq.rfl h
  constructor
  · rintro ⟨hlatest, hp, hdeepest⟩
    exact ⟨hlatest, (hencloses _).mp hp, fun q hq hq' => hdeepest q hq ((hencloses _).mpr hq')⟩
  · rintro ⟨hlatest, hp, hdeepest⟩
    exact ⟨hlatest, (hencloses _).mpr hp, fun q hq hq' => hdeepest q hq ((hencloses _).mp hq')⟩

end Registrations

namespace ProjectIndex

variable {index : ProjectIndex} {files : Files} {projects : List Project} {dir dir' : Path}

/-! ## The search -/

/-- No manifest lies anywhere. -/
def NoManifests (files : Files) : Prop :=
  ∀ dir : Path, files.isFile (dir.join Manifest.fileName) = false

/-- Of the projects registered one after the other the last one stands at each directory. -/
def Holds (index : ProjectIndex) (projects : List Project) : Prop :=
  ∀ dir p, index.registered.get? dir = some p ↔ IsLatestAt projects dir p

theorem NoManifests.exists_error (hfiles : NoManifests files) (dir : Path) :
    ∃ why, files.read (dir.join Manifest.fileName) = .error why := by
  have hfile := hfiles dir
  rw [Files.isFile] at hfile
  cases h : files.read (dir.join Manifest.fileName) with
  | error why => exact ⟨why, rfl⟩
  | ok text =>
    rw [h] at hfile
    cases hfile

theorem projectAt?_eq (hfiles : NoManifests files) :
    index.projectAt? files dir = index.registered.get? dir := by
  obtain ⟨why, hwhy⟩ := hfiles.exists_error dir
  have hmanifest : manifestIn? files dir = none := by
    rw [manifestIn?, hwhy]
    rfl
  rw [projectAt?, hmanifest, Option.map_none, Option.or_none]

theorem isNearest_of_search (hfiles : NoManifests files) (hindex : index.Holds projects)
    {p : Project} (h : index.search files dir = some p) : IsNearest projects dir p := by
  obtain ⟨inner, a, outer, hancestors, ha, hinner⟩ := List.findSome?_eq_some_iff.mp h
  rw [projectAt?_eq hfiles] at ha
  have hlatest := (hindex a p).mp ha
  have hmem : a ∈ dir.ancestors := hancestors ▸ List.mem_append_right _ List.mem_cons_self
  refine ⟨(IsLatestAt.congr hlatest.beq).mpr hlatest, (Path.Encloses.congr hlatest.beq BEq.rfl).mpr
    (Path.encloses_of_mem_ancestors hmem), fun q hq hqdir => ?_⟩
  obtain ⟨b, hb, hbq⟩ := Path.exists_mem_ancestors hqdir
  rw [← Path.length_eq_of_beq hbq, Path.length_eq_of_beq hlatest.beq]
  rw [hancestors] at hb
  rcases List.mem_append.mp hb with hb | hb
  · -- Further inside the search would have ended.
    obtain ⟨r, hr⟩ := exists_isLatestAt hq (BEq.symm hbq)
    have hnone := hinner b hb
    rw [projectAt?_eq hfiles, (hindex b r).mpr hr] at hnone
    cases hnone
  · rcases List.mem_cons.mp hb with rfl | hb
    · exact le_rfl
    · exact ((Path.length_lt_of_ancestors_eq hancestors).2 b hb).le

theorem search_of_isNearest (hfiles : NoManifests files) (hindex : index.Holds projects)
    {p : Project} (h : IsNearest projects dir p) : index.search files dir = some p := by
  obtain ⟨a, ha, hap⟩ := Path.exists_mem_ancestors h.encloses
  obtain ⟨inner, outer, hancestors⟩ := List.append_of_mem ha
  have hat : index.projectAt? files a = some p := by
    rw [projectAt?_eq hfiles]
    exact (hindex a p).mpr ((IsLatestAt.congr hap).mpr h.latest)
  refine List.findSome?_eq_some_iff.mpr ⟨inner, a, outer, hancestors, hat, fun b hb => ?_⟩
  refine Option.eq_none_iff_forall_ne_some.mpr fun q hq => ?_
  rw [projectAt?_eq hfiles] at hq
  have hlatest := (hindex b q).mp hq
  have hmem : b ∈ dir.ancestors := hancestors ▸ List.mem_append_left _ hb
  have hdeep := h.deepest q hlatest.mem
    ((Path.Encloses.congr hlatest.beq BEq.rfl).mpr (Path.encloses_of_mem_ancestors hmem))
  have hlonger := (Path.length_lt_of_ancestors_eq hancestors).1 b hb
  rw [Path.length_eq_of_beq hlatest.beq, ← Path.length_eq_of_beq hap] at hdeep
  omega

/-- Without manifests the search finds the nearest of the registered projects. -/
theorem search_eq_some_iff (hfiles : NoManifests files) (hindex : index.Holds projects)
    {p : Project} : index.search files dir = some p ↔ IsNearest projects dir p :=
  ⟨isNearest_of_search hfiles hindex, search_of_isNearest hfiles hindex⟩

/-- Without manifests the search finds nothing exactly if no registered project encloses the
directory. -/
theorem search_eq_none_iff (hfiles : NoManifests files) (hindex : index.Holds projects) :
    index.search files dir = none ↔ ∀ p ∈ projects, ¬p.dir.Encloses dir := by
  constructor
  · intro hnone p hp hencloses
    obtain ⟨a, ha, hap⟩ := Path.exists_mem_ancestors hencloses
    obtain ⟨q, hq⟩ := exists_isLatestAt hp (BEq.symm hap)
    have hat := List.findSome?_eq_none_iff.mp hnone a ha
    rw [projectAt?_eq hfiles, (hindex a q).mpr hq] at hat
    cases hat
  · intro h
    refine Option.eq_none_iff_forall_ne_some.mpr fun p hp => ?_
    have hnearest := (search_eq_some_iff hfiles hindex).mp hp
    exact h p hnearest.latest.mem hnearest.encloses

/-! ## Histories -/

/-- What can be done with an index. -/
inductive Call where
  | register (p : Project)
  | nearest (dir : Path)
  | invalidate
  | load (dir : Path)

/-- The index after a call. -/
def perform (files : Files) (index : ProjectIndex) : Call → ProjectIndex
  | .register p => index.register p
  | .nearest dir => (index.nearest files dir).2
  | .invalidate => index.invalidate
  | .load dir => (index.load files dir).2

/-- The project that a call registers. -/
def Call.registered? : Call → Option Project
  | .register p => some p
  | .nearest _ | .invalidate | .load _ => none

/-- The index after a history of calls. -/
def after (files : Files) (calls : List Call) : ProjectIndex := calls.foldl (perform files) empty

/-- The projects registered in a history, in the order of their registration. -/
def registrations (calls : List Call) : List Project := calls.filterMap Call.registered?

/-- An index holds the registered projects, and its answers are those that the search gives now. -/
structure IsExact (index : ProjectIndex) (files : Files) (projects : List Project) : Prop where
  holds : index.Holds projects
  answers : ∀ dir answer, index.answers.get? dir = some answer → answer = index.search files dir

/-- Without manifests a load fails and leaves the index as it is. -/
theorem exists_load_eq (hfiles : NoManifests files) (index : ProjectIndex) (dir : Path) :
    ∃ e, index.load files dir = (.error e, index) := by
  obtain ⟨why, hwhy⟩ := hfiles.exists_error dir
  exact ⟨_, by rw [load, hwhy]⟩

theorem Holds.register (h : index.Holds projects) (p : Project) :
    (index.register p).Holds (projects ++ [p]) := by
  intro dir q
  rw [isLatestAt_concat, ProjectIndex.register, Dict.get?_insert]
  split
  · rw [Option.some.injEq]
  · exact h dir q

theorem isExact_empty (files : Files) : empty.IsExact files [] where
  holds dir p := by simp [empty, isLatestAt_iff]
  answers := nofun

/-- The search finds the same project under each spelling of a directory. -/
theorem search_congr (hfiles : NoManifests files) (hindex : index.Holds projects)
    (h : (dir == dir') = true) : index.search files dir = index.search files dir' := by
  ext p
  rw [search_eq_some_iff hfiles hindex, search_eq_some_iff hfiles hindex, IsNearest.congr h]

/-- An exact index answers as the search does and stays exact. -/
theorem IsExact.nearest (h : index.IsExact files projects) (hfiles : NoManifests files)
    (dir : Path) :
    (index.nearest files dir).1 = index.search files dir ∧
      (index.nearest files dir).2.IsExact files projects := by
  rw [ProjectIndex.nearest]
  split
  · next answer hanswer => exact ⟨h.answers dir answer hanswer, h⟩
  · refine ⟨rfl, h.holds, fun dir' answer hanswer => ?_⟩
    rw [Dict.get?_insert] at hanswer
    split at hanswer
    · next heq =>
      rw [← Option.some.inj hanswer]
      exact search_congr hfiles h.holds heq
    · exact h.answers dir' answer hanswer

/-- Each call leaves an exact index exact. -/
theorem IsExact.perform (h : index.IsExact files projects) (hfiles : NoManifests files)
    (call : Call) :
    (index.perform files call).IsExact files (projects ++ call.registered?.toList) := by
  cases call with
  | register p => exact ⟨h.holds.register p, nofun⟩
  | nearest dir =>
    rw [Call.registered?, Option.toList_none, List.append_nil]
    exact (h.nearest hfiles dir).2
  | invalidate =>
    rw [Call.registered?, Option.toList_none, List.append_nil]
    exact ⟨h.holds, nofun⟩
  | load dir =>
    obtain ⟨e, he⟩ := exists_load_eq hfiles index dir
    rw [Call.registered?, Option.toList_none, List.append_nil, ProjectIndex.perform, he]
    exact h

theorem isExact_after (hfiles : NoManifests files) (calls : List Call) :
    (after files calls).IsExact files (registrations calls) := by
  induction calls using List.reverseRecOn with
  | nil => exact isExact_empty files
  | append_singleton calls call ih =>
    have hregistered : registrations (calls ++ [call])
        = registrations calls ++ call.registered?.toList := by
      rw [registrations, List.filterMap_append]
      cases h : call.registered? <;> simp [registrations, h]
    rw [after, List.foldl_concat, hregistered]
    exact ih.perform hfiles call

/-- After every history of calls without manifests, the project of a directory is the one registered
last at the deepest directory with a registered project that encloses it; there is none if no
registered project encloses it. -/
theorem nearest_after_iff (hfiles : NoManifests files) (calls : List Call) (dir : Path) :
    (∀ p, ((after files calls).nearest files dir).1 = some p ↔
        IsNearest (registrations calls) dir p) ∧
      (((after files calls).nearest files dir).1 = none ↔
        ∀ p ∈ registrations calls, ¬p.dir.Encloses dir) := by
  have hexact := isExact_after hfiles calls
  rw [(hexact.nearest hfiles dir).1]
  exact ⟨fun p => search_eq_some_iff hfiles hexact.holds, search_eq_none_iff hfiles hexact.holds⟩

theorem noManifests_none : NoManifests .none := by
  intro dir
  rw [Files.isFile, Files.read]
  cases Files.none.place (dir.join Manifest.fileName) with
  | error why => rfl
  | ok names => rfl

/-- A project without dependencies, told apart by its schema version. -/
def birdProject (dir : String) (version : Nat) : Project :=
  ⟨⟨dir⟩, ⟨version, Dict.empty, Dict.empty⟩⟩

/-- Projects above and below a directory, one of them registered twice, between lookups. -/
def birdCalls : List Call :=
  [.nearest ⟨"/birds/nests"⟩, .register (birdProject "/birds" 1), .nearest ⟨"/birds/./nests"⟩,
    .register (birdProject "/" 2), .load ⟨"/birds/nests"⟩,
    .register (birdProject "/birds/nests/old" 3), .nearest ⟨"/birds/nests"⟩,
    .register (birdProject "/birds/" 4), .invalidate]

theorem nearest_after_birdCalls : NoManifests .none ∧
    IsNearest (registrations birdCalls) ⟨"/birds//nests"⟩ (birdProject "/birds/" 4) ∧
      ∀ p ∈ registrations birdCalls, ¬p.dir.Encloses ⟨"birds/nests"⟩ := by
  obtain ⟨hfound, -⟩ := nearest_after_iff noManifests_none birdCalls ⟨"/birds//nests"⟩
  obtain ⟨-, hnone⟩ := nearest_after_iff noManifests_none birdCalls ⟨"birds/nests"⟩
  exact ⟨noManifests_none, (hfound _).mp (by rfl), hnone.mp (by rfl)⟩

end ProjectIndex

end PklAnalysis
