import Mathlib.Data.Option.Basic
import PklAnalysis.Proofs.Modules.ArisingStores
import PklAnalysis.Proofs.Modules.PathSteps

/-!
# Directories and their projects

The parent of an absolute path has all its components but the last.  The project of a directory is
looked for in this directory and the ones above it, so that the search finds the same project under
each spelling of the directory, and answers given before agree with it.  The directories of projects
are absolute, whatever has been registered and looked up.
-/

namespace PklAnalysis

/-! ## Parents -/

namespace Path

variable {p q : Path}

theorem isAbsolute_iff (p : Path) : p.isAbsolute = true ↔ p.components.head? = some .root := by
  rw [components_eq, start]
  split
  · next h => exact iff_of_true h rfl
  · next h =>
    refine iff_of_false h fun hroot => ?_
    split at hroot
    · cases hroot
    · rw [List.nil_append] at hroot
      obtain hup | ⟨n, hn⟩ := eq_up_or_name_of_mem_steps (List.mem_of_head? hroot)
      · cases hup
      · cases hn

theorem isAbsolute_congr (h : (p == q) = true) : p.isAbsolute = q.isAbsolute := by
  rw [Bool.eq_iff_iff, isAbsolute_iff, isAbsolute_iff, (beq_iff p q).mp h]

theorem isAbsolute_of_beq (h : (p == q) = true) (hp : p.isAbsolute = true) :
    q.isAbsolute = true := by
  rwa [← isAbsolute_congr h]

/-- Pieces that are no components do not count at the end. -/
theorem filterMap_trimmed (pieces : List String) :
    (trimmed pieces).filterMap componentOf? = pieces.filterMap componentOf? := by
  induction pieces with
  | nil => rfl
  | cons s pieces ih =>
    rw [trimmed, List.dropWhile_cons]
    split
    · next hs =>
      rw [List.filterMap_cons_none (by simpa using hs)]
      exact ih
    · rfl

/-- An absolute path behind its root, in reverse and without what counts for nothing at its end: its
pieces give its components, and without the last one its parent. -/
theorem exists_body (h : p.isAbsolute = true) : ∃ body : List String,
    (∀ s ∈ body, '/' ∉ s.toList) ∧ (∀ s ∈ body.head?, (componentOf? s).isSome) ∧
      p.components = .root :: (body.filterMap componentOf?).reverse ∧
      p.parent? = body.tail?.map fun rest => ⟨"/" ++ "/".intercalate (trimmed rest).reverse⟩ := by
  obtain ⟨text, htext⟩ := Text.startsWith_iff.mp h
  have hpieces : p.pieces = "" :: Text.pieces (· = '/') text := by
    have hsplit : "/" ++ text = "" ++ "/" ++ text := by rw [String.empty_append]
    rw [pieces, htext, hsplit, Text.pieces_append]
    rfl
  have hhere : p.startsHere = false := by
    rw [startsHere, hpieces]
    rfl
  refine ⟨trimmed (Text.pieces (· = '/') text).reverse, ?_, ?_, ?_, ?_⟩
  · intro s hs
    exact Text.notMem_of_mem_pieces (List.mem_reverse.mp (List.dropWhile_subset _ hs))
  · intro s hs
    have hhead := List.head?_dropWhile_not (fun s => (componentOf? s).isNone)
      (Text.pieces (· = '/') text).reverse
    rw [← trimmed, Option.mem_def.mp hs] at hhead
    simpa using hhead
  · rw [components_eq, start, if_pos h, steps, ← pieces, hpieces, filterMap_trimmed,
      List.filterMap_reverse, List.reverse_reverse]
    rfl
  · have hanchor : p.anchor = ("/", Text.pieces (· = '/') text) := by
      rw [anchor, if_pos h, hpieces]
      rfl
    rw [parent?, hanchor, hhere]
    dsimp only
    cases trimmed (Text.pieces (· = '/') text).reverse <;> rfl

/-- The parent of an absolute path has all components of the path but the last, and only the root has
none. -/
theorem parent?_of_isAbsolute (h : p.isAbsolute = true) :
    (p.components = [.root] ∧ p.parent? = none) ∨
      ∃ q, p.parent? = some q ∧ q.isAbsolute = true ∧ p.components ≠ [.root] ∧
        q.components = p.components.dropLast := by
  obtain ⟨body, hslash, hhead, hcomponents, hparent⟩ := exists_body h
  cases body with
  | nil => exact .inl ⟨hcomponents, hparent⟩
  | cons last rest =>
    obtain ⟨c, hc⟩ := Option.isSome_iff_exists.mp (hhead last rfl)
    have hrest : ∀ s ∈ (trimmed rest).reverse, '/' ∉ s.toList := fun s hs =>
      hslash s (List.mem_cons_of_mem _ (List.dropWhile_subset _ (List.mem_reverse.mp hs)))
    have habsolute : isAbsolute ⟨"/" ++ "/".intercalate (trimmed rest).reverse⟩ = true :=
      Text.startsWith_iff.mpr ⟨_, rfl⟩
    have htext : "/" ++ "/".intercalate (trimmed rest).reverse
        = "" ++ "/" ++ "/".intercalate (trimmed rest).reverse := by rw [String.empty_append]
    have hall : p.components = .root :: (rest.filterMap componentOf?).reverse ++ [c] := by
      rw [hcomponents, List.filterMap_cons_some hc, List.reverse_cons]
      rfl
    refine .inr ⟨⟨"/" ++ "/".intercalate (trimmed rest).reverse⟩, hparent, habsolute, by simp [hall],
      ?_⟩
    rw [hall, List.dropLast_concat, components_eq, start, if_pos habsolute, htext, steps_append,
      steps_empty, steps_intercalate hrest, List.filterMap_reverse, filterMap_trimmed]
    rfl

/-- The paths above an absolute path are absolute. -/
theorem isAbsolute_of_mem_ancestorsWithin {n : Nat} (h : p.isAbsolute = true)
    (hq : q ∈ ancestorsWithin n p) : q.isAbsolute = true := by
  induction n generalizing p with
  | zero => rwa [List.mem_singleton.mp hq]
  | succ n ih =>
    rw [ancestorsWithin] at hq
    split at hq
    · next r hr =>
      rcases List.mem_cons.mp hq with rfl | hq
      · exact h
      · obtain ⟨-, hnone⟩ | ⟨r', hr', habsolute, -⟩ := parent?_of_isAbsolute h
        · exact nomatch hnone.symm.trans hr
        · obtain rfl := Option.some.inj (hr'.symm.trans hr)
          exact ih habsolute hq
    · rwa [List.mem_singleton.mp hq]

/-- The paths above an absolute path are the same under each spelling. -/
theorem forall₂_ancestorsWithin (n : Nat) (hp : p.isAbsolute = true) (h : (p == q) = true) :
    List.Forall₂ (fun a b => (a == b) = true) (ancestorsWithin n p) (ancestorsWithin n q) := by
  induction n generalizing p q with
  | zero => exact .cons h .nil
  | succ n ih =>
    have hcomponents := (beq_iff p q).mp h
    rw [ancestorsWithin, ancestorsWithin]
    obtain ⟨hroot, hnone⟩ | ⟨p', hp', habsolute, hne, hdrop⟩ := parent?_of_isAbsolute hp <;>
      obtain ⟨hroot', hnone'⟩ | ⟨q', hq', habsolute', hne', hdrop'⟩ :=
        parent?_of_isAbsolute (isAbsolute_of_beq h hp)
    · rw [hnone, hnone']
      exact .cons h .nil
    · exact absurd (hcomponents ▸ hroot) hne'
    · exact absurd (hcomponents.trans hroot') hne
    · rw [hp', hq']
      refine .cons h (ih habsolute ((beq_iff p' q').mpr ?_))
      rw [hdrop, hdrop', hcomponents]

theorem isAbsolute_of_mem_ancestors (h : p.isAbsolute = true) (hq : q ∈ p.ancestors) :
    q.isAbsolute = true := isAbsolute_of_mem_ancestorsWithin h hq

theorem forall₂_ancestors (hp : p.isAbsolute = true) (h : (p == q) = true) :
    List.Forall₂ (fun a b => (a == b) = true) p.ancestors q.ancestors := by
  rw [ancestors, ancestors, ← (beq_iff p q).mp h]
  exact forall₂_ancestorsWithin _ hp h

/-- The last piece of a path followed from another one is its own. -/
theorem getLast?_pieces_join (hp : p.text ≠ "") {text : String}
    (h : Text.startsWith "/" text = false) :
    (p.join text).pieces.getLast? = (Text.pieces (· = '/') text).getLast? := by
  obtain ⟨a, hopening, -⟩ := exists_opening_eq hp
  rw [join_eq p h, hopening, pieces, Text.pieces_append,
    List.getLast?_append_of_ne_nil _ (Text.pieces_ne_nil _)]

theorem text_ne_empty_of_isAbsolute (h : p.isAbsolute = true) : p.text ≠ "" := by
  intro hempty
  rw [isAbsolute, hempty] at h
  cases h

end Path

/-! ## Files in directories -/

namespace Files

variable {p q : Path}

theorem read_congr (files : Files) (h : (p == q) = true)
    (hlast : p.pieces.getLast? = q.pieces.getLast?) : files.read p = files.read q := by
  have hcomponents := (Path.beq_iff p q).mp h
  have habsolute := Path.isAbsolute_congr h
  have hnames : namesDirectory p = namesDirectory q := by
    simp only [namesDirectory, hlast]
  have hplace : files.place p = files.place q := by
    rw [place, place, habsolute, hcomponents, hnames]
  rw [read, read, hplace]

/-- A file in a directory is read under each spelling of the directory. -/
theorem read_join (files : Files) (hp : p.isAbsolute = true) (h : (p == q) = true) {name : String}
    (hname : Text.startsWith "/" name = false) :
    files.read (p.join name) = files.read (q.join name) := by
  have hp' := Path.text_ne_empty_of_isAbsolute hp
  have hq' := Path.text_ne_empty_of_isAbsolute (Path.isAbsolute_of_beq h hp)
  refine read_congr files ((Path.beq_iff _ _).mpr ?_) ?_
  · rw [Path.components_join hp' hname, Path.components_join hq' hname, (Path.beq_iff p q).mp h]
  · rw [Path.getLast?_pieces_join hp' hname, Path.getLast?_pieces_join hq' hname]

end Files

/-! ## Projects of directories -/

/-- Projects with the same manifest in directories that are the same. -/
def Project.Same (p q : Project) : Prop := (p.dir == q.dir) = true ∧ p.manifest = q.manifest

theorem Project.Same.refl (p : Project) : p.Same p := ⟨BEq.rfl, rfl⟩

theorem Project.Same.symm {p q : Project} (h : p.Same q) : q.Same p :=
  ⟨BEq.symm h.1, h.2.symm⟩

theorem Project.Same.trans {p q r : Project} (h : p.Same q) (h' : q.Same r) : p.Same r :=
  ⟨BEq.trans h.1 h'.1, h.2.trans h'.2⟩

/-- What is found first in two lists is related if the lists are. -/
theorem rel_findSome? {α β γ δ : Type} {R : α → β → Prop} {S : γ → δ → Prop} {f : α → Option γ}
    {g : β → Option δ} {as : List α} {bs : List β} (h : List.Forall₂ R as bs)
    (hfg : ∀ a ∈ as, ∀ b, R a b → Option.Rel S (f a) (g b)) :
    Option.Rel S (as.findSome? f) (bs.findSome? g) := by
  induction h with
  | nil => exact .none
  | @cons a b as bs hab _ ih =>
    obtain ⟨ha, has⟩ := List.forall_mem_cons.mp hfg
    rw [List.findSome?_cons, List.findSome?_cons]
    have hfirst := ha b hab
    generalize f a = x at hfirst ⊢
    generalize g b = y at hfirst ⊢
    cases hfirst with
    | some hcd => exact .some hcd
    | none => exact ih has

/-- A new value stands under its own key, or under one that is the same. -/
theorem Dict.mem_put_self {α β : Type} [BEq α] [ReflBEq α] {a : α} {b : β} {es : List (α × β)}
    {e : α × β} (h : e ∈ put a b es) :
    e ∈ es ∨ (e.1 == a) = true ∧ e.2 = b := by
  induction es with
  | nil =>
    obtain rfl := List.mem_singleton.mp h
    exact .inr ⟨BEq.rfl, rfl⟩
  | cons c cs ih =>
    rw [put] at h
    split at h
    · next hc =>
      rcases List.mem_cons.mp h with rfl | h
      · exact .inr ⟨hc, rfl⟩
      · exact .inl (List.mem_cons_of_mem c h)
    · rcases List.mem_cons.mp h with rfl | h
      · exact .inl List.mem_cons_self
      · exact (ih h).imp_left (List.mem_cons_of_mem c)

section Rel

variable {x y z : Option Project}

theorem rel_refl (x : Option Project) : Option.Rel Project.Same x x := by
  cases x with
  | none => exact .none
  | some p => exact .some (.refl p)

theorem rel_trans (h : Option.Rel Project.Same x y) (h' : Option.Rel Project.Same y z) :
    Option.Rel Project.Same x z := by
  cases h with
  | none => exact h'
  | some hpq =>
    cases h' with
    | some hqr => exact .some (hpq.trans hqr)

end Rel

namespace ProjectIndex

variable {index : ProjectIndex} {files : Files} {dir dir' : Path}

/-- Projects are registered under their own directories. -/
def IsKeyed (index : ProjectIndex) : Prop :=
  ∀ e ∈ index.registered.entries, (e.1 == e.2.dir) = true

/-- The answers given so far are those that the search gives, up to the spelling of directories. -/
structure IsTruthful (index : ProjectIndex) (files : Files) : Prop where
  keyed : index.IsKeyed
  answers : ∀ e ∈ index.answers.entries,
    e.1.isAbsolute = true ∧ Option.Rel Project.Same e.2 (index.search files e.1)

theorem manifestIn?_congr (files : Files) (hdir : dir.isAbsolute = true)
    (h : (dir == dir') = true) : manifestIn? files dir = manifestIn? files dir' := by
  have hparse (text : String) (path path' : Path) :
      (Manifest.parse text path).toOption = (Manifest.parse text path').toOption := by
    rw [Manifest.parse, Manifest.parse]
    cases (Json.parse? text).bind Manifest.ofJson? with
    | none => rfl
    | some m => split <;> rfl
  simp only [manifestIn?, files.read_join hdir h (by decide : Text.startsWith "/" Manifest.fileName
    = false), hparse _ (dir.join Manifest.fileName) (dir'.join Manifest.fileName)]

theorem dir_of_projectAt? (hindex : index.IsKeyed) {p : Project}
    (h : index.projectAt? files dir = some p) : (dir == p.dir) = true := by
  rcases Option.or_eq_some_iff.mp h with h | ⟨-, h⟩
  · obtain ⟨e, he, hdir, rfl⟩ := Dict.exists_mem_of_get? h
    rw [Path.beq_iff, ← (Path.beq_iff _ _).mp hdir, (Path.beq_iff _ _).mp (hindex e he)]
  · obtain ⟨m, -, rfl⟩ := Option.map_eq_some_iff.mp h
    exact (Path.beq_iff _ _).mpr rfl

theorem rel_projectAt? (index : ProjectIndex) (files : Files) (hdir : dir.isAbsolute = true)
    (h : (dir == dir') = true) :
    Option.Rel Project.Same (index.projectAt? files dir) (index.projectAt? files dir') := by
  rw [projectAt?, projectAt?, Dict.get?_congr _ h, manifestIn?_congr files hdir h]
  cases index.registered.get? dir' with
  | some p => exact .some (.refl p)
  | none =>
    cases manifestIn? files dir' with
    | none => exact .none
    | some m => exact .some ⟨h, rfl⟩

/-- The search finds the same project under each spelling of a directory. -/
theorem rel_search (index : ProjectIndex) (files : Files) (hdir : dir.isAbsolute = true)
    (h : (dir == dir') = true) :
    Option.Rel Project.Same (index.search files dir) (index.search files dir') :=
  rel_findSome? (Path.forall₂_ancestors hdir h) fun _ ha _ hab =>
    index.rel_projectAt? files (Path.isAbsolute_of_mem_ancestors hdir ha) hab

/-- The project of an absolute directory is in an absolute directory. -/
theorem isAbsolute_of_search (hindex : index.IsKeyed) (hdir : dir.isAbsolute = true) {p : Project}
    (h : index.search files dir = some p) : p.dir.isAbsolute = true := by
  obtain ⟨d, hd, hp⟩ := List.exists_of_findSome?_eq_some h
  exact Path.isAbsolute_of_beq (dir_of_projectAt? hindex hp) (Path.isAbsolute_of_mem_ancestors hdir hd)

/-- The project of a directory is the one that the search finds, up to the spelling of its directory,
whatever answers have been given before. -/
theorem nearest_spec (hindex : index.IsTruthful files) (hdir : dir.isAbsolute = true) :
    Option.Rel Project.Same (index.nearest files dir).1 (index.search files dir) ∧
      (index.nearest files dir).2.IsTruthful files := by
  rw [nearest]
  split
  · next answer hanswer =>
    obtain ⟨e, he, hkey, rfl⟩ := Dict.exists_mem_of_get? hanswer
    obtain ⟨habsolute, hsame⟩ := hindex.answers e he
    exact ⟨rel_trans hsame (index.rel_search files habsolute hkey), hindex⟩
  · refine ⟨rel_refl _, hindex.keyed, fun e he => ?_⟩
    rcases Dict.mem_put_self he with he | ⟨hkey, hfound⟩
    · exact hindex.answers e he
    · have hkey' : (dir == e.1) = true := BEq.symm hkey
      exact ⟨Path.isAbsolute_of_beq hkey' hdir, hfound ▸ index.rel_search files hdir hkey'⟩

theorem IsTruthful.register (hindex : index.IsTruthful files) (p : Project) :
    (index.register p).IsTruthful files where
  keyed e he := by
    rcases Dict.mem_put_self he with he | ⟨hkey, rfl⟩
    · exact hindex.keyed e he
    · exact hkey
  answers e he := nomatch he

end ProjectIndex

/-! ## Projects of modules -/

namespace Store

variable {W : Store}

/-- The answers about projects are true, and packages belong to projects in absolute directories. -/
structure IsGrounded (W : Store) : Prop where
  projects : W.projects.IsTruthful W.files
  origins : ∀ e ∈ W.origins.entries, e.2.isAbsolute = true

/-- The project of a module, found without the answers given before. -/
def projectFor (W : Store) (importer : ModuleId) : Option Project :=
  (W.projectDir? importer).bind (W.projects.search W.files)

theorem IsGrounded.isAbsolute_projectDir? (hW : W.IsGrounded) {importer : ModuleId} {dir : Path}
    (h : W.projectDir? importer = some dir) : dir.isAbsolute = true := by
  unfold projectDir? at h
  split at h
  · next path hpath =>
    obtain ⟨-, hnone⟩ | ⟨q, hq, habsolute, -⟩ :=
      Path.parent?_of_isAbsolute (ModuleUri.isAbsolute_of_absolute? hpath)
    · exact nomatch hnone.symm.trans h
    · rwa [← Option.some.inj (hq.symm.trans h)]
  · obtain ⟨e, he, -, rfl⟩ := Dict.exists_mem_of_get? h
    exact hW.origins e he
  · cases h

/-- The project of a module does not depend on the answers given before, except for the spelling of
its directory. -/
theorem IsGrounded.projectOf_spec (hW : W.IsGrounded) (importer : ModuleId) :
    Option.Rel Project.Same (projectOf importer W).1 (W.projectFor importer) ∧
      (projectOf importer W).2.IsGrounded := by
  rw [projectOf_eq, projectFor]
  cases hdir : W.projectDir? importer with
  | none => exact ⟨.none, hW⟩
  | some dir =>
    obtain ⟨hsame, htruthful⟩ :=
      ProjectIndex.nearest_spec hW.projects (hW.isAbsolute_projectDir? hdir)
    exact ⟨hsame, htruthful, hW.origins⟩

/-- The project of a module is in an absolute directory. -/
theorem IsGrounded.isAbsolute_projectOf (hW : W.IsGrounded) {importer : ModuleId} {p : Project}
    (h : (projectOf importer W).1 = some p) : p.dir.isAbsolute = true := by
  obtain ⟨hsame, -⟩ := hW.projectOf_spec importer
  rw [h] at hsame
  cases hfor : W.projectFor importer with
  | none =>
    rw [hfor] at hsame
    cases hsame
  | some q =>
    rw [hfor] at hsame
    cases hsame with
    | some hpq =>
      obtain ⟨dir, hdir, hsearch⟩ := Option.bind_eq_some_iff.mp hfor
      exact Path.isAbsolute_of_beq hpq.symm.1 (ProjectIndex.isAbsolute_of_search hW.projects.keyed
        (hW.isAbsolute_projectDir? hdir) hsearch)

/-- A module in the directory of a project belongs to it once the project is registered. -/
theorem projectOf_registerProject {importer : ModuleId} {p : Project} {dir : Path}
    (hdir : W.projectDir? importer = some dir) (hp : (p.dir == dir) = true) :
    (projectOf importer (W.registerProject p)).1 = some p := by
  have hregistered : (W.projects.register p).registered.get? dir = some p := by
    exact (Dict.get?_insert _ _ _ _).trans (if_pos hp)
  have hancestors : ∃ above, dir.ancestors = dir :: above := by
    rw [Path.ancestors]
    cases dir.components.length with
    | zero => exact ⟨[], rfl⟩
    | succ n =>
      rw [Path.ancestorsWithin]
      split
      · exact ⟨_, rfl⟩
      · exact ⟨[], rfl⟩
  obtain ⟨above, hancestors⟩ := hancestors
  have hsearch : (W.projects.register p).search W.files dir = some p := by
    rw [ProjectIndex.search, hancestors, List.findSome?_cons, ProjectIndex.projectAt?, hregistered]
    rfl
  have hdir' : (W.registerProject p).projectDir? importer = some dir := hdir
  rw [projectOf_eq, hdir']
  exact hsearch

/-! ## What changes -/

/-- A package is looked for on behalf of the project of the importing module. -/
theorem origin_placesOf_eq (config : GraphConfig) (project : Option Project) (u : AbsoluteUri) :
    ∀ o ∈ (placesOf config project u).origin, ∃ p ∈ project, o = p.dir := by
  intro o ho
  cases u with
  | package p =>
    obtain ⟨q, hq, rfl⟩ := Option.map_eq_some_iff.mp ho
    exact ⟨q, hq, rfl⟩
  | _ => cases ho

theorem origin_locateIn_eq {config : GraphConfig} {project : Option Project} {uri : String}
    {importer : ModuleId} {target : Target}
    (h : locateIn config project uri importer = .ok target) :
    ∀ o ∈ target.origin, ∃ p ∈ project, o = p.dir := by
  obtain ⟨u, rfl⟩ := exists_placesOf_of_locateIn h
  exact origin_placesOf_eq config project u

/-- Packages are assigned to the project of what has been located. -/
theorem mem_assigned {target : Target} {origins : Dict String Path} {e : String × Path}
    (he : e ∈ (assigned target origins).entries) : e ∈ origins.entries ∨ e.2 ∈ target.origin := by
  rw [assigned] at he
  split at he
  · exact .inl he
  · next origin horigin =>
    rw [horigin]
    generalize target.places = places at he
    induction places generalizing origins with
    | nil => exact .inl he
    | cons place places ih =>
      rw [List.foldl_cons] at he
      rcases ih he with he | he
      · split at he
        · rw [Dict.insertNew] at he
          split at he
          · exact .inl he
          · exact (Dict.mem_put he).imp_right (congrArg some ·.symm)
        · exact .inl he
      · exact .inr he

theorem Arises.isGrounded (h : W.Arises) : W.IsGrounded := by
  induction h with
  | new config files loader => exact ⟨⟨nofun, nofun⟩, nofun⟩
  | insertSource _ m ih => exact ⟨ih.projects, ih.origins⟩
  | registerProject _ p ih => exact ⟨ih.projects.register p, ih.origins⟩
  | @resolve W _ uri importer ih =>
    have horigins : ∀ target, (locate uri importer W).1 = .ok target →
        ∀ o ∈ target.origin, o.isAbsolute = true := by
      intro target htarget o ho
      rw [locate_fst] at htarget
      obtain ⟨p, hp, rfl⟩ := origin_locateIn_eq htarget o ho
      exact ih.isAbsolute_projectOf hp
    have hlocated : (locate uri importer W).2.IsGrounded := by
      rw [locate_snd]
      split
      · exact (ih.projectOf_spec importer).2
      · exact ih
    rw [resolve_snd]
    refine ⟨hlocated.projects, fun e he => ?_⟩
    dsimp only [originsAfter] at he
    split at he
    · next target htarget =>
      rcases mem_assigned he with he | he
      · exact hlocated.origins e he
      · exact horigins target htarget e.2 he
    · exact hlocated.origins e he

end Store

end PklAnalysis
