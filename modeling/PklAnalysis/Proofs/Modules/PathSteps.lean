import PklAnalysis.Modules.Uri
import PklAnalysis.Proofs.Text.Cuts

/-!
# Steps of paths

A path starts somewhere, at the root or not, and goes on from there in steps: names, and `..` for the
way back.  The steps of a path followed from another one come after those of that path.  Followed
from a directory, a path stays inside if at no point it has taken more steps back than forward, and
exactly then it does so from whatever directory it is followed.
-/

namespace PklAnalysis

namespace Text

variable {p : Char → Bool}

theorem piecesFrom_append {d : Char} (hd : p d = true) (piece cs ds : List Char) :
    piecesFrom p piece (cs ++ d :: ds) = piecesFrom p piece cs ++ piecesFrom p [] ds := by
  induction cs generalizing piece with
  | nil =>
    show (if p d then _ else _) = _
    rw [if_pos hd]
    rfl
  | cons c cs ih =>
    rw [List.cons_append, piecesFrom, piecesFrom]
    split
    · rw [ih, List.cons_append]
    · exact ih _

theorem piecesFrom_ne_nil (piece cs : List Char) : piecesFrom p piece cs ≠ [] := by
  induction cs generalizing piece with
  | nil => exact List.cons_ne_nil _ _
  | cons c cs ih =>
    rw [piecesFrom]
    split
    · exact List.cons_ne_nil _ _
    · exact ih _

theorem pieces_ne_nil (s : String) : pieces p s ≠ [] := by
  rw [pieces, ne_eq, List.map_eq_nil_iff]
  exact piecesFrom_ne_nil _ _

/-- The pieces on both sides of a slash are those of the whole text. -/
theorem pieces_append (a b : String) :
    pieces (· = '/') (a ++ "/" ++ b) = pieces (· = '/') a ++ pieces (· = '/') b := by
  have htext : (a ++ "/" ++ b).toList = a.toList ++ '/' :: b.toList := by simp
  rw [pieces, htext, piecesFrom_append (decide_eq_true rfl), List.map_append]
  rfl

theorem piecesFrom_of_forall {cs : List Char} (h : ∀ c ∈ cs, ¬p c) (piece : List Char) :
    piecesFrom p piece cs = [piece.reverse ++ cs] := by
  induction cs generalizing piece with
  | nil => rw [List.append_nil, piecesFrom]
  | cons c cs ih =>
    obtain ⟨hc, hcs⟩ := List.forall_mem_cons.mp h
    rw [piecesFrom, if_neg hc, ih hcs, List.reverse_cons, List.append_assoc]
    rfl

theorem pieces_of_notMem {s : String} (h : '/' ∉ s.toList) : pieces (· = '/') s = [s] := by
  rw [pieces, piecesFrom_of_forall (by rintro c hc; simpa using ne_of_mem_of_not_mem hc h)]
  simp

theorem forall_of_mem_piecesFrom {piece cs : List Char} (hpiece : ∀ c ∈ piece, ¬p c)
    {b : List Char} (hb : b ∈ piecesFrom p piece cs) : ∀ c ∈ b, ¬p c := by
  induction cs generalizing piece with
  | nil =>
    rw [List.mem_singleton.mp hb]
    simpa using hpiece
  | cons c cs ih =>
    rw [piecesFrom] at hb
    split at hb
    · rcases List.mem_cons.mp hb with rfl | hb
      · simpa using hpiece
      · exact ih (List.forall_mem_nil _) hb
    · next hc => exact ih (List.forall_mem_cons.mpr ⟨hc, hpiece⟩) hb

theorem notMem_of_mem_pieces {s piece : String} (h : piece ∈ pieces (· = '/') s) :
    '/' ∉ piece.toList := by
  obtain ⟨cs, hcs, rfl⟩ := List.mem_map.mp h
  intro hslash
  rw [String.toList_ofList] at hslash
  exact forall_of_mem_piecesFrom (List.forall_mem_nil _) hcs _ hslash (decide_eq_true rfl)

end Text

namespace Path

/-! ## Steps -/

/-- The components of a path behind its start. -/
def steps (text : String) : List Component := (Text.pieces (· = '/') text).filterMap componentOf?

/-- Where a path starts: at the root, or else maybe with a dot. -/
def start (p : Path) : List Component :=
  if p.isAbsolute then [.root] else if p.startsHere then [.here] else []

theorem components_eq (p : Path) : p.components = p.start ++ steps p.text := rfl

theorem steps_append (a b : String) : steps (a ++ "/" ++ b) = steps a ++ steps b := by
  rw [steps, Text.pieces_append, List.filterMap_append]
  rfl

theorem steps_empty : steps "" = [] := by decide

theorem startsWith_withoutSlashes (s : String) :
    Text.startsWith "/" (ModuleUri.withoutSlashes s) = false := by
  have hhead := List.head?_dropWhile_not (· = '/') s.toList
  rw [Text.startsWith, ModuleUri.withoutSlashes, String.toList_ofList]
  cases h : s.toList.dropWhile (· = '/') with
  | nil => rfl
  | cons c cs =>
    rw [h] at hhead
    have hc : c ≠ '/' := by simpa using hhead
    simp [List.isPrefixOf, hc.symm]

/-- Slashes in front are no steps. -/
theorem steps_withoutSlashes (s : String) : steps (ModuleUri.withoutSlashes s) = steps s := by
  rw [steps, steps, Text.pieces, Text.pieces, ModuleUri.withoutSlashes, String.toList_ofList]
  induction s.toList with
  | nil => rfl
  | cons c cs ih =>
    rw [List.dropWhile_cons]
    split
    · next hc =>
      rw [ih, Text.piecesFrom, if_pos hc]
      rfl
    · rfl

/-- A step is a name or a way back. -/
theorem eq_up_or_name_of_mem_steps {text : String} {c : Component} (h : c ∈ steps text) :
    c = .up ∨ ∃ n, c = .name n := by
  obtain ⟨piece, -, hpiece⟩ := List.mem_filterMap.mp h
  rw [componentOf?] at hpiece
  split at hpiece
  · cases hpiece
  · split at hpiece
    · exact .inl (Option.some.inj hpiece).symm
    · exact .inr ⟨piece, (Option.some.inj hpiece).symm⟩

/-! ## Following a path -/

/-- What stands before a relative path that is followed from a path. -/
def opening (p : Path) : String :=
  if p.text = "" then "" else if p.text.toList.getLast? = some '/' then p.text else p.text ++ "/"

theorem join_eq (p : Path) {text : String} (h : Text.startsWith "/" text = false) :
    p.join text = ⟨p.opening ++ text⟩ := by
  rw [join, opening, h, Bool.false_or]
  split
  · next hp =>
    rw [if_pos (of_decide_eq_true hp), String.empty_append]
  · next hp =>
    rw [if_neg (fun hempty => hp (decide_eq_true hempty))]
    split <;> rfl

/-- A path that is not empty opens with a text and a slash behind it. -/
theorem exists_opening_eq {p : Path} (hp : p.text ≠ "") :
    ∃ a, p.opening = a ++ "/" ∧ steps a = steps p.text ∧
      (Text.pieces (· = '/') a).head? = p.pieces.head? ∧
      (p.isAbsolute = true ↔ a = "" ∨ Text.startsWith "/" a = true) := by
  rw [opening, if_neg hp]
  split
  · next hlast =>
    obtain ⟨cs, hcs⟩ := List.getLast?_eq_some_iff.mp hlast
    have htext : p.text = String.ofList cs ++ "/" := by
      rw [← String.toList_inj, hcs]
      simp
    have hsplit : p.text = String.ofList cs ++ "/" ++ "" := by rw [htext, String.append_empty]
    refine ⟨String.ofList cs, htext, ?_, ?_, ?_⟩
    · rw [hsplit, steps_append, steps_empty, List.append_nil]
    · rw [pieces, hsplit, Text.pieces_append, List.head?_append_of_ne_nil _ (Text.pieces_ne_nil _)]
    · rw [isAbsolute, Text.startsWith, Text.startsWith, hcs]
      cases cs with
      | nil => simp
      | cons c cs => simp
  · refine ⟨p.text, rfl, rfl, rfl, ?_⟩
    rw [or_iff_right hp]
    rfl

/-- A relative path followed from another path adds its steps. -/
theorem components_join {p : Path} (hp : p.text ≠ "") {text : String}
    (h : Text.startsWith "/" text = false) :
    (p.join text).components = p.components ++ steps text := by
  obtain ⟨a, hopening, hsteps, hhead, habsolute⟩ := exists_opening_eq hp
  rw [join_eq p h, hopening, components_eq, components_eq, steps_append, hsteps, List.append_assoc]
  have hstart : start ⟨a ++ "/" ++ text⟩ = p.start := by
    have hroot : isAbsolute ⟨a ++ "/" ++ text⟩ = p.isAbsolute := by
      rw [Bool.eq_iff_iff, habsolute, isAbsolute, Text.startsWith, Text.startsWith]
      cases ha : a.toList with
      | nil => simp [String.toList_eq_nil_iff.mp ha]
      | cons c cs =>
        have hne : a ≠ "" := fun hempty => by simp [hempty] at ha
        simp [ha, hne]
    have hhere : startsHere ⟨a ++ "/" ++ text⟩ = p.startsHere := by
      rw [startsHere, startsHere, pieces, Text.pieces_append,
        List.head?_append_of_ne_nil _ (Text.pieces_ne_nil _), hhead]
    rw [start, start, hroot, hhere]
  rw [hstart]

/-! ## Paths without `..` -/

/-- The components of a path, in reverse, when it is followed one step further: a step back leaves a
name, stays at the root, and is kept where there is nothing to leave. -/
def follow (above : List Component) : Component → List Component
  | .here => above
  | .up =>
    match above with
    | .name _ :: rest => rest
    | .root :: _ => above
    | _ => .up :: above
  | c => c :: above

/-- The components of a path without dots and with as few `..` as possible, in reverse. -/
def reduced (p : Path) : List Component := p.components.foldl follow []

/-- A path that, without dots and `..`, is that of a directory and names behind it. -/
def LiesIn (dir p : Path) : Prop := ∃ names : List String, p.reduced = names.map .name ++ dir.reduced

/-- A path that at no point has taken more steps back than forward. -/
def Descends (text : String) : Prop := (collapse [] (steps text)).isSome

instance (text : String) : Decidable (Descends text) :=
  inferInstanceAs (Decidable ((collapse [] (steps text)).isSome = true))

theorem reduced_join (p : Path) {text : String} (h : Text.startsWith "/" text = false) :
    (p.join text).reduced = (steps text).foldl follow p.reduced := by
  by_cases hp : p.text = ""
  · have hempty : p.reduced = [] := by
      rw [reduced, show p = ⟨""⟩ from congrArg Path.mk hp]
      decide
    have hstart : (start ⟨text⟩).foldl follow [] = [] := by
      rw [start, isAbsolute, h]
      split <;> [simp_all; split] <;> rfl
    rw [join, hp, decide_eq_true rfl, Bool.or_true, if_pos rfl, reduced, components_eq,
      List.foldl_append, hstart, hempty]
  · rw [reduced, components_join hp h, List.foldl_append, reduced]

/-- Steps that go back no further than forward lead from anywhere to the names to which they lead from
the root. -/
theorem foldl_follow_of_collapse {cs : List Component} (hcs : ∀ c ∈ cs, c = .up ∨ ∃ n, c = .name n)
    {above names : List String} (h : collapse above cs = some names) (outer : List Component) :
    cs.foldl follow (above.map .name ++ outer) = names.reverse.map .name ++ outer := by
  induction cs generalizing above with
  | nil => rw [← Option.some.inj h, List.reverse_reverse, List.foldl_nil]
  | cons c cs ih =>
    obtain ⟨hc, htail⟩ := List.forall_mem_cons.mp hcs
    obtain rfl | ⟨n, rfl⟩ := hc
    · cases above with
      | nil => cases h
      | cons a above => exact ih htail h
    · exact @ih htail (n :: above) h

/-- Steps that go back further than forward leave the directory from which they start. -/
theorem exists_foldl_follow_of_collapse {cs : List Component}
    (hcs : ∀ c ∈ cs, c = .up ∨ ∃ n, c = .name n) {above : List String}
    (h : collapse above cs = none) (n : String) (outer : List Component) :
    ∃ ds, ds <:+ cs ∧ cs.foldl follow (above.map .name ++ .name n :: outer) = ds.foldl follow outer := by
  induction cs generalizing above with
  | nil => cases h
  | cons c cs ih =>
    obtain ⟨hc, htail⟩ := List.forall_mem_cons.mp hcs
    obtain rfl | ⟨m, rfl⟩ := hc
    · cases above with
      | nil => exact ⟨cs, List.suffix_cons _ _, rfl⟩
      | cons a above =>
        obtain ⟨ds, hds, heq⟩ := ih htail h
        exact ⟨ds, hds.trans (List.suffix_cons _ _), heq⟩
    · obtain ⟨ds, hds, heq⟩ := @ih htail (m :: above) h
      exact ⟨ds, hds.trans (List.suffix_cons _ _), heq⟩

/-- A path that descends leads from any directory to a place inside. -/
theorem liesIn_join (dir : Path) {text : String} (h : Text.startsWith "/" text = false)
    (htext : Descends text) : LiesIn dir (dir.join text) := by
  obtain ⟨names, hnames⟩ := Option.isSome_iff_exists.mp htext
  refine ⟨names.reverse, ?_⟩
  rw [reduced_join dir h]
  exact foldl_follow_of_collapse (fun _ => eq_up_or_name_of_mem_steps) hnames dir.reduced

/-! ## Paths of names -/

/-- A text that stands between two slashes as a name. -/
structure IsName (n : String) : Prop where
  component : componentOf? n = some (.name n)
  noSlash : '/' ∉ n.toList

/-- What is named by a step is a name. -/
theorem isName_of_mem_steps {text n : String} (h : Component.name n ∈ steps text) : IsName n := by
  obtain ⟨piece, hpiece, hcomponent⟩ := List.mem_filterMap.mp h
  obtain rfl : piece = n := by
    rw [componentOf?] at hcomponent
    split at hcomponent
    · cases hcomponent
    · split at hcomponent
      · cases hcomponent
      · cases hcomponent
        rfl
  exact ⟨hcomponent, Text.notMem_of_mem_pieces hpiece⟩

theorem steps_of_notMem {s : String} (h : '/' ∉ s.toList) : steps s = (componentOf? s).toList := by
  rw [steps, Text.pieces_of_notMem h]
  cases hs : componentOf? s <;> simp [hs]

/-- The steps of pieces with slashes between them are their components. -/
theorem steps_intercalate {pieces : List String} (h : ∀ s ∈ pieces, '/' ∉ s.toList) :
    steps ("/".intercalate pieces) = pieces.filterMap componentOf? := by
  induction pieces with
  | nil => exact steps_empty
  | cons s pieces ih =>
    obtain ⟨hs, hpieces⟩ := List.forall_mem_cons.mp h
    rw [List.filterMap_eq_flatMap_toList, List.flatMap_cons, ← List.filterMap_eq_flatMap_toList,
      ← ih hpieces, ← steps_of_notMem hs]
    cases pieces with
    | nil => simp [steps_empty]
    | cons s' pieces => rw [String.intercalate_cons_cons, steps_append]

theorem filterMap_names {names : List String} (h : ∀ n ∈ names, IsName n) :
    names.filterMap componentOf? = names.map .name := by
  rw [List.filterMap_congr fun n hn => (h n hn).component, List.filterMap_eq_map']

/-- A path of names starts at the root and has these names as components. -/
theorem components_ofNames {names : List String} (h : ∀ n ∈ names, IsName n) :
    components ⟨ofNames names⟩ = .root :: names.map .name := by
  have hsteps : steps (ofNames names) = names.map .name := by
    have htext : ofNames names = "" ++ "/" ++ "/".intercalate names := by
      rw [String.empty_append, ofNames]
    rw [htext, steps_append, steps_empty, List.nil_append,
      steps_intercalate fun n hn => (h n hn).noSlash, filterMap_names h]
  have hroot : isAbsolute ⟨ofNames names⟩ = true := Text.startsWith_iff.mpr ⟨_, rfl⟩
  rw [components_eq, start, if_pos hroot, hsteps]
  rfl

theorem forall_mem_names {names : List String} :
    ∀ c ∈ names.map Component.name, ∃ n, c = .name n := by
  intro c hc
  obtain ⟨n, -, rfl⟩ := List.mem_map.mp hc
  exact ⟨n, rfl⟩

theorem collapse_names (above names : List String) (cs : List Component) :
    collapse above (names.map .name ++ cs) = collapse (names.reverse ++ above) cs := by
  induction names generalizing above with
  | nil => rfl
  | cons n names ih =>
    rw [List.reverse_cons, List.append_assoc]
    exact ih (n :: above)

/-- Steps do not go back further than there are names above. -/
theorem isSome_collapse {cs : List Component} {above : List String}
    (h : cs.length ≤ above.length) : (collapse above cs).isSome := by
  induction cs generalizing above with
  | nil => rfl
  | cons c cs ih =>
    rw [List.length_cons] at h
    cases c with
    | root | here => exact ih (Nat.le_of_succ_le h)
    | up =>
      cases above with
      | nil => exact absurd h (by simp)
      | cons a above => exact ih (Nat.le_of_succ_le_succ h)
    | name n => exact @ih (n :: above) (Nat.le_succ_of_le (Nat.le_of_succ_le h))

/-- The names that are left when a path is collapsed are among those above it and its components. -/
theorem mem_of_collapse {cs : List Component} {above names : List String}
    (h : collapse above cs = some names) {n : String} (hn : n ∈ names) :
    n ∈ above ∨ .name n ∈ cs := by
  induction cs generalizing above with
  | nil =>
    rw [← Option.some.inj h] at hn
    exact .inl (List.mem_reverse.mp hn)
  | cons c cs ih =>
    cases c with
    | root | here => exact (ih h).imp_right (List.mem_cons_of_mem _)
    | up =>
      cases above with
      | nil => cases h
      | cons a above => exact (ih h).imp (List.mem_cons_of_mem _) (List.mem_cons_of_mem _)
    | name m =>
      rcases @ih (m :: above) h with hn | hn
      · rcases List.mem_cons.mp hn with rfl | hn
        · exact .inr List.mem_cons_self
        · exact .inl hn
      · exact .inr (List.mem_cons_of_mem _ hn)

/-- A path of names is as short as it can be. -/
theorem reduced_ofNames {names : List String} (h : ∀ n ∈ names, IsName n) :
    reduced ⟨ofNames names⟩ = names.reverse.map .name ++ [.root] := by
  have hcollapsed : collapse [] (names.map .name) = some names := by
    rw [← List.append_nil (names.map _), collapse_names, collapse]
    simp
  rw [reduced, components_ofNames h]
  exact foldl_follow_of_collapse (fun c hc => .inr (forall_mem_names c hc)) hcollapsed [.root]

/-- A path followed from an absolute directory. -/
theorem components_join_absolute {dir text : String} (hdir : isAbsolute ⟨dir⟩ = true)
    (h : Text.startsWith "/" text = false) :
    components (join ⟨dir⟩ text) = .root :: (steps dir ++ steps text) := by
  have hne : dir ≠ "" := by
    rintro rfl
    cases hdir
  rw [components_join hne h, components_eq, start, if_pos hdir]
  rfl

/-- Where a path starts does not matter for the names at which it ends. -/
theorem collapse_components (p : Path) : collapse [] p.components = collapse [] (steps p.text) := by
  rw [components_eq, start]
  split
  · rfl
  · split <;> rfl

theorem joinNormalized?_eq_collapse (dir text : String) :
    joinNormalized? dir text = (collapse [] (join ⟨dir⟩ text).components).map ofNames := by
  cases h : Text.startsWith "/" text with
  | true => rw [joinNormalized?, join, h, Bool.true_or, if_pos rfl, if_pos rfl]
  | false => rw [joinNormalized?, h, if_neg Bool.false_ne_true]

theorem joinNormalized?_eq (dir : String) {text : String} (h : Text.startsWith "/" text = false) :
    joinNormalized? dir text = (collapse [] (steps dir ++ steps text)).map ofNames := by
  rw [joinNormalized?_eq_collapse, collapse_components]
  congr 2
  by_cases hdir : dir = ""
  · rw [hdir, steps_empty, List.nil_append, join, decide_eq_true rfl, Bool.or_true, if_pos rfl]
  · obtain ⟨a, hopening, hsteps, -⟩ := exists_opening_eq (p := ⟨dir⟩) hdir
    rw [join_eq _ h, hopening, steps_append, hsteps]

/-- A path followed from an absolute directory and written without dots leads where it led. -/
theorem reduced_of_joinNormalized? {dir text file : String} (hdir : isAbsolute ⟨dir⟩ = true)
    (h : Text.startsWith "/" text = false) (hfile : joinNormalized? dir text = some file) :
    reduced ⟨file⟩ = (join ⟨dir⟩ text).reduced := by
  rw [joinNormalized?_eq dir h] at hfile
  obtain ⟨names, hnames, rfl⟩ := Option.map_eq_some_iff.mp hfile
  have hsteps : ∀ c ∈ steps dir ++ steps text, c = .up ∨ ∃ n, c = .name n := fun c hc =>
    (List.mem_append.mp hc).elim eq_up_or_name_of_mem_steps eq_up_or_name_of_mem_steps
  have hvalid : ∀ n ∈ names, IsName n := by
    intro n hn
    rcases mem_of_collapse hnames hn with hn | hn
    · cases hn
    · exact (List.mem_append.mp hn).elim isName_of_mem_steps isName_of_mem_steps
  rw [reduced_ofNames hvalid, reduced, components_join_absolute hdir h]
  exact (foldl_follow_of_collapse hsteps hnames [.root]).symm

/-! ## Leaving a directory -/

/-- Steps that do not go through a name do not lead to more directories of that name. -/
theorem count_foldl_follow {c : Component} {cs : List Component} (hc : c ∉ cs) (hup : c ≠ .up)
    (above : List Component) : (cs.foldl follow above).count c ≤ above.count c := by
  induction cs generalizing above with
  | nil => exact le_rfl
  | cons d cs ih =>
    obtain ⟨hd, hcs⟩ := not_or.mp (mt List.mem_cons.mpr hc)
    have hstep : (follow above d).count c ≤ above.count c := by
      unfold follow
      split
      · exact le_rfl
      · split
        · exact List.count_le_count_cons
        · exact le_rfl
        · rw [List.count_cons_of_ne (Ne.symm hup)]
      · rw [List.count_cons_of_ne (Ne.symm hd)]
    exact (ih hcs _).trans hstep

/-- A name of letters that no step of a path goes through. -/
theorem exists_fresh (cs : List Component) : ∃ n, IsName n ∧ Component.name n ∉ cs := by
  let name (k : Nat) : String := String.ofList (List.replicate (k + 1) 'x')
  have hx (k : Nat) : 'x' ∈ (name k).toList := by simp [name]
  have hinj : Function.Injective fun k => Component.name (name k) := by
    intro k l h
    have hlength := congrArg String.length (Component.name.inj h)
    simpa [name] using hlength
  obtain ⟨_, ⟨k, rfl⟩, hk⟩ := (Set.infinite_range_of_injective hinj).exists_notMem_finset cs.toFinset
  refine ⟨name k, ⟨?_, by simp [name]⟩, by simpa using hk⟩
  have hne (s : String) (hs : 'x' ∉ s.toList) : name k ≠ s := by
    rintro rfl
    exact hs (hx k)
  have hdots : ¬(name k = "" || name k = ".") = true := by
    simp only [hne "" (by decide), hne "." (by decide), decide_false, Bool.or_self,
      Bool.false_eq_true, not_false_iff]
  rw [componentOf?, if_neg hdots, if_neg (hne ".." (by decide))]

/-- A path that goes back further than forward leads out of some absolute directory without leaving
the root. -/
theorem exists_not_liesIn {text : String} (h : Text.startsWith "/" text = false)
    (htext : ¬Descends text) : ∃ dir, isAbsolute ⟨dir⟩ = true ∧
      (joinNormalized? dir text).isSome ∧ ¬LiesIn ⟨dir⟩ (join ⟨dir⟩ text) := by
  -- The directory is deeper than the path goes back, and all its names are one that the path does
  -- not go through.
  obtain ⟨n, hn, hfresh⟩ := exists_fresh (steps text)
  let names := List.replicate ((steps text).length + 1) n
  have hnames : ∀ m ∈ names, IsName m := fun m hm => List.eq_of_mem_replicate hm ▸ hn
  have hdir : isAbsolute ⟨ofNames names⟩ = true := Text.startsWith_iff.mpr ⟨_, rfl⟩
  refine ⟨ofNames names, hdir, ?_, fun hlies => ?_⟩
  · have hsteps : steps (ofNames names) = names.map .name := by
      simpa [components_eq, start, hdir] using components_ofNames hnames
    rw [joinNormalized?_eq _ h, Option.isSome_map, hsteps, collapse_names]
    exact isSome_collapse (by simp [names])
  · obtain ⟨inside, hinside⟩ := hlies
    have hcollapse : collapse [] (steps text) = none := Option.not_isSome_iff_eq_none.mp htext
    obtain ⟨ds, hds, hleft⟩ := exists_foldl_follow_of_collapse
      (fun _ => eq_up_or_name_of_mem_steps) hcollapse n
      (List.replicate (steps text).length (.name n) ++ [.root])
    have hreduced : reduced ⟨ofNames names⟩
        = .name n :: (List.replicate (steps text).length (.name n) ++ [.root]) := by
      rw [reduced_ofNames hnames, List.reverse_replicate, List.map_replicate, List.replicate_succ,
        List.cons_append]
    have hjoined : (join ⟨ofNames names⟩ text).reduced = ds.foldl follow
        (List.replicate (steps text).length (.name n) ++ [.root]) := by
      rw [reduced_join _ h, hreduced]
      exact hleft
    have hcount := count_foldl_follow (mt (hds.subset ·) hfresh) nofun
      (List.replicate (steps text).length (.name n) ++ [.root])
    rw [← hjoined, hinside, hreduced] at hcount
    simp at hcount
    omega

end Path

end PklAnalysis
