import PklAnalysis.Proofs.Resolution.FaithfulInference
import PklAnalysis.Proofs.Resolution.Memoization

/-!
# Inferred types are well-kinded

Questions about the trees that modules have at present keep a session faithful.  In every session
over a proper store the type of every node, and what every annotation means, is therefore
well-kinded: a class or type alias in it has the arguments that its declaration asks for, and a type
parameter is one of those that its owner declares.  A module under the identity of the base module
is no exception that a store could make, since sessions take the base module for it.
-/

namespace PklAnalysis.Session

variable {V W : World} {s : Session}

/-! ## What a question begins with -/

theorem IsFaithfulTo.faithful_iff (hs : s.IsFaithfulTo W) (t : Tree) :
    Faithful W t ↔ t ∈ s.store.held := by
  rw [hs.store]
  rfl

/-- The tree that a module has at present is one that it has. -/
theorem IsFaithfulTo.faithful_of_current? (hs : s.IsFaithfulTo W) {t : Tree}
    (ht : s.store.current? t.id = some t) : Faithful W t :=
  (hs.faithful_iff t).mpr (Store.mem_held_of_current? ht)

theorem IsFaithfulTo.get?_foldl_setTree (hs : s.IsFaithfulTo W) {ts : List Tree}
    (hts : ∀ t ∈ ts, Faithful W t) {id : ModuleId} {u : Tree}
    (hu : (ts.foldl setTree s).trees.get? id = some u) : u.id = id ∧ Faithful W u := by
  -- the trees are put in one after the other, so the induction is for all trees known before
  have htrees := hs.trees
  clear hs
  induction ts generalizing s with
  | nil => exact htrees id u hu
  | cons t ts ih =>
    have ⟨ht, hts⟩ := List.forall_mem_cons.mp hts
    refine ih hts hu fun id' u' hu' => ?_
    rw [get?_trees_setTree] at hu'
    split at hu'
    · next hid => exact Option.some.inj hu' ▸ ⟨hid, ht⟩
    · exact htrees id' u' hu'

/-- Nothing is wrong with a session that has taken trees over and has forgotten all answers. -/
theorem IsFaithfulTo.renew (hs : s.IsFaithfulTo W) {ts : List Tree}
    (hts : ∀ t ∈ ts, Faithful W t) (hroams : (ts.foldl setTree s).invalidate.Roams W.origin) :
    (ts.foldl setTree s).invalidate.IsFaithfulTo W where
  store := (store_foldl_setTree ts).trans hs.store
  roams := hroams
  trees _ _ hu := hs.get?_foldl_setTree hts hu
  classes _ _ h := by cases (show none = some _ from h)
  aliases _ _ h := by cases (show none = some _ from h)
  chains _ _ h := by cases (show none = some _ from h)
  members _ _ h := by cases (show none = some _ from h)

theorem IsFaithfulTo.newerTrees (hs : s.IsFaithfulTo W) (except : ModuleId) :
    ∀ t ∈ s.newerTrees except, Faithful W t := by
  intro t ht
  obtain ⟨⟨id, own⟩, -, ht⟩ := List.mem_filterMap.mp ht
  simp only at ht
  split at ht
  · cases ht
  · have hstored := (Option.filter_eq_some_iff.mp ht).1
    rw [hs.store] at hstored
    exact .inr ((congrArg W.store.tree? (W.keyed id t hstored)).trans hstored)

theorem faithful_adopt {t : Tree} (ht : Faithful V t) : Faithfully V (adopt t) := by
  refine FaithfulQuery.of_keepsFaith fun W s hW hs => ⟨W, le_rfl, ?_, trivial⟩
  have ht : Faithful W t := ht.mono hW
  have hnewer := hs.newerTrees t.id
  have hroams := hs.roams.adopt ((hs.faithful_iff t).mp ht)
  rw [adopt_apply] at hroams ⊢
  cases harrival : s.arrival t with
  | known =>
    simp only [harrival] at hroams
    simp only
    split at hroams
    · next hempty => rwa [if_pos hempty]
    · next hempty =>
      rw [if_neg hempty]
      exact hs.renew hnewer hroams
  | first =>
    simp only [harrival] at hroams
    simp only
    split at hroams
    · next hempty =>
      rw [if_pos hempty]
      have hsingle : ∀ u ∈ [t], Faithful W u := List.forall_mem_singleton.mpr ht
      exact hs.grow le_rfl hs.store hroams (fun _ _ hu => hs.get?_foldl_setTree hsingle hu)
        rfl rfl rfl rfl
    · next hempty =>
      rw [if_neg hempty]
      exact hs.renew (List.forall_mem_cons.mpr ⟨ht, hnewer⟩) hroams
  | replaces =>
    simp only [harrival] at hroams
    refine hs.renew (fun u hu => ?_) hroams
    rcases List.mem_append.mp hu with hu | hu
    · exact hnewer u hu
    · exact List.mem_singleton.mp hu ▸ ht

/-! ## Questions -/

theorem faithful_resolve {t : Tree} (ht : Faithful V t) (n : Nat) : Faithfully V (resolve t n) :=
  (faithful_adopt ht).bind fun _ _ hU _ => faithful_resolveIn isFaithful_typing (ht.mono hU) n

theorem faithful_typeOf {t : Tree} (ht : Faithful V t) (n : Nat) : Faithfully V (typeOf t n) :=
  (faithful_adopt ht).bind fun U _ hU _ => isFaithful_typing.infer U t n (ht.mono hU)

/-- Diagnostics say nothing of modules that could be wrong. -/
theorem Faithfully.unreported {γ : Type} (o : Option γ) :
    Faithfully V fun [Bounds] => (pure o : Query (Option γ)) := .pure fun _ _ => trivial

theorem faithful_findingsAt (t : Tree) {check : [Bounds] → Nat → Query (Option Diagnostic)}
    (h : ∀ n, Faithfully V (check n)) : Faithfully V (findingsAt t check) :=
  (Faithfully.mapM fun n _ => h n).bind fun _ _ _ _ => .pure fun _ _ => trivial

theorem faithful_checkUri (t : Tree) (n : Nat) : Faithfully V (checkUri t n) := by
  unfold checkUri
  split
  · exact .unreported _
  · refine (faithful_resolveModule _).bind fun U target _ _ => ?_
    cases target with
    | ok _ => exact .unreported _
    | error e =>
      simp only
      split
      · exact .unreported _
      · exact .unreported _

theorem faithful_checkCycles (t : Tree) : Faithfully V (checkCycles t) := by
  have hcheck {V : World} (d : DeclRef) (n : Nat) (finding : Finding) : Faithfully V fun [Bounds] =>
      (do
        if (← ancestors d).isCyclic then return some (Diagnostic.atNode t n finding)
        return none : Query (Option Diagnostic)) := by
    refine (faithful_ancestors d).bind fun U chain _ _ => ?_
    split
    · exact .unreported _
    · exact .unreported _
  unfold checkCycles
  refine Faithfully.bind (n := Query) (hcheck _ _ _) fun U own _ _ => ?_
  refine (faithful_findingsAt t fun n => ?_).bind fun _ _ _ _ => .pure fun _ _ => trivial
  unfold checkClassCycle
  split
  · exact hcheck _ _ _
  · exact .unreported _

theorem faithful_isOpenReceiver {t : Tree} (ht : Faithful V t) (receiver : Nat) :
    Faithfully V (isOpenReceiver t receiver) := by
  unfold isOpenReceiver
  refine (faithful_resolve ht receiver).bind fun U found hU _ => ?_
  split
  · unfold isOpenImport
    split
    · refine (faithful_resolveModule? t _).bind fun U found _ _ => ?_
      cases found with
      | some m => exact faithful_hasUnknownAncestor _
      | none => exact .pure trivial
    · exact .pure trivial
  · exact (faithful_typeOf (ht.mono hU) receiver).bind fun _ _ _ htype =>
      faithful_isOpenType htype

theorem faithful_isOpenScope {t : Tree} (ht : Faithful V t) (scope : Nat) :
    Faithfully V (isOpenScope t scope) := by
  unfold isOpenScope
  split
  · exact (faithful_typeOf ht scope).bind fun _ _ _ _ => .pure trivial
  · split
    · exact faithful_hasUnknownAncestor _
    · exact .pure trivial
  · exact .pure trivial

theorem faithful_isExcused {t : Tree} (ht : Faithful V t) (n : Nat) (hasReceiver : Bool) :
    Faithfully V (isExcused t n hasReceiver) := by
  unfold isExcused
  split
  · split
    · exact faithful_isOpenReceiver ht _
    · exact .pure trivial
  · refine (Faithfully.anyM fun scope _ => faithful_isOpenScope ht scope).bind
      fun U isOpen _ _ => ?_
    split
    · exact .pure trivial
    · exact faithful_hasUnknownAncestor _

theorem faithful_checkReference {t : Tree} (ht : Faithful V t) (n : Nat) :
    Faithfully V (checkReference t n) := by
  unfold checkReference
  split
  · exact .unreported _
  · refine (faithful_resolve ht n).bind fun U found hU _ => ?_
    split
    · exact .unreported _
    · refine (faithful_isExcused (ht.mono hU) n _).bind fun U' excused _ _ => ?_
      split
      · exact .unreported _
      · exact .unreported _

theorem faithful_declaredValue? {t : Tree} (ht : Faithful V t) (n : Nat) :
    Faithfully V (declaredValue? t n) := by
  have hvalue {U : World} {type : Option Ty} (htype : Faithful U type) (value : Option Nat) :
      Faithfully U fun [Bounds] =>
        (pure (typedValue? type value) : Query (Option (Ty × Nat))) := by
    refine .pure ?_
    unfold typedValue?
    split
    · exact .some ⟨htype.of_some, trivial⟩
    · exact .none
  have hread (a : Option TypeExpr) : Faithfully V (a.mapM (resolveType t n)) :=
    .optionMapM fun a _ => faithful_resolveType ht n a
  unfold declaredValue?
  simp only [pure_bind]
  split
  · exact (faithful_declaredPropertyType? ht n).bind fun _ _ _ htype => hvalue htype _
  · exact (hread _).bind fun _ _ _ htype => hvalue htype _
  · exact (hread _).bind fun _ _ _ htype => hvalue htype _
  · exact .pure .none

theorem faithful_checkType {t : Tree} (ht : Faithful V t) (n : Nat) :
    Faithfully V (checkType t n) := by
  unfold checkType
  refine (faithful_declaredValue? ht n).bind fun U found hU hfound => ?_
  split
  · exact .unreported _
  · next declared value =>
    have hexpected : Faithful U declared.erase := hfound.of_some.1.erase
    refine (faithful_typeOf (ht.mono hU) value).bind fun U' actual hU' hactual => ?_
    refine (faithful_haveCommonSubtype hactual (hexpected.mono hU')).bind fun U'' common _ _ => ?_
    split
    · exact .unreported _
    · exact .unreported _

theorem faithful_checkModule {t : Tree} (ht : Faithful V t) (options : CheckOptions) :
    Faithfully V (checkModule t options) := by
  -- what is checked after another check is checked about a tree that the module still has
  have hif {check : [Bounds] → Query (List Diagnostic)} (h : ∀ U, V ≤ U → Faithfully U check)
      (wanted : Bool) {U : World} (hU : V ≤ U) : Faithfully U (checkIf wanted check) := by
    unfold checkIf
    split
    · exact h U hU
    · exact .pure .nil
  refine (faithful_adopt ht).bind fun U _ hU _ => ?_
  refine (hif (fun _ _ => faithful_findingsAt t (faithful_checkUri t)) _ hU).bind
    fun U' _ hU' _ => ?_
  refine (hif (fun _ _ => faithful_checkCycles t) _ (hU.trans hU')).bind fun U'' _ hU'' _ => ?_
  have hle := (hU.trans hU').trans hU''
  refine (hif (fun _ h => faithful_findingsAt t (faithful_checkReference (ht.mono h))) _ hle).bind
    fun U₃ _ hU₃ _ => ?_
  exact (hif (fun _ h => faithful_findingsAt t (faithful_checkType (ht.mono h))) _
    (hle.trans hU₃)).bind fun _ _ _ _ => .pure fun _ _ => trivial

theorem faithful_superMember? {t : Tree} (ht : Faithful V t) (n : Nat) :
    Faithfully V (superMember? t n) := by
  refine (faithful_adopt ht).bind fun U _ _ _ => ?_
  split
  · exact (faithful_ancestors _).bind fun _ _ _ _ => .pure fun _ _ => trivial
  · exact .pure .none

theorem faithful_importsUsedAt {t : Tree} (ht : Faithful V t) (n : Nat) :
    Faithfully V (importsUsedAt t n) := by
  have hresolve (k : Nat) {f : Option Declared → Option Nat} :
      Faithfully V fun [Bounds] => (do return f (← resolve t k) : Query (Option Nat)) :=
    (faithful_resolve ht k).bind fun _ _ _ _ => .unreported _
  refine Faithfully.bind (n := Query) (α := Option Nat) ?_ fun _ _ _ _ => .pure fun _ _ => trivial
  unfold referencedImport?
  split
  · exact hresolve _
  · exact hresolve _
  · exact hresolve _
  · exact .pure .none

theorem faithful_tidyImports {t : Tree} (ht : Faithful V t) : Faithfully V (tidyImports t) := by
  refine (faithful_adopt ht).bind fun U _ hU _ => ?_
  split
  · exact .pure .none
  · have hused : Faithfully U (usedImports t) :=
      (Faithfully.mapM fun n _ => faithful_importsUsedAt (ht.mono hU) n).bind
        fun _ _ _ _ => .pure fun _ _ => trivial
    refine hused.bind fun U' used _ _ => ?_
    have hkey (i : Import) {U : World} : Faithfully U (importKey t i) := by
      refine (faithful_resolveModule? t i.uri).bind fun U found _ _ => ?_
      cases found with
      | some m => exact .pure ⟨trivial, fun _ _ => trivial⟩
      | none => exact .pure ⟨trivial, fun _ _ => trivial⟩
    have hdistinct (is : List Import) : Faithfully U' (distinctImports t is) := by
      refine (Faithfully.mapM fun i _ => ?_).bind fun _ _ _ _ => .pure fun _ _ => trivial
      exact (hkey i).bind fun _ _ _ hkey => .pure ⟨hkey, trivial⟩
    exact (hdistinct _).bind fun _ _ _ _ => .pure fun _ _ => trivial

instance (q : Question) : Reporting q.Answer :=
  match q with
  | .resolve _ => inferInstanceAs (Reporting (Option Declared))
  | .typeOf _ => inferInstanceAs (Reporting Ty)
  | .check _ => inferInstanceAs (Reporting (List Diagnostic))
  | .superMember _ => inferInstanceAs (Reporting (Option SuperMember))
  | .tidyImports => inferInstanceAs (Reporting (Option ImportEdit))

theorem faithful_ask {t : Tree} (ht : Faithful V t) (q : Question) : Faithfully V (ask t q) := by
  cases q with
  | resolve n => exact faithful_resolve ht n
  | typeOf n => exact faithful_typeOf ht n
  | check options => exact faithful_checkModule ht options
  | superMember n => exact faithful_superMember? ht n
  | tidyImports => exact faithful_tidyImports ht

/-! ## Sessions over a store -/

/-- The sessions over a store that have answered questions about trees which modules had, and have
read annotations in them. -/
inductive Consulted (W : Store) : Session → Prop
  | new : Consulted W (new W)
  | ask {s : Session} {t : Tree} (hs : Consulted W s) (ht : s.store.current? t.id = some t)
      (q : Question) : Consulted W (ask t q s).2
  | read {s : Session} {t : Tree} (hs : Consulted W s) (ht : s.store.current? t.id = some t)
      (context : Nat) (a : TypeExpr) : Consulted W (resolveType t context a s).2

variable {W : Store}

/-- Sessions over a store are faithful to what the store has become. -/
theorem Consulted.exists_isFaithfulTo (hW : W.IsFiled) (judgesTypes : Prop)
    (hbase : judgesTypes → W.tree? BaseModule.id = none) (hs : Consulted W s) :
    ∃ U : World, U.origin = W ∧ U.judgesTypes = judgesTypes ∧ s.IsFaithfulTo U := by
  induction hs with
  | new => exact ⟨_, rfl, rfl, .new W hW judgesTypes hbase⟩
  | ask _ ht q ih =>
    obtain ⟨U, rfl, rfl, hs⟩ := ih
    have ht := hs.faithful_of_current? ht
    obtain ⟨U', hU', hs', -⟩ := (faithful_ask ht q).keepsFaith le_rfl hs maxUnfolding
    exact ⟨U', hU'.1.symm, hU'.2.1.symm, hs'⟩
  | read _ ht context a ih =>
    obtain ⟨U, rfl, rfl, hs⟩ := ih
    have ht := hs.faithful_of_current? ht
    obtain ⟨U', hU', hs', -⟩ := (faithful_resolveType ht context a).keepsFaith le_rfl hs 0
    exact ⟨U', hU'.1.symm, hU'.2.1.symm, hs'⟩

end PklAnalysis.Session
