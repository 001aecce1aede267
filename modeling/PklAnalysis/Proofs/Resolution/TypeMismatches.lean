import PklAnalysis.Proofs.Lattice.UnknownRoots
import PklAnalysis.Proofs.Resolution.BaseClasses
import PklAnalysis.Proofs.Resolution.ReportedReferences
import PklAnalysis.Proofs.Resolution.StoredRelations

/-!
# Mismatches with classes that end in the unknown type

A check reports a value whose type has no subtype in common with the type that is declared for it.
If one of the two is a class whose superclasses end in the unknown type, the mismatch is reported
exactly if the known ancestors of the class tell it apart from the other type
(`Session.reportsMismatch_iff_excludes`), though its unknown ones might have brought them together.
-/

namespace PklAnalysis

open TypeTable

/-- The node of a value that has another type than the one that is declared for it, with its own
type and the declared one. -/
def Diagnostic.mismatch? (d : Diagnostic) : Option (Nat × Ty × Ty) :=
  match d.finding with
  | .typeMismatch expected actual => some (d.node, actual, expected)
  | .module _ | .circularModule _ | .circularClass _ | .unresolvedReference _ => none

namespace Session

variable {W : Store} {t : Tree}

/-! ## The definitions of base classes -/

/-- What a class is defined as depends on its place only, but for its name. -/
theorem superclass_congr {d d' : DeclRef} (hsite : d.site = d'.site) :
    ((classDef d (new W)).1.map fun c => (c.decl.site, c.superclass)) =
      (classDef d' (new W)).1.map fun c => (c.decl.site, c.superclass) := by
  obtain ⟨site, name⟩ := d
  obtain ⟨_, name'⟩ := d'
  obtain rfl : site = _ := hsite
  have hat (t : Tree) (s : Session) :
      ((classAt? t ⟨site, name⟩ s).1.map fun c => (c.decl.site, c.superclass)) =
        (classAt? t ⟨site, name'⟩ s).1.map fun c => (c.decl.site, c.superclass) := by
    unfold classAt?
    simp only
    rcases t.kind? site.node with _ | kind
    · rfl
    · cases kind <;> rfl
  have hnew : (new W).classes.get? site = none := rfl
  rw [classDef, remembered_apply, classDef, remembered_apply]
  simp only [hnew, bind_apply]
  cases (tree? site.module (new W)).1 with
  | none => rfl
  | some t => exact hat t _

theorem decls_counterparts :
    BaseModule.types.decls = baseTypes.decls.map BaseModule.counterpart := rfl

theorem parent?_eq (W : Store) (d : DeclRef) (args : List Ty) : (definitions W).parent? d args =
    ((classDef d (new W)).1.map fun c => (c.decl.site, c.superclass)).bind fun c =>
      c.2.map fun s => expansion W (s.substitute BaseModule.types c.1 args) := by
  have hclass : (definitions W).classDef d = (classDef d (new W)).1 := rfl
  rw [TypeEnv.parent?, hclass]
  cases (classDef d (new W)).1 <;> rfl

/-- By the definitions of a store what is above a class depends on its place only, and above the
base classes there are only base classes. -/
theorem hasKnownBase_definitions (W : Store) : (definitions W).HasKnownBase where
  parent_congr {d d'} hsite args := by
    rw [parent?_eq, parent?_eq, superclass_congr hsite]
  parent_base {d} hd args := by
    rw [show (definitions W).base.decls = _ from decls_counterparts] at hd ⊢
    obtain ⟨e, he, rfl⟩ := List.mem_map.mp hd
    obtain ⟨c, hdef, hdecl, habove⟩ := above_base he
    have hfound := (tells_classDef he hdef (new W) (knowsBase_new W)).1
    rw [parent?_eq, hfound]
    rcases habove with ⟨hnone, -⟩ | ⟨s, e', indices, hs, hhanded, ⟨he', -⟩, -⟩
    · exact .inl (by simp [hnone])
    · refine .inr ⟨BaseModule.counterpart e', ?_, indices.map (argAt args), ?_⟩
      · exact List.mem_map_of_mem he'
      · simp only [hs, hdecl, Option.map_some, Option.bind_some]
        rw [BaseModule.substitute_of_handed? hhanded]
        rfl

/-! ## Checks of types -/

/-- A value of one type stands where another type is declared. -/
def HoldsAt (W : Store) (t : Tree) (value : Nat) (actual expected : Ty) : Prop :=
  ∃ n ∈ t.descendants Tree.root, ∃ declared,
    (declaredValue? t n (new W)).1 = some (declared, value) ∧
      (typeOf t value (new W)).1 = actual ∧ declared.erase = expected

/-- A check of a module reports that a value has another type than the one that is declared. -/
def ReportsMismatch (W : Store) (t : Tree) (options : CheckOptions) (value : Nat)
    (actual expected : Ty) : Prop :=
  (value, actual, expected) ∈ (checkModule t options (new W)).1.filterMap Diagnostic.mismatch?

theorem kind_of_mismatch? {d : Diagnostic} {r : Nat × Ty × Ty} (h : d.mismatch? = some r) :
    d.finding.kind = .type := by
  unfold Diagnostic.mismatch? at h
  split at h
  · next hfinding => rw [hfinding]; rfl
  all_goals cases h

theorem isFaithful_beforeTypes (hW : W.IsPlain) (ht : Grounded W.held t)
    (options : CheckOptions) : IsFaithful W (beforeTypes t options (new W)) := by
  have hreferences : Steady W.held (findingsAt t (checkReference t)) :=
    steady_findingsAt (steady_checkReference ht)
  exact (Answers.of_steady hW (steady_checkIf hreferences options.unresolvedReferences) _
    (isFaithful_beforeReferences hW ht options)).2

/-- What the check of a type finds by the definitions of a store. -/
def mismatchAt (W : Store) (t : Tree) (n : Nat) : Option Diagnostic :=
  (declaredValue? t n (new W)).1.bind fun (declared, value) =>
    let actual := (typeOf t value (new W)).1
    bif (definitions W).haveCommonSubtype actual declared.erase then none
    else some (.atNode t value (.typeMismatch declared.erase actual))

theorem answers_checkType (hW : W.IsPlain) (ht : Grounded W.held t) (n : Nat) :
    Answers W (checkType t n) (mismatchAt W t n) := by
  have hdeclared := Answers.of_steady hW (steady_declaredValue? ht n)
  have hground := hdeclared.grounded hW (steady_declaredValue? ht n)
  rw [checkType, mismatchAt]
  refine hdeclared.bind ?_
  generalize (declaredValue? t n (new W)).1 = found at hground ⊢
  cases found with
  | none => exact .pure none
  | some found =>
    obtain ⟨declared, value⟩ := found
    have hactual := Answers.of_steady hW (steady_typeOf ht value)
    have hgroundActual := hactual.grounded hW (steady_typeOf ht value)
    refine hactual.bind ?_
    refine (answers_haveCommonSubtype hW hgroundActual hground.of_some.1.erase).bind ?_
    simp only [Option.bind_some]
    generalize (definitions W).haveCommonSubtype _ _ = common
    cases common <;> exact .pure _

/-- A mismatch is reported for a value and a declared type without a common subtype. -/
theorem reportsMismatch_iff (hW : W.IsPlain) (ht : Grounded W.held t) {options : CheckOptions}
    (hwanted : options.typeMismatches = true) {value : Nat} {actual expected : Ty} :
    ReportsMismatch W t options value actual expected ↔
      HoldsAt W t value actual expected ∧
        (definitions W).haveCommonSubtype actual expected = false := by
  have hfound := findingsAt_eq (t := t) (P := IsFaithful W)
    (fun n s hs => answers_checkType hW ht n s hs) (isFaithful_beforeTypes hW ht options)
  have hmem (d : Diagnostic) : d ∈ (findingsAt t (checkType t) (beforeTypes t options (new W))).1 ↔
      ∃ n ∈ t.descendants Tree.root, mismatchAt W t n = some d := by
    rw [hfound, List.mem_filterMap]
  rw [ReportsMismatch, List.mem_filterMap]
  constructor
  · rintro ⟨d, hd, hmismatch⟩
    obtain ⟨-, hd⟩ := (mem_checkModule_type (kind_of_mismatch? hmismatch)).mp hd
    obtain ⟨n, hn, hd⟩ := (hmem d).mp hd
    obtain ⟨⟨declared, value'⟩, hdeclared, hd⟩ := Option.bind_eq_some_iff.mp hd
    simp only at hd
    generalize htype : (typeOf t value' (new W)).1 = type at hd
    cases hcommon : (definitions W).haveCommonSubtype type declared.erase with
    | true =>
      rw [hcommon] at hd
      cases hd
    | false =>
      rw [hcommon] at hd
      cases hd
      cases hmismatch
      exact ⟨⟨n, hn, declared, hdeclared, htype, rfl⟩, hcommon⟩
  · rintro ⟨⟨n, hn, declared, hdeclared, rfl, rfl⟩, hcommon⟩
    refine ⟨.atNode t value (.typeMismatch declared.erase (typeOf t value (new W)).1),
      (mem_checkModule_type rfl).mpr ⟨hwanted, (hmem _).mpr ⟨n, hn, ?_⟩⟩, rfl⟩
    simp only [mismatchAt, hdeclared, Option.bind_some, hcommon, cond_false]

/-- A mismatch of a value and a declared type, one of which is a class whose superclasses end in the
unknown type, is reported exactly if the known ancestors of the class tell it apart from the other
type. -/
theorem reportsMismatch_iff_excludes (hW : W.IsPlain) (ht : W.tree? t.id = some t)
    {options : CheckOptions} (hwanted : options.typeMismatches = true) {value : Nat}
    (side : TypeEnv.Side) {c : DeclRef} {args : List Ty} {other : Ty}
    (hends : (definitions W).EndsInUnknown c args)
    (hholds : side.of (HoldsAt W t value) (.class c args) other) :
    side.of (ReportsMismatch W t options value) (.class c args) other ↔
      (definitions W).Excludes c args side TypeEnv.maxRelationDepth other := by
  have hground : Grounded W.held t := hW.grounded_of_mem (.inr ht)
  refine Iff.trans ?_
    (hends.not_commonAt_iff (hasKnownBase_definitions W) side TypeEnv.maxRelationDepth other)
  cases side with
  | left =>
    refine (reportsMismatch_iff hW hground hwanted).trans ((and_iff_right hholds).trans ?_)
    rw [TypeEnv.haveCommonSubtype_eq]
    exact Bool.not_eq_true _ ▸ Iff.rfl
  | right =>
    refine (reportsMismatch_iff hW hground hwanted).trans ((and_iff_right hholds).trans ?_)
    rw [TypeEnv.haveCommonSubtype_eq]
    exact Bool.not_eq_true _ ▸ Iff.rfl

/-! ## Objects of a class with an unknown ancestor -/

/-- A module with a class that extends a missing one, another class, and objects of the two where
the other class, texts or none, and the first class are declared. -/
def drafts : Source.Module :=
  let class_ (name : String) (superclass : Option TypeExpr) : Source.Class :=
    ⟨name, [], superclass, [], [], [], none⟩
  let object (name : String) (type : TypeExpr) (referent : String) : Source.Property :=
    ⟨name, some type, [], some (.new (some (.simple referent)) []), none, none⟩
  { bareModule "file:///w/m.pkl" with
    classes := [class_ "Open" (some (.simple "Missing")), class_ "Closed" none]
    properties := [object "p" (.simple "Closed") "Open",
      object "q" (.nullable (.union [.simple "String", .simple "Closed"])) "Open",
      object "r" (.simple "Open") "Closed"] }

def draftsTree : Tree := drafts.treeAs (Store.idOf drafts.uri) 1

def draftsStore : Store := Store.ofSources default .none [drafts]

/-- The class that extends a missing one. -/
def openDraft : DeclRef := ⟨⟨draftsTree.id, 1⟩, "Open"⟩

/-- The class without an unknown ancestor. -/
def closedDraft : DeclRef := ⟨⟨draftsTree.id, 2⟩, "Closed"⟩

/-- The check of types alone. -/
def typesOnly : CheckOptions := ⟨false, false, false, true⟩

theorem isPlain_draftsStore : draftsStore.IsPlain :=
  Store.isPlain_ofSources ProjectIndex.manifestIn?_none (by decide)

theorem endsInUnknown_openDraft : (definitions draftsStore).EndsInUnknown openDraft [] := by
  refine .here ?_
  decide +kernel

theorem draftsTree_stored : draftsStore.tree? draftsTree.id = some draftsTree :=
  Store.tree?_ofSources_singleton drafts

/-- Texts and objects of the other class, or none of them, exclude an object of the class that
extends a missing one. -/
theorem reportsMismatch_iff_excludes_drafts :
    let other : Ty := .nullable (.union [.class BaseModule.types.string [], .class closedDraft []])
    (definitions draftsStore).EndsInUnknown openDraft [] ∧
      HoldsAt draftsStore draftsTree 7 (.class openDraft []) other ∧
      ReportsMismatch draftsStore draftsTree typesOnly 7 (.class openDraft []) other := by
  intro other
  have hends := endsInUnknown_openDraft
  have hholds : HoldsAt draftsStore draftsTree 7 (.class openDraft []) other :=
    ⟨6, by decide +kernel, other, by decide +kernel, by decide +kernel, by decide +kernel⟩
  have hup : @Eq (Option (List Ty)) ((definitions draftsStore).asSupertype?
      (.class openDraft []) closedDraft) none := by decide +kernel
  have hdown : @Eq (Option (List Ty)) ((definitions draftsStore).asSupertype?
      (.class closedDraft []) openDraft) none := by decide +kernel
  refine ⟨hends, hholds, (reportsMismatch_iff_excludes isPlain_draftsStore draftsTree_stored rfl
    .left hends hholds).mpr (.nullable (.union ?_))⟩
  refine List.forall_mem_cons.mpr ⟨.class (by decide) ?_, List.forall_mem_singleton.mpr
    (.class (by decide) ?_)⟩
  · exact hends.not_relatedAt_base (hasKnownBase_definitions draftsStore) .right _
      (show BaseModule.types.string ∈ BaseModule.types.decls by simp) []
  · rintro (⟨view, hview, -⟩ | ⟨-, view, hview, -⟩)
    · exact nomatch hdown.symm.trans hview
    · exact nomatch hup.symm.trans hview

/-- A value may be reported though the unknown ancestors of its class could include the declared
one. -/
theorem not_forall_mismatches_definite :
    ¬∀ (W : Store) (t : Tree) (options : CheckOptions) (value : Nat) (c : DeclRef)
      (args : List Ty) (d : DeclRef) (args' : List Ty), W.tree? t.id = some t →
      (definitions W).EndsInUnknown c args →
      ¬ReportsMismatch W t options value (.class c args) (.class d args') := by
  intro h
  refine h draftsStore draftsTree typesOnly 4 openDraft [] closedDraft [] draftsTree_stored
    endsInUnknown_openDraft ?_
  have hground : Grounded draftsStore.held draftsTree :=
    isPlain_draftsStore.grounded_of_mem (.inr draftsTree_stored)
  have hcommon : @Eq Bool ((definitions draftsStore).haveCommonSubtype (.class openDraft [])
      (.class closedDraft [])) false := by decide +kernel
  refine (reportsMismatch_iff isPlain_draftsStore hground rfl).mpr
    ⟨⟨3, by decide +kernel, .class closedDraft [], by decide +kernel, by decide +kernel,
      by decide⟩, hcommon⟩

end Session

end PklAnalysis
