import PklAnalysis.Analysis.Diagnostics
import PklAnalysis.Analysis.ImportEdit
import PklAnalysis.Analysis.Overrides
import PklAnalysis.Proofs.Resolution.Adoption
import PklAnalysis.Proofs.Resolution.SteadyInference

/-!
# Questions are answered steadily

References, types, diagnostics, import lists and overridden members are found steadily once the
tree of the question has been adopted.
-/

namespace PklAnalysis.Session

variable {T : Set Tree} {t : Tree}

theorem answersAlike_resolve (t : Tree) (n : Nat) : AnswersAlike t (resolve t n) :=
  answersAlike_adopt fun _ ht => steady_resolveIn isSteady_typing ht n

theorem answersAlike_typeOf (t : Tree) (n : Nat) : AnswersAlike t (typeOf t n) :=
  answersAlike_adopt fun _ ht => isSteady_typing.infer n ht

theorem steady_resolve (ht : Grounded T t) (n : Nat) : Steady T (resolve t n) :=
  (steady_adopt ht).bind fun _ _ hU _ => steady_resolveIn isSteady_typing (ht.mono hU) n

theorem steady_typeOf (ht : Grounded T t) (n : Nat) : Steady T (typeOf t n) :=
  (steady_adopt ht).bind fun _ _ hU _ => isSteady_typing.infer n (ht.mono hU)

/-! ## Diagnostics -/

/-- Diagnostics speak of no declarations. -/
theorem steady_diagnostic (o : Option Diagnostic) :
    Steady T (pure o : Query (Option Diagnostic)) := .pure fun _ _ => trivial

theorem steady_findingsAt {check : Nat → Query (Option Diagnostic)}
    (h : ∀ n, Steady T (check n)) : Steady T (findingsAt t check) :=
  (Steady.mapM fun n _ => h n).bind fun _ _ _ _ => .pure fun _ _ => trivial

theorem steady_checkUri (ht : Grounded T t) (n : Nat) : Steady T (checkUri t n) := by
  unfold checkUri
  split
  · exact steady_diagnostic _
  · next huri =>
    refine (steady_resolveModule ht huri).bind fun U target _ _ => ?_
    cases target with
    | ok _ => exact steady_diagnostic _
    | error e =>
      simp only
      split
      · exact steady_diagnostic _
      · exact steady_diagnostic _

theorem steady_checkModuleCycle (ht : Grounded T t) : Steady T (checkModuleCycle t) := by
  unfold checkModuleCycle
  refine (steady_ancestors ht.moduleDecl).bind fun U chain _ _ => ?_
  split
  · exact steady_diagnostic _
  · exact steady_diagnostic _

theorem steady_checkClassCycle (ht : Grounded T t) (n : Nat) :
    Steady T (checkClassCycle t n) := by
  unfold checkClassCycle
  split
  · next d _ hd =>
    refine (steady_ancestors (ht.declOf? n d hd)).bind fun U chain _ _ => ?_
    split
    · exact steady_diagnostic _
    · exact steady_diagnostic _
  · exact steady_diagnostic _

theorem steady_checkCycles (ht : Grounded T t) : Steady T (checkCycles t) := by
  unfold checkCycles
  refine (steady_checkModuleCycle ht).bind fun U own hU _ => ?_
  exact (steady_findingsAt fun n => steady_checkClassCycle (ht.mono hU) n).bind
    fun _ _ _ _ => .pure fun _ _ => trivial

theorem steady_isOpenImport (ht : Grounded T t) (n : Nat) : Steady T (isOpenImport t n) := by
  unfold isOpenImport
  split
  · next i hi =>
    have huri : uriAt? t n = some i.uri := by rw [uriAt?, hi]
    refine (steady_resolveModule? ht huri).bind fun U found _ hfound => ?_
    cases found with
    | some m => exact steady_hasUnknownAncestor hfound.of_some.moduleDecl
    | none => exact .pure trivial
  · exact .pure trivial

theorem steady_isOpenReceiver (ht : Grounded T t) (receiver : Nat) :
    Steady T (isOpenReceiver t receiver) := by
  unfold isOpenReceiver
  refine (steady_resolve ht receiver).bind fun U found hU _ => ?_
  split
  · exact steady_isOpenImport (ht.mono hU) _
  · exact (steady_typeOf (ht.mono hU) receiver).bind fun V type _ htype => steady_isOpenType htype

theorem steady_isOpenScope (ht : Grounded T t) (scope : Nat) : Steady T (isOpenScope t scope) := by
  unfold isOpenScope
  split
  · exact (steady_typeOf ht scope).bind fun _ _ _ _ => .pure trivial
  · split
    · next d hd => exact steady_hasUnknownAncestor (ht.declOf? scope d hd)
    · exact .pure trivial
  · exact .pure trivial

theorem steady_hasOpenScope (ht : Grounded T t) (n : Nat) : Steady T (hasOpenScope t n) := by
  unfold hasOpenScope
  refine (Steady.anyM fun scope _ => steady_isOpenScope ht scope).bind fun U isOpen hU _ => ?_
  split
  · exact .pure trivial
  · exact steady_hasUnknownAncestor (ht.mono hU).moduleDecl

theorem steady_isExcused (ht : Grounded T t) (n : Nat) (hasReceiver : Bool) :
    Steady T (isExcused t n hasReceiver) := by
  unfold isExcused
  split
  · split
    · exact steady_isOpenReceiver ht _
    · exact .pure trivial
  · exact steady_hasOpenScope ht n

theorem steady_checkReference (ht : Grounded T t) (n : Nat) : Steady T (checkReference t n) := by
  unfold checkReference
  split
  · exact steady_diagnostic _
  · refine (steady_resolve ht n).bind fun U found hU _ => ?_
    split
    · exact steady_diagnostic _
    · refine (steady_isExcused (ht.mono hU) n _).bind fun V excused _ _ => ?_
      split
      · exact steady_diagnostic _
      · exact steady_diagnostic _

/-- A type and a value, if there are both. -/
def typedValue? : Option Ty → Option Nat → Option (Ty × Nat)
  | some type, some value => some (type, value)
  | _, _ => none

theorem steady_typedValue? {type : Option Ty} (htype : Grounded T type) (value : Option Nat) :
    Steady T (pure (typedValue? type value) : Query (Option (Ty × Nat))) := by
  refine .pure ?_
  unfold typedValue?
  split
  · exact .some ⟨htype.of_some, trivial⟩
  · exact .none

theorem steady_declaredValue? (ht : Grounded T t) (n : Nat) : Steady T (declaredValue? t n) := by
  unfold declaredValue?
  simp only [pure_bind]
  split
  · exact (steady_declaredPropertyType? ht n).bind fun U type _ h => steady_typedValue? h _
  · exact (Steady.optionMapM fun a _ => steady_resolveType ht n a).bind fun U type _ h =>
      steady_typedValue? h _
  · exact (Steady.optionMapM fun a _ => steady_resolveType ht n a).bind fun U type _ h =>
      steady_typedValue? h _
  · exact .pure .none

theorem steady_checkType (ht : Grounded T t) (n : Nat) : Steady T (checkType t n) := by
  unfold checkType
  refine (steady_declaredValue? ht n).bind fun U found hU hfound => ?_
  split
  · exact steady_diagnostic _
  · next declared value =>
    refine (steady_typeOf (ht.mono hU) value).bind fun V actual hV hactual => ?_
    have hexpected := (hfound.of_some.1.mono hV).erase
    refine (steady_haveCommonSubtype hactual hexpected).bind fun X common _ _ => ?_
    split
    · exact steady_diagnostic _
    · exact steady_diagnostic _

theorem steady_checkIf {check : Query (List Diagnostic)} (h : Steady T check) (wanted : Bool) :
    Steady T (checkIf wanted check) := by
  unfold checkIf
  split
  · exact h
  · exact .pure .nil

theorem answersAlike_checkModule (t : Tree) (options : CheckOptions) :
    AnswersAlike t (checkModule t options) := by
  refine answersAlike_adopt fun U ht => ?_
  refine (steady_checkIf (steady_findingsAt (steady_checkUri ht)) _).bind fun V _ hV _ => ?_
  have ht := ht.mono hV
  refine (steady_checkIf (steady_checkCycles ht) _).bind fun X _ hX _ => ?_
  have ht := ht.mono hX
  refine (steady_checkIf (steady_findingsAt (steady_checkReference ht)) _).bind fun Y _ hY _ => ?_
  have ht := ht.mono hY
  exact (steady_checkIf (steady_findingsAt (steady_checkType ht)) _).bind
    fun _ _ _ _ => .pure fun _ _ => trivial

/-! ## Import lists -/

theorem steady_referencedImport? (ht : Grounded T t) (n : Nat) :
    Steady T (referencedImport? t n) := by
  unfold referencedImport?
  split
  · exact (steady_resolve ht n).bind fun _ _ _ _ => .pure fun _ _ => trivial
  · exact (steady_resolve ht n).bind fun _ _ _ _ => .pure fun _ _ => trivial
  · exact (steady_resolve ht n).bind fun _ _ _ _ => .pure fun _ _ => trivial
  · exact .pure .none

theorem steady_importsUsedAt (ht : Grounded T t) (n : Nat) : Steady T (importsUsedAt t n) :=
  (steady_referencedImport? ht n).bind fun _ _ _ _ => .pure fun _ _ => trivial

theorem steady_usedImports (ht : Grounded T t) : Steady T (usedImports t) :=
  (Steady.mapM fun n _ => steady_importsUsedAt ht n).bind fun _ _ _ _ => .pure fun _ _ => trivial

theorem steady_importKey (ht : Grounded T t) {n : Nat} {i : Import} (hi : (n, i) ∈ t.imports) :
    Steady T (importKey t i) := by
  unfold importKey
  simp only
  refine (steady_resolveModule? ht (uriAt?_of_mem_imports hi)).bind fun U found _ _ => ?_
  cases found with
  | some m => exact .pure ⟨trivial, fun _ _ => trivial⟩
  | none => exact .pure ⟨trivial, fun _ _ => trivial⟩

theorem steady_distinctImports (ht : Grounded T t) {is : List Import}
    (his : ∀ i ∈ is, ∃ n, (n, i) ∈ t.imports) : Steady T (distinctImports t is) := by
  unfold distinctImports
  refine (Steady.mapM fun i hi => ?_).bind fun _ _ _ _ => .pure fun _ _ => trivial
  obtain ⟨n, hn⟩ := his i hi
  exact (steady_importKey ht hn).bind fun _ _ _ hkey => .pure ⟨hkey, trivial⟩

theorem answersAlike_tidyImports (t : Tree) : AnswersAlike t (tidyImports t) := by
  refine answersAlike_adopt fun U ht => ?_
  split
  · exact .pure .none
  · refine (steady_usedImports ht).bind fun V used hV _ => ?_
    refine (steady_distinctImports (ht.mono hV) fun i hi => ?_).bind
      fun _ _ _ _ => .pure fun _ _ => trivial
    obtain ⟨⟨n, i⟩, hmem, rfl⟩ := List.mem_map.mp hi
    exact ⟨n, (List.mem_filter.mp hmem).1⟩

/-! ## Overridden members -/

theorem answersAlike_superMember? (t : Tree) (n : Nat) : AnswersAlike t (superMember? t n) := by
  refine answersAlike_adopt fun U ht => ?_
  split
  · next owner _ howner =>
    exact (steady_ancestors (ht.ownerOf? n owner howner)).bind
      fun _ _ _ _ => .pure fun _ _ => trivial
  · exact .pure .none

end PklAnalysis.Session
