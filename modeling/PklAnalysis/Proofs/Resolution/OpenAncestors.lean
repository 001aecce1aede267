import PklAnalysis.Proofs.Resolution.Answers
import PklAnalysis.Proofs.Resolution.SteadyQuestions

/-!
# References into classes with unknown ancestors

Members of a class cannot all be known if its superclasses lead back to one of them or end in the
unknown type.  The test for this misses aliases that stand for the unknown type.  A value that is
not open shows no class that fails the test.
-/

namespace PklAnalysis.Session

variable {W : Store}

/-! ## Chains of superclasses -/

/-- Whether the superclasses of a class lead back to one of them or end in the unknown type, with
aliases opened. -/
def hasOpenChain (d : DeclRef) : Query Bool := do
  let chain ← ancestors d
  match chain.classes.getLast?.bind (·.superclass) with
  | some super => return chain.isCyclic || (← env.expand super).isUnknown
  | none => return chain.isCyclic

/-- Whether the superclasses of a class end in an alias that stands for the unknown type. -/
def endsInUnknownAlias (d : DeclRef) : Query Bool := do
  let chain ← ancestors d
  match chain.classes.getLast?.bind (·.superclass) with
  | some (.typeAlias a args) =>
    return !chain.isCyclic && (← env.expand (.typeAlias a args)).isUnknown
  | _ => return false

/-- The test for unknown ancestors misses such aliases and nothing else. -/
theorem hasOpenChain_eq (d : DeclRef) (s : Session) :
    (hasOpenChain d s).1 = ((hasUnknownAncestor d s).1 || (endsInUnknownAlias d s).1) := by
  rw [hasOpenChain, hasUnknownAncestor, endsInUnknownAlias, bind_apply, bind_apply, bind_apply]
  generalize ancestors d s = answer
  obtain ⟨chain, s⟩ := answer
  simp only
  cases chain.classes.getLast?.bind (·.superclass) with
  | none =>
    change chain.isCyclic = (chain.isCyclic || false || false)
    simp
  | some super =>
    cases super with
    | typeAlias a args =>
      let isUnknown := (env.expand (.typeAlias a args) s).1.isUnknown
      change (chain.isCyclic || isUnknown) =
        (chain.isCyclic || false || (!chain.isCyclic && isUnknown))
      cases chain.isCyclic <;> rfl
    | unknown =>
      change (chain.isCyclic || true) = (chain.isCyclic || true || false)
      simp
    | _ =>
      change (chain.isCyclic || false) = (chain.isCyclic || false || false)
      simp

/-! ## The base module alone -/

/-- A store without modules. -/
def emptyStore : Store := Store.ofSources default .none []

/-- What is answered without looking at anything but the base module is answered over every
store. -/
theorem answers_of_emptyStore {α : Type} [Grounding α] {q : Query α} (hq : Steady ∅ q)
    (htrees : (q (new emptyStore)).2.trees = Dict.empty)
    (htargets : (q (new emptyStore)).2.targets = Dict.empty) (hW : W.IsPlain) :
    Answers W q (q (new emptyStore)).1 := by
  have hempty : emptyStore.IsPlain :=
    Store.isPlain_ofSources ProjectIndex.manifestIn?_none (List.forall_mem_nil _)
  have hagrees : (q (new emptyStore)).2.Agrees W := by
    constructor
    · intro t ht
      rw [known, htrees] at ht
      rcases ht with rfl | ht
      · exact .inl rfl
      · cases (show none = some t from ht)
    · intro importer uri target h
      rw [htargets] at h
      cases (show none = some target from h)
  have hfresh := (hq emptyStore (new emptyStore) hempty (Set.empty_subset _) (.new hempty)).fresh W
    hW (Set.empty_subset _) hagrees
  rw [hfresh]
  exact Answers.of_steady hW (hq.mono (Set.empty_subset _))

/-! ## Classes that values show -/

/-- All ancestors of the classes of the base module are known, whatever else a store holds. -/
theorem answers_hasUnknownAncestor_base (hW : W.IsPlain) {d : DeclRef}
    (hd : d ∈ BaseModule.types.decls) : Answers W (hasUnknownAncestor d) false := by
  have hasked : ∀ d ∈ BaseModule.types.decls,
      (hasUnknownAncestor d (new emptyStore)).1 = false ∧
        (hasUnknownAncestor d (new emptyStore)).2.trees = Dict.empty ∧
        (hasUnknownAncestor d (new emptyStore)).2.targets = Dict.empty := by
    decide +kernel
  obtain ⟨hanswer, htrees, htargets⟩ := hasked d hd
  exact hanswer ▸ answers_of_emptyStore (steady_hasUnknownAncestor (Grounded.baseTypes d hd)) htrees
    htargets hW

/-- If the classes that a value shows are found then so is whether it is open, and if it is not then
all ancestors of these classes are known. -/
def Vouches (W : Store) (isOpen : Option Bool) (ds : Option (List DeclRef)) : Prop :=
  ∀ found ∈ ds, ∃ b ∈ isOpen, b = false → ∀ d ∈ found, Answers W (hasUnknownAncestor d) false

theorem vouches_none (isOpen : Option Bool) : Vouches W isOpen none := fun _ h => nomatch h

theorem vouches_true (ds : Option (List DeclRef)) : Vouches W (some true) ds :=
  fun _ _ => ⟨true, rfl, fun h => nomatch h⟩

theorem vouches_some {b : Bool} {ds : List DeclRef}
    (h : b = false → ∀ d ∈ ds, Answers W (hasUnknownAncestor d) false) :
    Vouches W (some b) (some ds) := by
  rintro _ ⟨⟩
  exact ⟨b, rfl, h⟩

namespace Answers

variable {α β : Type} {x : OptionT Query α} {f : α → OptionT Query β}

theorem run_bind_some {a : α} {o : Option β} (hx : Answers W x.run (some a))
    (hf : Answers W (f a).run o) : Answers W (x >>= f).run o := by
  rw [OptionT.run_bind, Option.elimM]
  exact hx.bind hf

theorem run_bind_none (hx : Answers W x.run none) : Answers W (x >>= f).run none := by
  rw [OptionT.run_bind, Option.elimM]
  exact hx.bind (.pure none)

theorem run_lift {q : Query α} {a : α} (hq : Answers W q a) :
    Answers W (monadLift q : OptionT Query α).run (some a) := by
  change Answers W (q >>= fun a => Pure.pure (some a)) (some a)
  exact hq.bind (.pure (some a))

end Answers

/-- It is enough to ask the members of a union up to the first one that is open. -/
theorem parallel_anyM_mapM {isOpen : Ty → OptionT Query Bool}
    {classes : Ty → OptionT Query (List DeclRef)} {ms : List Ty}
    (h : ∀ m ∈ ms, Parallel W W (Vouches W) (isOpen m).run (classes m).run) :
    Parallel W W (fun o o' => Vouches W o (o'.map List.flatten)) (ms.anyM isOpen).run
      (ms.mapM classes).run := by
  induction ms with
  | nil =>
    rw [List.mapM_nil]
    exact ⟨some false, some [], .pure _, .pure _, vouches_some fun _ => List.forall_mem_nil _⟩
  | cons m ms ih =>
    obtain ⟨hm, hms⟩ := List.forall_mem_cons.mp h
    obtain ⟨o, o', ho, ho', hvouches⟩ := hm
    obtain ⟨p, p', hp, hp', hrest⟩ := ih hms
    have hclasses : Answers W ((m :: ms).mapM classes).run
        (o'.bind fun ds => p'.map (ds :: ·)) := by
      rw [List.mapM_cons]
      cases o' with
      | none => exact ho'.run_bind_none
      | some ds =>
        refine ho'.run_bind_some ?_
        cases p' with
        | none => exact hp'.run_bind_none
        | some dss => exact hp'.run_bind_some (.pure _)
    rw [List.anyM]
    cases o with
    | none =>
      obtain rfl : o' = none := Option.eq_none_iff_forall_not_mem.mpr fun ds hds => by
        obtain ⟨b, hb, -⟩ := hvouches ds hds
        exact nomatch hb
      exact ⟨none, none, ho.run_bind_none, hclasses, vouches_none _⟩
    | some b =>
      cases b with
      | true => exact ⟨some true, _, ho.run_bind_some (.pure _), hclasses, vouches_true _⟩
      | false =>
        refine ⟨p, _, ho.run_bind_some hp, hclasses, fun found hfound => ?_⟩
        -- both the first member and the rest have been found
        obtain ⟨dss, hdss, rfl⟩ := Option.map_eq_some_iff.mp hfound
        obtain ⟨ds, hds, hdss⟩ := Option.bind_eq_some_iff.mp hdss
        obtain ⟨dss', hdss', rfl⟩ := Option.map_eq_some_iff.mp hdss
        obtain ⟨_, ⟨⟩, hfirst⟩ := hvouches ds hds
        obtain ⟨b, hb, hall⟩ := hrest dss'.flatten (Option.mem_map_of_mem _ hdss')
        refine ⟨b, hb, fun hclosed => ?_⟩
        rw [List.flatten_cons]
        exact List.forall_mem_append.mpr ⟨hfirst rfl, hall hclosed⟩

/-- A function is seen as an object of a class of the base module. -/
theorem functionView_eq_class (ps : List Ty) (r : Ty) : ∃ d ∈ BaseModule.types.decls, ∃ args,
    BaseModule.types.functionView ps r = .class d args := by
  rw [BaseTypes.functionView]
  split
  · next d hd => exact ⟨d, List.mem_append_right _ (List.mem_of_getElem? hd), _, rfl⟩
  · exact ⟨_, by simp, _, rfl⟩

/-- A value that is not open shows no class with an unknown ancestor. -/
theorem parallel_isOpenTypeWithin (hW : W.IsPlain) (depth : Nat) {ty : Ty}
    (hty : Grounded W.held ty) :
    Parallel W W (Vouches W) (isOpenTypeWithin depth ty).run
      (receiverClassesWithin depth ty).run := by
  have hbase {d : DeclRef} (hd : d ∈ BaseModule.types.decls) :
      ∀ c ∈ [d], Answers W (hasUnknownAncestor c) false :=
    List.forall_mem_singleton.mpr (answers_hasUnknownAncestor_base hW hd)
  have hexpand := Answers.of_steady hW (steady_expand hty)
  have htype := hexpand.grounded hW (steady_expand hty)
  unfold isOpenTypeWithin receiverClassesWithin
  generalize (env.expand ty (new W)).1 = type at hexpand htype
  have hrun {α : Type} {f : Ty → OptionT Query α} {o : Option α} (h : Answers W (f type).run o) :
      Answers W (monadLift (env.expand ty : Query Ty) >>= f).run o :=
    hexpand.run_lift.run_bind_some h
  cases type with
  | unknown | param => exact ⟨some true, some [], hrun (.pure _), hrun (.pure _), vouches_true _⟩
  | nothing | typeAlias =>
    exact ⟨some false, some [], hrun (.pure _), hrun (.pure _),
      vouches_some fun _ => List.forall_mem_nil _⟩
  | literal text =>
    exact ⟨some false, some [_], hrun (.pure _), hrun (.pure _),
      vouches_some fun _ => hbase (by simp)⟩
  | function ps r =>
    obtain ⟨d, hd, args, hview⟩ := functionView_eq_class ps r
    refine ⟨some false, some [d], hrun (.pure _), hrun ?_, vouches_some fun _ => hbase hd⟩
    simp only [hview]
    exact .pure _
  | «class» d args =>
    have hknown := Answers.of_steady hW
      (steady_hasUnknownAncestor (Grounded.class_iff.mp htype).1)
    by_cases hdynamic : d.site = BaseModule.types.dynamic.site
    · refine ⟨some true, some [d], hrun ?_, hrun (.pure _), vouches_true _⟩
      simp only [if_pos hdynamic]
      exact .pure _
    · generalize (hasUnknownAncestor d (new W)).1 = isOpen at hknown
      refine ⟨some isOpen, some [d], hrun ?_, hrun (.pure _), vouches_some ?_⟩
      · simp only [if_neg hdynamic]
        exact hknown.run_lift
      · rintro rfl
        exact List.forall_mem_singleton.mpr hknown
  | nullable a =>
    cases depth with
    | zero => exact ⟨none, none, hrun (.pure _), hrun (.pure _), vouches_none _⟩
    | succ depth =>
      have ha := Grounded.nullable_iff.mp htype
      obtain ⟨o, o', ho, ho', hvouches⟩ := parallel_isOpenTypeWithin hW depth ha
      refine ⟨o, o'.map (· ++ [BaseModule.types.null]), hrun ho, hrun ?_, fun found hfound => ?_⟩
      · cases o' with
        | none => exact ho'.run_bind_none
        | some ds => exact ho'.run_bind_some (.pure _)
      · obtain ⟨ds, hds, rfl⟩ := Option.map_eq_some_iff.mp hfound
        obtain ⟨b, hb, hall⟩ := hvouches ds hds
        exact ⟨b, hb, fun hclosed =>
          List.forall_mem_append.mpr ⟨hall hclosed, hbase (by simp)⟩⟩
  | union ms =>
    cases depth with
    | zero => exact ⟨none, none, hrun (.pure _), hrun (.pure _), vouches_none _⟩
    | succ depth =>
      have hms := Grounded.union_iff.mp htype
      obtain ⟨o, o', ho, ho', hvouches⟩ := parallel_anyM_mapM fun m hm =>
        parallel_isOpenTypeWithin hW depth (hms m hm)
      refine ⟨o, o'.map List.flatten, hrun ho, hrun ?_, hvouches⟩
      cases o' with
      | none => exact ho'.run_bind_none
      | some dss => exact ho'.run_bind_some (.pure _)
termination_by depth

/-- A value that is not open shows no class with an unknown ancestor. -/
theorem hasUnknownAncestor_of_not_isOpenType (hW : W.IsPlain) {ty : Ty}
    (hty : Grounded W.held ty) (h : Answers W (isOpenType ty) false) {d : DeclRef}
    (hd : d ∈ (receiverClasses ty (new W)).1) : Answers W (hasUnknownAncestor d) false := by
  obtain ⟨o, o', ho, ho', hvouches⟩ := parallel_isOpenTypeWithin hW maxUnfolding hty
  have hopen : Answers W (isOpenType ty) (o.getD false) := by
    rw [isOpenType, bounded_atDepth]
    exact ho.bind (.pure _)
  have hclasses : Answers W (receiverClasses ty) (o'.getD []) := by
    rw [receiverClasses, bounded_atDepth]
    exact ho'.bind (.pure _)
  rw [hclasses.eq_new hW] at hd
  have hclosed : o.getD false = false := (hopen.eq_new hW).symm.trans (h.eq_new hW)
  cases o' with
  | none => exact absurd hd List.not_mem_nil
  | some ds =>
    obtain ⟨b, hb, hall⟩ := hvouches ds rfl
    obtain rfl : o = some b := hb
    exact hall hclosed d hd

end PklAnalysis.Session
