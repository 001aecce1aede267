import PklAnalysis.Proofs.Lattice.CommonSubtypeRules
import PklAnalysis.Proofs.Resolution.EndingLookups
import PklAnalysis.Proofs.Resolution.SteadyRelations

/-!
# The relations by the definitions of a store

In all sessions over a store types are related as they are by the definitions of the store
(`Session.answers_haveCommonSubtype`).  So what holds of the relations in an environment that needs
no look-ups holds of what sessions answer.
-/

namespace PklAnalysis.Session

variable {W : Store}

/-- A query, and what goes on with its answer, have the answers that they have without look-ups. -/
theorem Answers.follow {α β : Type} {q : Query α} {f : α → Query β} {a : Id α} {g : α → Id β}
    (hq : Answers W q a) (hf : Answers W (f a) (g a)) : Answers W (q >>= f) (a >>= g) :=
  hq.bind hf

/-! ## Ancestors -/

theorem answers_classDef (hW : W.IsPlain) {d : DeclRef} (hd : Grounded W.held d) :
    Answers W (classDef d) ((definitions W).classDef d) :=
  .of_steady hW (steady_classDef hd)

theorem answers_climb (hW : W.IsPlain) (target : Site) (n : Nat) (seen : List Site) {d : DeclRef}
    {args : List Ty} (hd : Grounded W.held d) (hargs : Grounded W.held args) :
    Answers W (env.climb target n seen d args)
      ((definitions W).climb target n seen d args : Option (List Ty)) := by
  induction n generalizing seen d args with
  | zero =>
    unfold TypeEnv.climb
    split
    · exact .pure _
    · split <;> exact .pure _
  | succ n ih =>
    unfold TypeEnv.climb
    split
    · exact .pure _
    split
    · exact .pure _
    have hfound := answers_classDef hW hd
    have hground := hfound.grounded hW (steady_classDef hd)
    refine hfound.follow ?_
    generalize ((definitions W).classDef d : Option ClassDef) = found at hground ⊢
    cases found with
    | none => exact .pure _
    | some c =>
      have hsuper := hground.of_some.2.1
      cases hs : c.superclass with
      | none => simp only [hs]; exact .pure _
      | some super =>
        rw [hs] at hsuper
        simp only [hs]
        have hsubst := hsuper.of_some.substitute c.decl.site hargs
        have hexpanded := grounded_expand hW hsubst
        refine (answers_expand hW hsubst).follow ?_
        generalize expansion W _ = type at hexpanded ⊢
        cases type with
        | «class» d' args' =>
          obtain ⟨hd', hargs'⟩ := Grounded.class_iff.mp hexpanded
          exact ih _ hd' hargs'
        | _ => exact .pure _

theorem answers_asSupertype? (hW : W.IsPlain) {t : Ty} (ht : Grounded W.held t)
    (target : DeclRef) : Answers W (env.asSupertype? t target)
      ((definitions W).asSupertype? t target : Option (List Ty)) := by
  have hexpanded := grounded_expand hW ht
  unfold TypeEnv.asSupertype?
  refine (answers_expand hW ht).follow ?_
  generalize expansion W t = type at hexpanded ⊢
  cases type with
  | «class» d args =>
    obtain ⟨hd, hargs⟩ := Grounded.class_iff.mp hexpanded
    have hclimb := answers_climb hW target.site ((new W).capacity + 1) [] hd hargs
    refine hclimb.congr fun s hs => ?_
    -- sessions that know more trees may climb further, but there are no more classes to meet
    have hcapacity := hs.current.length_sites_le
    have hcapacity' := (IsCurrent.new hW).length_sites_le
    exact climb_congr hW hs.current target.site List.nodup_nil (List.nil_subset _) hd hargs
      (by rw [List.length_nil]; omega) (by rw [List.length_nil]; exact Nat.lt_succ_of_le hcapacity')
  | _ => exact .pure _

/-! ## Pairs that are being proved -/

/-- A computation has an answer in all sessions over a store, and gives back the pairs that it is
given. -/
def Restores {α : Type} (W : Store) (p : Pending) (x : StateT Pending Query α) (v : α) : Prop :=
  Answers W (x.run p) (v, p)

namespace Restores

variable {α β : Type} {p : Pending}

protected theorem pure (a : α) : Restores W p (Pure.pure a) a := Answers.pure _

protected theorem bind {x : StateT Pending Query α} {f : α → StateT Pending Query β} {v : Id α}
    {g : α → Id β} (hx : Restores W p x v) (hf : Restores W p (f v) (g v)) :
    Restores W p (x >>= f) (v >>= g) := by
  change Answers W (x.run p >>= fun a => (f a.1).run a.2) _
  exact Answers.bind hx hf

/-- What is looked up is followed by what is done with the answer. -/
theorem lift_bind {q : Query α} {f : α → StateT Pending Query β} {v : Id α} {g : α → Id β}
    (hq : Answers W q v) (hf : Restores W p (f v) (g v)) :
    Restores W p ((monadLift q : StateT Pending Query α) >>= f)
      ((monadLift v : Id α) >>= g) := by
  have hlift : Restores W p (monadLift q : StateT Pending Query α) v := by
    change Answers W (q >>= fun a => Pure.pure (a, p)) _
    exact hq.bind (.pure _)
  exact hlift.bind hf

theorem and {x y : StateT Pending Query Bool} {v w : Id Bool} (hx : Restores W p x v)
    (hy : Restores W p y w) : Restores W p (x <&&> y) (v <&&> w) := by
  refine hx.bind ?_
  cases v with
  | false => exact .pure false
  | true => exact hy

theorem or {x y : StateT Pending Query Bool} {v w : Id Bool} (hx : Restores W p x v)
    (hy : Restores W p y w) : Restores W p (x <||> y) (v <||> w) := by
  refine hx.bind ?_
  cases v with
  | false => exact hy
  | true => exact .pure true

theorem allM {f : α → StateT Pending Query Bool} {g : α → Id Bool} {l : List α}
    (h : ∀ a ∈ l, Restores W p (f a) (g a)) : Restores W p (l.allM f) (l.allM g) := by
  induction l with
  | nil => exact .pure true
  | cons a l ih =>
    obtain ⟨ha, hl⟩ := List.forall_mem_cons.mp h
    refine ha.bind ?_
    generalize g a = v
    cases v with
    | false => exact .pure false
    | true => exact ih hl

theorem anyM {f : α → StateT Pending Query Bool} {g : α → Id Bool} {l : List α}
    (h : ∀ a ∈ l, Restores W p (f a) (g a)) : Restores W p (l.anyM f) (l.anyM g) := by
  induction l with
  | nil => exact .pure false
  | cons a l ih =>
    obtain ⟨ha, hl⟩ := List.forall_mem_cons.mp h
    refine ha.bind ?_
    generalize g a = v
    cases v with
    | false => exact ih hl
    | true => exact .pure true

/-- A pair that is proved while it is pending is not pending any more afterwards. -/
theorem whilePending (e : Ty × Ty) {x : StateT Pending Query Bool} {v : Bool}
    (hx : Restores W (e :: p) x v) :
    Restores W p (TypeEnv.whilePending e x) (if p.contains e then true else v) := by
  change Answers W ((if p.contains e then _ else _ : StateT Pending Query Bool) p) _
  by_cases hp : p.contains e
  · rw [if_pos hp, if_pos hp]
    exact .pure _
  · rw [if_neg hp, if_neg hp]
    change Answers W (x.run (e :: p) >>= fun a => Pure.pure (a.1, a.2.erase e)) (v, p)
    refine Answers.bind hx ?_
    rw [List.erase_cons_head]
    exact .pure _

end Restores

/-! ## Steps -/

section Steps

variable (hW : W.IsPlain) {p : Pending}
variable {sub common : Ty → Ty → StateT Pending Query Bool} {sub' common' : Ty → Ty → Id Bool}
variable (hsub : ∀ a b, Grounded W.held a → Grounded W.held b →
  Restores W p (sub a b) (sub' a b))
include hsub

theorem restores_argsSubtype (c : Option ClassDef) {ours theirs : List Ty}
    (hours : Grounded W.held ours) (htheirs : Grounded W.held theirs) :
    Restores W p (TypeEnv.argsSubtype sub c ours theirs)
      (TypeEnv.argsSubtype sub' c ours theirs) := by
  refine .allM fun i _ => ?_
  have hours := hours.argAt i
  have htheirs := htheirs.argAt i
  simp only
  cases varianceIn c i with
  | covariant => exact hsub _ _ hours htheirs
  | contravariant => exact hsub _ _ htheirs hours
  | invariant => exact .and (hsub _ _ hours htheirs) (hsub _ _ htheirs hours)

include hW

/-- A class is seen as an ancestor of which the arguments and the definition are looked up. -/
theorem restores_classSubtype {a : Ty} (ha : Grounded W.held a) {target : DeclRef} {args : List Ty}
    (htarget : Grounded W.held target) (hargs : Grounded W.held args) :
    Restores W p (env.classSubtype sub a target args)
      ((definitions W).classSubtype sub' a target args) := by
  have hview := (answers_asSupertype? hW ha target).grounded hW (steady_asSupertype? ha target)
  refine .lift_bind (answers_asSupertype? hW ha target) ?_
  generalize ((definitions W).asSupertype? a target : Option (List Ty)) = view at hview ⊢
  cases view with
  | none => exact .pure false
  | some view =>
    exact .lift_bind (answers_classDef hW htarget)
      (restores_argsSubtype hsub _ hview.of_some hargs)

theorem restores_subtypeStep {a b : Ty} (ha : Grounded W.held a) (hb : Grounded W.held b) :
    Restores W p (env.subtypeStep sub a b) ((definitions W).subtypeStep sub' a b) := by
  have hnull : Grounded W.held env.base.nullType := .nullType Grounded.baseTypes
  have hstring : Grounded W.held env.base.stringType := .stringType Grounded.baseTypes
  have hbase : (definitions W).base = env.base := rfl
  unfold TypeEnv.subtypeStep
  rw [hbase]
  split
  · exact .lift_bind (answers_expand hW ha) (hsub _ _ (grounded_expand hW ha) hb)
  · exact .lift_bind (answers_expand hW hb) (hsub _ _ ha (grounded_expand hW hb))
  · have hms := Grounded.union_iff.mp ha
    exact .allM fun t ht => hsub _ _ (hms t ht) hb
  · exact .and (hsub _ _ (Grounded.nullable_iff.mp ha) hb) (hsub _ _ hnull hb)
  · have hms := Grounded.union_iff.mp hb
    exact .anyM fun t ht => hsub _ _ ha (hms t ht)
  · split
    · exact .pure true
    · exact hsub _ _ ha (Grounded.nullable_iff.mp hb)
  · exact .pure false
  · exact hsub _ _ hstring hb
  · exact .pure false
  · split
    · obtain ⟨hps, hr⟩ := Grounded.function_iff.mp ha
      obtain ⟨hqs, hs⟩ := Grounded.function_iff.mp hb
      refine .and (.allM fun p hp => ?_) (hsub _ _ hr hs)
      obtain ⟨hp, hq⟩ := List.of_mem_zip hp
      exact hsub _ _ (hqs _ hq) (hps _ hp)
    · exact .pure false
  · obtain ⟨hps, hr⟩ := Grounded.function_iff.mp ha
    exact hsub _ _ (.functionView hps hr) hb
  · obtain ⟨hps, hr⟩ := Grounded.function_iff.mp hb
    split
    · exact .pure false
    · next f _ =>
      have hview := (answers_asSupertype? hW ha f).grounded hW (steady_asSupertype? ha f)
      refine .lift_bind (answers_asSupertype? hW ha f) ?_
      generalize ((definitions W).asSupertype? _ f : Option (List Ty)) = view at hview ⊢
      cases view with
      | none => exact .pure false
      | some args =>
        have hargs := hview.of_some
        refine .and (.allM fun p hp => ?_) (hsub _ _ (hargs.argAt _) hr)
        exact hsub _ _ (hps _ (List.fst_mem_of_mem_zipIdx hp)) (hargs.argAt _)
  · obtain ⟨htarget, hargs⟩ := Grounded.class_iff.mp hb
    exact restores_classSubtype hW hsub ha htarget hargs
  · exact .pure false

variable (hcommon : ∀ a b, Grounded W.held a → Grounded W.held b →
  Restores W p (common a b) (common' a b))
include hcommon

omit hW in
theorem restores_argsCommon (c : Option ClassDef) {ours theirs : List Ty}
    (hours : Grounded W.held ours) (htheirs : Grounded W.held theirs) :
    Restores W p (TypeEnv.argsCommon sub common c ours theirs)
      (TypeEnv.argsCommon sub' common' c ours theirs) := by
  refine .allM fun i _ => ?_
  have hours := hours.argAt i
  have htheirs := htheirs.argAt i
  simp only
  cases varianceIn c i with
  | covariant => exact hcommon _ _ hours htheirs
  | contravariant => exact .pure true
  | invariant => exact .and (hsub _ _ hours htheirs) (hsub _ _ htheirs hours)

theorem restores_commonStep {a b : Ty} (ha : Grounded W.held a) (hb : Grounded W.held b) :
    Restores W p (env.commonStep sub common a b)
      ((definitions W).commonStep sub' common' a b) := by
  have hnull : Grounded W.held env.base.nullType := .nullType Grounded.baseTypes
  unfold TypeEnv.commonStep
  split
  · exact .lift_bind (answers_expand hW ha) (hcommon _ _ (grounded_expand hW ha) hb)
  · exact .lift_bind (answers_expand hW hb) (hcommon _ _ ha (grounded_expand hW hb))
  · have hms := Grounded.union_iff.mp ha
    exact .anyM fun t ht => hcommon _ _ (hms t ht) hb
  · have hms := Grounded.union_iff.mp hb
    exact .anyM fun t ht => hcommon _ _ ha (hms t ht)
  · exact .pure true
  · exact .or (hcommon _ _ (Grounded.nullable_iff.mp ha) hb) (hsub _ _ hnull hb)
  · exact .or (hcommon _ _ (Grounded.nullable_iff.mp hb) ha) (hsub _ _ hnull ha)
  · exact hsub _ _ ha hb
  · exact hsub _ _ hb ha
  · split
    · exact hcommon _ _ (Grounded.function_iff.mp ha).2 (Grounded.function_iff.mp hb).2
    · exact .pure false
  · obtain ⟨hps, hr⟩ := Grounded.function_iff.mp ha
    exact hcommon _ _ (.functionView hps hr) hb
  · obtain ⟨hps, hr⟩ := Grounded.function_iff.mp hb
    exact hcommon _ _ ha (.functionView hps hr)
  · next c as d bs =>
    obtain ⟨hc, has⟩ := Grounded.class_iff.mp ha
    obtain ⟨hd, hbs⟩ := Grounded.class_iff.mp hb
    have hview := (answers_asSupertype? hW ha d).grounded hW (steady_asSupertype? ha d)
    refine .lift_bind (answers_asSupertype? hW ha d) ?_
    generalize ((definitions W).asSupertype? _ d : Option (List Ty)) = view at hview ⊢
    cases view with
    | some view =>
      exact .lift_bind (answers_classDef hW hd)
        (restores_argsCommon hsub hcommon _ hview.of_some hbs)
    | none =>
      have hview := (answers_asSupertype? hW hb c).grounded hW (steady_asSupertype? hb c)
      refine .lift_bind (answers_asSupertype? hW hb c) ?_
      generalize ((definitions W).asSupertype? _ c : Option (List Ty)) = view at hview ⊢
      cases view with
      | none => exact .pure false
      | some view =>
        exact .lift_bind (answers_classDef hW hc)
          (restores_argsCommon hsub hcommon _ has hview.of_some)
  · exact .pure false

end Steps

/-! ## The relations -/

theorem restores_subtypeWithin (hW : W.IsPlain) (depth : Nat) (p : Pending) {a b : Ty}
    (ha : Grounded W.held a) (hb : Grounded W.held b) :
    Restores W p (env.subtypeWithin depth a b)
      ((definitions W).subtypeUnder (n := Id) true depth p a b) := by
  rw [TypeEnv.subtypeWithin_eq]
  induction depth generalizing p a b with
  | zero =>
    rw [TypeEnv.subtypeWith, TypeEnv.subtypeUnder]
    cases subtypeShortcut a b <;> exact .pure _
  | succ depth ih =>
    rw [TypeEnv.subtypeWith, TypeEnv.subtypeUnder]
    cases subtypeShortcut a b with
    | holds => exact .pure true
    | fails => exact .pure false
    | «open» =>
      exact .whilePending _ (restores_subtypeStep hW (fun _ _ ha hb => ih _ ha hb) ha hb)

theorem restores_commonWithin (hW : W.IsPlain) (depth : Nat) (p : Pending) {a b : Ty}
    (ha : Grounded W.held a) (hb : Grounded W.held b) :
    Restores W p (env.commonWithin depth a b) ((definitions W).commonUnder depth p a b) := by
  induction depth generalizing a b with
  | zero =>
    rw [TypeEnv.commonWithin, TypeEnv.commonUnder]
    cases commonShortcut a b <;> exact .pure _
  | succ depth ih =>
    rw [TypeEnv.commonWithin, TypeEnv.commonUnder]
    cases commonShortcut a b with
    | holds => exact .pure true
    | fails => exact .pure false
    | «open» =>
      exact restores_commonStep hW (fun _ _ => restores_subtypeWithin hW depth p)
        (fun _ _ => ih) ha hb

/-- In all sessions over a store two types have a common subtype if they do by the definitions of
the store. -/
theorem answers_haveCommonSubtype (hW : W.IsPlain) {a b : Ty} (ha : Grounded W.held a)
    (hb : Grounded W.held b) :
    Answers W (env.haveCommonSubtype a b) ((definitions W).haveCommonSubtype a b) := by
  rw [TypeEnv.haveCommonSubtype_eq]
  have hrun : Answers W ((env.commonWithin TypeEnv.maxRelationDepth a b).run []) _ :=
    restores_commonWithin hW TypeEnv.maxRelationDepth [] ha hb
  rw [TypeEnv.haveCommonSubtype, StateT.run', map_eq_pure_bind]
  exact hrun.bind (.pure _)

end PklAnalysis.Session
