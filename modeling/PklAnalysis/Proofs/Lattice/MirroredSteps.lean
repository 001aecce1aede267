import PklAnalysis.Proofs.Lattice.MappedTypes

/-!
# The relations in two environments

One environment mirrors another one if a map takes the base types of the one into those of the other
and both tell the same about the classes that correspond.  The steps of the relations then do the
same on types that correspond, so both relations do at every depth: not even the pairs that are being
proved tell the two environments apart.
-/

namespace PklAnalysis

/-- A notion of what the computations of a monad answer. -/
structure Telling (m : Type → Type) [Monad m] where
  Tells : {α : Type} → m α → α → Prop
  of_pure : ∀ {α : Type} (a : α), Tells (pure a) a
  of_bind : ∀ {α β : Type} {x : m α} {f : α → m β} {a : α} {b : β},
    Tells x a → Tells (f a) b → Tells (x >>= f) b

/-- Pairs of types over other classes. -/
def Pending.mapDecls (f : DeclRef → DeclRef) (p : Pending) : Pending :=
  p.map fun e => (e.1.mapDecls f, e.2.mapDecls f)

/-- The types of all pairs are built from base types. -/
def BaseTypes.BuildsAll (b : BaseTypes) (p : Pending) : Prop :=
  ∀ e ∈ p, b.Builds e.1 ∧ b.Builds e.2

namespace Telling

variable {m : Type → Type} [Monad m] (t : Telling m)
variable (b : BaseTypes) (f : DeclRef → DeclRef) {α β γ : Type}

/-- A computation does to pairs over other classes what a pure one does to pairs that are built from
base types. -/
def Mirrors (x : StateT Pending Id α) (y : StateT Pending m α) : Prop :=
  ∀ p : Pending, b.BuildsAll p → b.BuildsAll (x.run p).2 ∧
    t.Tells (y.run (p.mapDecls f)) ((x.run p).1, (x.run p).2.mapDecls f)

namespace Mirrors

variable {t b f}

protected theorem pure (a : α) : t.Mirrors b f (Pure.pure a) (Pure.pure a) :=
  fun _ hp => ⟨hp, t.of_pure _⟩

protected theorem bind {x : StateT Pending Id α} {y : StateT Pending m α}
    {g : α → StateT Pending Id β} {h : α → StateT Pending m β} (hxy : t.Mirrors b f x y)
    (hgh : ∀ a, t.Mirrors b f (g a) (h a)) : t.Mirrors b f (x >>= g) (y >>= h) := by
  intro p hp
  obtain ⟨hp', htells⟩ := hxy p hp
  obtain ⟨hp'', htells'⟩ := hgh _ _ hp'
  exact ⟨hp'', t.of_bind htells htells'⟩

/-- What the environments answer need not be the same, as long as what follows agrees. -/
protected theorem lift {x : Id α} {y : m β} {c : β} {g : α → StateT Pending Id γ}
    {h : β → StateT Pending m γ} (hy : t.Tells y c) (hgh : t.Mirrors b f (g x) (h c)) :
    t.Mirrors b f ((monadLift x : StateT Pending Id α) >>= g)
      ((monadLift y : StateT Pending m β) >>= h) := by
  intro p hp
  obtain ⟨hp', htells⟩ := hgh p hp
  exact ⟨hp', t.of_bind (t.of_bind hy (t.of_pure _)) htells⟩

theorem and {x x' : StateT Pending Id Bool} {y y' : StateT Pending m Bool}
    (h : t.Mirrors b f x y) (h' : t.Mirrors b f x' y') :
    t.Mirrors b f (x <&&> x') (y <&&> y') := by
  refine h.bind fun c => ?_
  cases c with
  | false => exact .pure false
  | true => exact h'

theorem or {x x' : StateT Pending Id Bool} {y y' : StateT Pending m Bool}
    (h : t.Mirrors b f x y) (h' : t.Mirrors b f x' y') :
    t.Mirrors b f (x <||> x') (y <||> y') := by
  refine h.bind fun c => ?_
  cases c with
  | false => exact h'
  | true => exact .pure true

theorem allM {g : α → StateT Pending Id Bool} {h : β → StateT Pending m Bool} {r : α → β}
    {l : List α} (hgh : ∀ a ∈ l, t.Mirrors b f (g a) (h (r a))) :
    t.Mirrors b f (l.allM g) ((l.map r).allM h) := by
  induction l with
  | nil => exact .pure true
  | cons a l ih =>
    have ⟨ha, hl⟩ := List.forall_mem_cons.mp hgh
    refine ha.bind fun c => ?_
    cases c with
    | false => exact .pure false
    | true => exact ih hl

theorem anyM {g : α → StateT Pending Id Bool} {h : β → StateT Pending m Bool} {r : α → β}
    {l : List α} (hgh : ∀ a ∈ l, t.Mirrors b f (g a) (h (r a))) :
    t.Mirrors b f (l.anyM g) ((l.map r).anyM h) := by
  induction l with
  | nil => exact .pure false
  | cons a l ih =>
    have ⟨ha, hl⟩ := List.forall_mem_cons.mp hgh
    refine ha.bind fun c => ?_
    cases c with
    | false => exact ih hl
    | true => exact .pure true

theorem allM_same {g : α → StateT Pending Id Bool} {h : α → StateT Pending m Bool} {l : List α}
    (hgh : ∀ a, t.Mirrors b f (g a) (h a)) : t.Mirrors b f (l.allM g) (l.allM h) := by
  have hall := allM (r := id) (l := l) fun a _ => hgh a
  rwa [List.map_id] at hall

theorem get_bind {g : Pending → StateT Pending Id α} {h : Pending → StateT Pending m α}
    (hgh : ∀ p, b.BuildsAll p → t.Mirrors b f (g p) (h (p.mapDecls f))) :
    t.Mirrors b f (get >>= g) (get >>= h) := by
  intro p hp
  obtain ⟨hp', htells⟩ := hgh p hp p hp
  exact ⟨hp', t.of_bind (t.of_pure _) htells⟩

theorem modify {g h : Pending → Pending}
    (hgh : ∀ p, b.BuildsAll p → b.BuildsAll (g p) ∧ h (p.mapDecls f) = (g p).mapDecls f) :
    t.Mirrors b f (modify g) (modify h) := by
  intro p hp
  obtain ⟨hg, heq⟩ := hgh p hp
  refine ⟨hg, ?_⟩
  change t.Tells (Pure.pure (PUnit.unit, h (p.mapDecls f))) (PUnit.unit, (g p).mapDecls f)
  rw [heq]
  exact t.of_pure _

end Mirrors

end Telling

namespace BaseTypes.MapsTo

variable {b b' : BaseTypes} {f : DeclRef → DeclRef} (h : b.MapsTo f b') {p : Pending} {s t : Ty}
include h

theorem pair_inj (hs : b.Builds s) (ht : b.Builds t) {e : Ty × Ty}
    (he : b.Builds e.1 ∧ b.Builds e.2) :
    (e.1.mapDecls f, e.2.mapDecls f) = (s.mapDecls f, t.mapDecls f) ↔ e = (s, t) := by
  rw [Prod.mk.injEq, h.mapDecls_inj he.1 hs, h.mapDecls_inj he.2 ht, Prod.ext_iff]

theorem contains_mapDecls (hs : b.Builds s) (ht : b.Builds t) (hp : b.BuildsAll p) :
    (p.mapDecls f).contains (s.mapDecls f, t.mapDecls f) = p.contains (s, t) := by
  rw [Bool.eq_iff_iff, List.contains_iff_mem, List.contains_iff_mem, Pending.mapDecls,
    List.mem_map]
  constructor
  · rintro ⟨e, he, heq⟩
    rwa [← (h.pair_inj hs ht (hp e he)).mp heq]
  · exact fun he => ⟨_, he, rfl⟩

theorem erase_mapDecls (hs : b.Builds s) (ht : b.Builds t) (hp : b.BuildsAll p) :
    (p.mapDecls f).erase (s.mapDecls f, t.mapDecls f) = Pending.mapDecls f (p.erase (s, t)) := by
  induction p with
  | nil => rfl
  | cons e p ih =>
    have ⟨he, hp⟩ := List.forall_mem_cons.mp hp
    have hinj := h.pair_inj hs ht he
    rw [Pending.mapDecls, List.map_cons, List.erase_cons, List.erase_cons]
    simp only [beq_iff_eq, hinj]
    split
    · rfl
    · exact congrArg _ (ih hp)

end BaseTypes.MapsTo

/-- What two environments have to agree about. -/
structure TypeEnv.IsMirrored {m : Type → Type} [Monad m] (env : TypeEnv Id) (t : Telling m)
    (f : DeclRef → DeclRef) (env' : TypeEnv m) : Prop where
  base : env.base.MapsTo f env'.base
  view : ∀ {a target}, env.base.Builds a → target ∈ env.base.decls →
    (∀ v, env.asSupertype? a target = some v → ∀ x ∈ v, env.base.Builds x) ∧
      t.Tells (env'.asSupertype? (a.mapDecls f) (f target))
        ((env.asSupertype? a target : Option (List Ty)).map fun v => v.map (Ty.mapDecls f))
  variance : ∀ d ∈ env.base.decls, ∃ c', t.Tells (env'.classDef (f d)) c' ∧
    ∀ i, varianceIn c' i = varianceIn (env.classDef d) i

/-! ## The rules for types without aliases -/

/-- A type that is neither an alternative of others nor a type alias. -/
def Ty.isSingle : Ty → Bool
  | .nullable _ | .union _ | .typeAlias .. | .param _ => false
  | _ => true

/-- What a type without aliases and parameters can be. -/
theorem Ty.BuiltFrom.shape {P : DeclRef → Prop} {t : Ty} (h : BuiltFrom P t) :
    (∃ ms, t = .union ms ∧ ∀ u ∈ ms, BuiltFrom P u) ∨ (∃ u, t = .nullable u ∧ BuiltFrom P u) ∨
      t.isSingle := by
  cases h with
  | union hms => exact .inl ⟨_, rfl, hms⟩
  | nullable ht => exact .inr (.inl ⟨_, rfl, ht⟩)
  | _ => exact .inr (.inr rfl)

theorem Ty.isSingle_mapDecls (f : DeclRef → DeclRef) (t : Ty) :
    (t.mapDecls f).isSingle = t.isSingle := by
  cases t <;> rfl

namespace TypeEnv

variable {m : Type → Type} [Monad m] {n : Type → Type} [Monad n] [MonadLiftT m n]
variable (env : TypeEnv m) (sub common : Ty → Ty → n Bool) {P : DeclRef → Prop} {a b : Ty}

theorem subtypeStep_union (ms : List Ty) (hb : b.BuiltFrom P) :
    env.subtypeStep sub (.union ms) b = ms.allM fun t => sub t b := by
  cases hb <;> rfl

theorem subtypeStep_nullable (t : Ty) (hb : b.BuiltFrom P) :
    env.subtypeStep sub (.nullable t) b = (sub t b <&&> sub env.base.nullType b) := by
  cases hb <;> rfl

theorem subtypeStep_of_union (ha : a.isSingle) (ms : List Ty) :
    env.subtypeStep sub a (.union ms) = ms.anyM fun t => sub a t := by
  cases a <;> first | rfl | cases ha

theorem subtypeStep_of_nullable (ha : a.isSingle) (t : Ty) :
    env.subtypeStep sub a (.nullable t) = if env.base.isNull a then pure true else sub a t := by
  cases a <;> first | rfl | cases ha

theorem commonStep_union (ms : List Ty) (hb : b.BuiltFrom P) :
    env.commonStep sub common (.union ms) b = ms.anyM fun t => common t b := by
  cases hb <;> rfl

theorem commonStep_of_union (ha : a.BuiltFrom P) (hsingle : ∀ ms, a ≠ .union ms) (ms : List Ty) :
    env.commonStep sub common a (.union ms) = ms.anyM fun t => common a t := by
  cases ha <;> first | rfl | exact absurd rfl (hsingle _)

theorem commonStep_nullable (t : Ty) (hb : b.isSingle) :
    env.commonStep sub common (.nullable t) b = (common t b <||> sub env.base.nullType b) := by
  cases b <;> first | rfl | cases hb

theorem commonStep_of_nullable (ha : a.isSingle) (t : Ty) :
    env.commonStep sub common a (.nullable t) = (common t a <||> sub env.base.nullType a) := by
  cases a <;> first | rfl | cases ha

end TypeEnv

namespace TypeEnv.IsMirrored

variable {m : Type → Type} [Monad m] {t : Telling m} {f : DeclRef → DeclRef}
variable {env : TypeEnv Id} {env' : TypeEnv m} (h : env.IsMirrored t f env')

section Steps

variable {sub common : Ty → Ty → StateT Pending Id Bool}
variable {sub' common' : Ty → Ty → StateT Pending m Bool}
variable (hsub : ∀ {a b : Ty}, env.base.Builds a → env.base.Builds b →
  t.Mirrors env.base f (sub a b) (sub' (a.mapDecls f) (b.mapDecls f)))
include hsub

omit h in
theorem mirrors_argsSubtype {c c' : Option ClassDef}
    (hc : ∀ i, varianceIn c' i = varianceIn c i) {ours theirs : List Ty}
    (hours : ∀ a ∈ ours, env.base.Builds a) (htheirs : ∀ a ∈ theirs, env.base.Builds a) :
    t.Mirrors env.base f (argsSubtype sub c ours theirs)
      (argsSubtype sub' c' (ours.map (Ty.mapDecls f)) (theirs.map (Ty.mapDecls f))) := by
  rw [argsSubtype, argsSubtype, List.length_map, List.length_map]
  refine .allM_same fun i => ?_
  have hours := Ty.BuiltFrom.argAt hours i
  have htheirs := Ty.BuiltFrom.argAt htheirs i
  simp only [← Ty.mapDecls_argAt, hc]
  cases varianceIn c i with
  | covariant => exact hsub hours htheirs
  | contravariant => exact hsub htheirs hours
  | invariant => exact .and (hsub hours htheirs) (hsub htheirs hours)

include h

theorem mirrors_classSubtype {a : Ty} (ha : env.base.Builds a) {target : DeclRef}
    (htarget : target ∈ env.base.decls) {args : List Ty} (hargs : ∀ x ∈ args, env.base.Builds x) :
    t.Mirrors env.base f (env.classSubtype sub a target args)
      (env'.classSubtype sub' (a.mapDecls f) (f target) (args.map (Ty.mapDecls f))) := by
  obtain ⟨hbuilt, hview⟩ := h.view ha htarget
  obtain ⟨c', hclass, hvariance⟩ := h.variance target htarget
  refine .lift hview ?_
  cases hv : (env.asSupertype? a target : Option (List Ty)) with
  | none => exact .pure false
  | some v => exact .lift hclass (mirrors_argsSubtype hsub hvariance (hbuilt v hv) hargs)

/-- The rules for two types that are neither unions nor nullable. -/
theorem mirrors_subtypeStep_single {a b : Ty} (ha : env.base.Builds a) (hb : env.base.Builds b)
    (hasingle : a.isSingle) (hbsingle : b.isSingle) :
    t.Mirrors env.base f (env.subtypeStep sub a b)
      (env'.subtypeStep sub' (a.mapDecls f) (b.mapDecls f)) := by
  have hstring : env.base.Builds env.base.stringType := BaseTypes.builds_plain (by simp)
  have hliteral := h.base.mapDecls_stringType ▸ hsub hstring hb
  have hbuilt := hb
  cases ha with
  | union | nullable => cases hasingle
  | unknown => cases hb <;> first | exact .pure false | cases hbsingle
  | nothing => cases hb <;> first | exact .pure false | cases hbsingle
  | literal =>
    cases hb with
    | union | nullable => cases hbsingle
    | literal => exact .pure false
    | _ => exact hliteral
  | function hps hr =>
    cases hb with
    | union | nullable => cases hbsingle
    | unknown | nothing | literal => exact .pure false
    | «class» hd hargs =>
      have hview := hsub (BaseTypes.builds_functionView hps hr) hbuilt
      rw [h.base.mapDecls_functionView] at hview
      simp only [Ty.mapDecls_function, Ty.mapDecls_class, subtypeStep] at hview ⊢
      exact hview
    | function hqs hs =>
      simp only [Ty.mapDecls_function, subtypeStep, List.length_map]
      split
      · refine .and ?_ (hsub hr hs)
        rw [List.zip_map]
        refine .allM fun e he => ?_
        obtain ⟨hp, hq⟩ := List.of_mem_zip he
        exact hsub (hqs _ hq) (hps _ hp)
      · exact .pure false
  | @«class» d args hd hargs =>
    cases hb with
    | union | nullable => cases hbsingle
    | unknown | nothing | literal => exact .pure false
    | «class» he hargs' =>
      have hclass := h.mirrors_classSubtype hsub (.class hd hargs) he hargs'
      simpa only [Ty.mapDecls_class, subtypeStep] using hclass
    | @function ps r hps hr =>
      simp only [Ty.mapDecls_function, Ty.mapDecls_class, subtypeStep, List.length_map,
        h.base.functions_getElem?]
      cases hf : env.base.functions[ps.length]? with
      | none => exact .pure false
      | some e =>
        obtain ⟨hbuilt, hview⟩ := h.view (.class hd hargs) (BaseTypes.mem_decls_of_functions hf)
        rw [Ty.mapDecls_class] at hview
        refine .lift hview ?_
        cases hv : (env.asSupertype? (.class d args) e : Option (List Ty)) with
        | none => exact .pure false
        | some v =>
          have harg (i : Nat) := Ty.BuiltFrom.argAt (hbuilt v hv) i
          refine .and ?_ ?_
          · rw [List.zipIdx_map]
            refine .allM fun e he => ?_
            have hstep := hsub (hps _ (List.fst_mem_of_mem_zipIdx he)) (harg e.2)
            rwa [Ty.mapDecls_argAt] at hstep
          · rw [← Ty.mapDecls_argAt]
            exact hsub (harg _) hr

theorem mirrors_subtypeStep {a b : Ty} (ha : env.base.Builds a) (hb : env.base.Builds b) :
    t.Mirrors env.base f (env.subtypeStep sub a b)
      (env'.subtypeStep sub' (a.mapDecls f) (b.mapDecls f)) := by
  have hnull : env.base.Builds env.base.nullType := BaseTypes.builds_plain (by simp)
  have hb' : (b.mapDecls f).BuiltFrom fun _ => True := Ty.builtFrom_mapDecls (fun _ _ => trivial) hb
  obtain ⟨ms, rfl, hms⟩ | ⟨u, rfl, hu⟩ | hasingle := ha.shape
  · rw [Ty.mapDecls_union, subtypeStep_union _ _ _ hb, subtypeStep_union _ _ _ hb']
    exact .allM fun x hx => hsub (hms x hx) hb
  · rw [Ty.mapDecls, subtypeStep_nullable _ _ _ hb, subtypeStep_nullable _ _ _ hb',
      ← h.base.mapDecls_nullType]
    exact .and (hsub hu hb) (hsub hnull hb)
  have hasingle' := (Ty.isSingle_mapDecls f a).trans hasingle
  obtain ⟨ms, rfl, hms⟩ | ⟨u, rfl, hu⟩ | hbsingle := hb.shape
  · rw [Ty.mapDecls_union, subtypeStep_of_union _ _ hasingle, subtypeStep_of_union _ _ hasingle']
    exact .anyM fun x hx => hsub ha (hms x hx)
  · rw [Ty.mapDecls, subtypeStep_of_nullable _ _ hasingle, subtypeStep_of_nullable _ _ hasingle',
      h.base.isNull_mapDecls ha]
    split
    · exact .pure true
    · exact hsub ha hu
  · exact h.mirrors_subtypeStep_single hsub ha hb hasingle hbsingle

section Common

variable (hcommon : ∀ {a b : Ty}, env.base.Builds a → env.base.Builds b →
  t.Mirrors env.base f (common a b) (common' (a.mapDecls f) (b.mapDecls f)))
include hcommon

omit h in
theorem mirrors_argsCommon {c c' : Option ClassDef}
    (hc : ∀ i, varianceIn c' i = varianceIn c i) {ours theirs : List Ty}
    (hours : ∀ a ∈ ours, env.base.Builds a) (htheirs : ∀ a ∈ theirs, env.base.Builds a) :
    t.Mirrors env.base f (argsCommon sub common c ours theirs)
      (argsCommon sub' common' c' (ours.map (Ty.mapDecls f)) (theirs.map (Ty.mapDecls f))) := by
  rw [argsCommon, argsCommon, List.length_map, List.length_map]
  refine .allM_same fun i => ?_
  have hours := Ty.BuiltFrom.argAt hours i
  have htheirs := Ty.BuiltFrom.argAt htheirs i
  simp only [← Ty.mapDecls_argAt, hc]
  cases varianceIn c i with
  | covariant => exact hcommon hours htheirs
  | contravariant => exact .pure true
  | invariant => exact .and (hsub hours htheirs) (hsub htheirs hours)

/-- The rule for two classes. -/
theorem mirrors_commonStep_class {c d : DeclRef} {cs ds : List Ty}
    (hc : env.base.Builds (.class c cs)) (hd : env.base.Builds (.class d ds)) :
    t.Mirrors env.base f (env.commonStep sub common (.class c cs) (.class d ds))
      (env'.commonStep sub' common' ((Ty.class c cs).mapDecls f) ((Ty.class d ds).mapDecls f)) := by
  cases hc with
  | «class» hcdecl hcs =>
  cases hd with
  | «class» hddecl hds =>
  obtain ⟨hup, hview⟩ := h.view (.class hcdecl hcs) hddecl
  obtain ⟨hup', hview'⟩ := h.view (.class hddecl hds) hcdecl
  obtain ⟨_, hclass, hvariance⟩ := h.variance d hddecl
  obtain ⟨_, hclass', hvariance'⟩ := h.variance c hcdecl
  simp only [Ty.mapDecls_class, commonStep] at hview hview' ⊢
  refine .lift hview ?_
  cases hv : (env.asSupertype? (.class c cs) d : Option (List Ty)) with
  | some v => exact .lift hclass (mirrors_argsCommon hsub hcommon hvariance (hup v hv) hds)
  | none =>
    refine .lift hview' ?_
    cases hw : (env.asSupertype? (.class d ds) c : Option (List Ty)) with
    | none => exact .pure false
    | some w => exact .lift hclass' (mirrors_argsCommon hsub hcommon hvariance' hcs (hup' w hw))

/-- The rules for two types that are neither unions nor nullable. -/
theorem mirrors_commonStep_single {a b : Ty} (ha : env.base.Builds a) (hb : env.base.Builds b)
    (hasingle : a.isSingle) (hbsingle : b.isSingle) :
    t.Mirrors env.base f (env.commonStep sub common a b)
      (env'.commonStep sub' common' (a.mapDecls f) (b.mapDecls f)) := by
  have hbuilt := ha
  have hbuilt' := hb
  cases ha with
  | union | nullable => cases hasingle
  | unknown => cases hb <;> first | exact .pure false | exact hsub hbuilt' hbuilt | cases hbsingle
  | nothing => cases hb <;> first | exact .pure false | exact hsub hbuilt' hbuilt | cases hbsingle
  | literal => cases hb <;> first | exact hsub hbuilt hbuilt' | cases hbsingle
  | function hps hr =>
    have hview := BaseTypes.builds_functionView hps hr
    cases hb with
    | union | nullable => cases hbsingle
    | unknown | nothing => exact .pure false
    | literal => exact hsub hbuilt' hbuilt
    | «class» hd hargs =>
      have hcommon := hcommon hview hbuilt'
      rw [h.base.mapDecls_functionView] at hcommon
      simpa only [Ty.mapDecls_function, Ty.mapDecls_class, commonStep] using hcommon
    | function hqs hs =>
      simp only [Ty.mapDecls_function, commonStep, List.length_map]
      split
      · exact hcommon hr hs
      · exact .pure false
  | «class» hd hargs =>
    cases hb with
    | union | nullable => cases hbsingle
    | unknown | nothing => exact .pure false
    | literal => exact hsub hbuilt' hbuilt
    | «class» => exact h.mirrors_commonStep_class hsub hcommon hbuilt hbuilt'
    | function hps hr =>
      have hcommon := hcommon hbuilt (BaseTypes.builds_functionView hps hr)
      rw [h.base.mapDecls_functionView] at hcommon
      simpa only [Ty.mapDecls_function, Ty.mapDecls_class, commonStep] using hcommon

theorem mirrors_commonStep {a b : Ty} (ha : env.base.Builds a) (hb : env.base.Builds b) :
    t.Mirrors env.base f (env.commonStep sub common a b)
      (env'.commonStep sub' common' (a.mapDecls f) (b.mapDecls f)) := by
  have hnull : env.base.Builds env.base.nullType := BaseTypes.builds_plain (by simp)
  have ha' : (a.mapDecls f).BuiltFrom fun _ => True := Ty.builtFrom_mapDecls (fun _ _ => trivial) ha
  have hb' : (b.mapDecls f).BuiltFrom fun _ => True := Ty.builtFrom_mapDecls (fun _ _ => trivial) hb
  obtain ⟨ms, rfl, hms⟩ | ⟨u, rfl, hu⟩ | hasingle := ha.shape
  · rw [Ty.mapDecls_union, commonStep_union _ _ _ _ hb, commonStep_union _ _ _ _ hb']
    exact .anyM fun x hx => hcommon (hms x hx) hb
  · obtain ⟨ns, rfl, hns⟩ | ⟨v, rfl, hv⟩ | hbsingle := hb.shape
    · rw [Ty.mapDecls_union, commonStep_of_union _ _ _ ha (by simp),
        commonStep_of_union _ _ _ ha' (by simp [Ty.mapDecls])]
      exact .anyM fun x hx => hcommon ha (hns x hx)
    · exact .pure true
    · rw [Ty.mapDecls, commonStep_nullable _ _ _ _ hbsingle,
        commonStep_nullable _ _ _ _ ((Ty.isSingle_mapDecls f b).trans hbsingle),
        ← h.base.mapDecls_nullType]
      exact .or (hcommon hu hb) (hsub hnull hb)
  have hunion (ms : List Ty) : a ≠ .union ms := by
    rintro rfl
    cases hasingle
  have hasingle' := (Ty.isSingle_mapDecls f a).trans hasingle
  have hunion' (ms : List Ty) : a.mapDecls f ≠ .union ms := by
    intro hms
    rw [hms] at hasingle'
    cases hasingle'
  obtain ⟨ns, rfl, hns⟩ | ⟨v, rfl, hv⟩ | hbsingle := hb.shape
  · rw [Ty.mapDecls_union, commonStep_of_union _ _ _ ha hunion,
      commonStep_of_union _ _ _ ha' hunion']
    exact .anyM fun x hx => hcommon ha (hns x hx)
  · rw [Ty.mapDecls, commonStep_of_nullable _ _ _ hasingle,
      commonStep_of_nullable _ _ _ hasingle', ← h.base.mapDecls_nullType]
    exact .or (hcommon hv ha) (hsub hnull ha)
  · exact h.mirrors_commonStep_single hsub hcommon ha hb hasingle hbsingle

end Common

end Steps

/-! ## The relations -/

include h

theorem mirrors_subtypeWithin (depth : Nat) {a b : Ty} (ha : env.base.Builds a)
    (hb : env.base.Builds b) : t.Mirrors env.base f (env.subtypeWithin depth a b)
      (env'.subtypeWithin depth (a.mapDecls f) (b.mapDecls f)) := by
  induction depth generalizing a b with
  | zero =>
    unfold subtypeWithin
    rw [h.base.subtypeShortcut_mapDecls ha hb]
    cases subtypeShortcut a b <;> exact .pure _
  | succ depth ih =>
    unfold subtypeWithin
    rw [h.base.subtypeShortcut_mapDecls ha hb]
    cases subtypeShortcut a b with
    | holds => exact .pure true
    | fails => exact .pure false
    | «open» =>
      have hpair {p : Pending} (hp : env.base.BuildsAll p) : env.base.BuildsAll ((a, b) :: p) :=
        List.forall_mem_cons.mpr ⟨⟨ha, hb⟩, hp⟩
      refine .get_bind fun p hp => ?_
      rw [h.base.contains_mapDecls ha hb hp]
      split
      · exact .pure true
      · refine .bind (.modify fun q hq => ⟨hpair hq, rfl⟩) fun _ => ?_
        refine .bind (h.mirrors_subtypeStep ih ha hb) fun answer => ?_
        refine .bind (.modify fun q hq => ⟨fun e he => hq e (List.mem_of_mem_erase he), ?_⟩)
          fun _ => .pure answer
        exact h.base.erase_mapDecls ha hb hq

theorem mirrors_commonWithin (depth : Nat) {a b : Ty} (ha : env.base.Builds a)
    (hb : env.base.Builds b) : t.Mirrors env.base f (env.commonWithin depth a b)
      (env'.commonWithin depth (a.mapDecls f) (b.mapDecls f)) := by
  induction depth generalizing a b with
  | zero =>
    unfold commonWithin
    rw [h.base.commonShortcut_mapDecls ha hb]
    cases commonShortcut a b <;> exact .pure _
  | succ depth ih =>
    unfold commonWithin
    rw [h.base.commonShortcut_mapDecls ha hb]
    cases commonShortcut a b with
    | holds => exact .pure true
    | fails => exact .pure false
    | «open» => exact h.mirrors_commonStep (h.mirrors_subtypeWithin depth) ih ha hb

variable [LawfulMonad m]

/-- The other environment tells the same about subtypes. -/
theorem tells_isSubtype {a b : Ty} (ha : env.base.Builds a) (hb : env.base.Builds b) :
    t.Tells (env'.isSubtype (a.mapDecls f) (b.mapDecls f)) (env.isSubtype a b) := by
  obtain ⟨-, htells⟩ := h.mirrors_subtypeWithin maxRelationDepth ha hb [] (List.forall_mem_nil _)
  rw [isSubtype, StateT.run', map_eq_pure_bind]
  exact t.of_bind htells (t.of_pure _)

/-- The other environment tells the same about common subtypes. -/
theorem tells_haveCommonSubtype {a b : Ty} (ha : env.base.Builds a) (hb : env.base.Builds b) :
    t.Tells (env'.haveCommonSubtype (a.mapDecls f) (b.mapDecls f)) (env.haveCommonSubtype a b) := by
  obtain ⟨-, htells⟩ := h.mirrors_commonWithin maxRelationDepth ha hb [] (List.forall_mem_nil _)
  rw [haveCommonSubtype, StateT.run', map_eq_pure_bind]
  exact t.of_bind htells (t.of_pure _)

end TypeEnv.IsMirrored

end PklAnalysis
