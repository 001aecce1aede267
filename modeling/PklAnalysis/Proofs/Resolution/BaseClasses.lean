import PklAnalysis.Proofs.Lattice.Hierarchies
import PklAnalysis.Proofs.Lattice.MirroredSteps
import PklAnalysis.Proofs.Lattice.Unfolding
import PklAnalysis.Proofs.Resolution.SteadyClasses

/-!
# The base classes in a table and in the base module

The base classes are entered in a table by hand, and they are declared in the base module, whose
annotations are read when a session is asked about them.  Both say the same: classes of the same
name have parameters that vary alike and hand the same parameters on to superclasses of the same
name.  So both answer the same about the types that are built from them, whatever else the store
of the session holds.
-/

namespace PklAnalysis

open TypeTable

namespace BaseModule

/-! ## The declarations side by side -/

/-- The declaration of the base module with the same name. -/
def counterpart (d : DeclRef) : DeclRef := decl d.name

/-- The type parameter that an annotation is. -/
def ownParam? (t : Tree) (n : Nat) : TypeExpr → Option Ty
  | .named name [] => Session.typeParam? t n name
  | _ => none

/-- The type of a name that a module declares itself, with type parameters for its arguments. -/
def ownType? (t : Tree) (n : Nat) : TypeExpr → Option Ty
  | .named name args =>
    if args.isEmpty && (Session.typeParam? t n name).isSome || (Text.cut? '.' name).isSome then none
    else (args.mapM (ownParam? t n)).bind (Session.typeIn? t name)
  | _ => none

/-- The superclass of a class of the base module. -/
def superclass? (d : DeclRef) (h : ClassHeader) : Option Ty :=
  match h.superclass with
  | some a => ownType? tree d.site.node a
  | none => if h.name = "Any" then none else some types.anyType

/-- The number of the parameter of a class that a type is. -/
def indexOf? (owner : Site) : Ty → Option Nat
  | .param p => if p.owner = owner then some p.index else none
  | _ => none

/-- The class and the arguments of a superclass, each argument a parameter of the class. -/
def handed? (owner : Site) : Ty → Option (DeclRef × List Nat)
  | .class d args => (args.mapM (indexOf? owner)).map fun indices => (d, indices)
  | _ => none

/-- Two superclasses hand on the same parameters, the first one to a class with a lower number. -/
def areAlikeAbove (d : DeclRef) : Option Ty → Option Ty → Bool
  | none, none => true
  | some s, some s' =>
    match handed? d.site s with
    | some (e, indices) => e ∈ baseTypes.decls && e.site.node < d.site.node &&
      handed? (counterpart d).site s' = some (counterpart e, indices)
    | none => false
  | _, _ => false

/-- A base class and its counterpart are declared alike. -/
def areAlike (d : DeclRef) : Bool :=
  match baseClass? d, tree.kind? (counterpart d).site.node with
  | some c, some (.class h) =>
    c.decl.site = d.site && c.typeParams.map (·.variance) = h.typeParams.map (·.variance)
      && (h.superclass.all fun a => (ownType? tree (counterpart d).site.node a).isSome)
      && areAlikeAbove d c.superclass (superclass? (counterpart d) h)
  | _, _ => false

theorem areAlike_base : ∀ d ∈ baseTypes.decls, areAlike d = true := by
  decide +kernel

theorem nodup_sites : (baseTypes.decls.map fun d => d.site).Nodup := by decide

theorem nodup_counterparts : (baseTypes.decls.map fun d => (counterpart d).site).Nodup := by
  decide +kernel

theorem functions_counterparts : baseTypes.functions.map counterpart = types.functions := rfl

theorem counterpart_inj {d e : DeclRef} (hd : d ∈ baseTypes.decls) (he : e ∈ baseTypes.decls)
    (h : (counterpart d).site = (counterpart e).site) : d = e :=
  List.inj_on_of_nodup_map nodup_counterparts hd he h

theorem counterpart_site_iff {d e : DeclRef} (hd : d ∈ baseTypes.decls)
    (he : e ∈ baseTypes.decls) : (counterpart d).site = (counterpart e).site ↔ d.site = e.site :=
  ⟨fun h => congrArg DeclRef.site (counterpart_inj hd he h),
    fun h => by rw [List.inj_on_of_nodup_map nodup_sites hd he h]⟩

theorem counterpart_null : counterpart baseTypes.null = types.null :=
  congrArg decl (rfl : baseTypes.null.name = "Null")

/-- The base types of a table are those of the base module, name by name. -/
theorem mapsTo_counterpart : baseTypes.MapsTo counterpart types where
  inj _ _ hd he h := counterpart_inj hd he (congrArg DeclRef.site h)
  null := counterpart_null
  string := congrArg decl (rfl : baseTypes.string.name = "String")
  function := congrArg decl (rfl : baseTypes.function.name = "Function")
  functions := functions_counterparts
  nullSite d hd := by
    rw [← counterpart_null]
    exact counterpart_site_iff hd (by simp)

theorem mapM_cons_eq_some {α β : Type} {f : α → Option β} {a : α} {as : List α} {bs : List β}
    (h : (a :: as).mapM f = some bs) :
    ∃ b bs', f a = some b ∧ as.mapM f = some bs' ∧ bs = b :: bs' := by
  rw [List.mapM_cons] at h
  obtain ⟨b, hb, h⟩ := Option.bind_eq_some_iff.mp h
  obtain ⟨bs', hbs', h⟩ := Option.bind_eq_some_iff.mp h
  exact ⟨b, bs', hb, hbs', (Option.some.inj h).symm⟩

/-- A parameter of the class is replaced by the argument in its place. -/
theorem substitute_of_indexOf? {owner : Site} {t : Ty} {i : Nat} (h : indexOf? owner t = some i)
    (base : BaseTypes) (given : List Ty) : t.substitute base owner given = argAt given i := by
  cases t with
  | param p =>
    rw [indexOf?] at h
    split at h
    next howner =>
      cases h
      rw [Ty.substitute, if_pos howner]
      rfl
    · cases h
  | _ => cases h

/-- A superclass is given the arguments for the parameters that are handed on to it. -/
theorem substitute_of_handed? {owner : Site} {s : Ty} {d : DeclRef} {indices : List Nat}
    (h : handed? owner s = some (d, indices)) (base : BaseTypes) (given : List Ty) :
    s.substitute base owner given = .class d (indices.map (argAt given)) := by
  cases s with
  | «class» e args =>
    obtain ⟨is, his, heq⟩ := Option.map_eq_some_iff.mp h
    cases heq
    rw [Ty.substitute, Ty.substituteAll_eq_map]
    refine congrArg _ ?_
    clear h
    induction args generalizing indices with
    | nil =>
      cases his
      rfl
    | cons a args ih =>
      obtain ⟨i, is', hi, his', rfl⟩ := mapM_cons_eq_some his
      rw [List.map_cons, List.map_cons, substitute_of_indexOf? hi, ih his']
  | _ => cases h

end BaseModule

namespace Session

/-! ## What a session finds in the base module -/

theorem namedType_own {t : Tree} {name : String} {args : List Ty} {type : Ty}
    (hdot : Text.cut? '.' name = none) (htype : typeIn? t name args = some type) (s : Session) :
    namedType t name args s = (type, s) := by
  simp only [namedType, hdot, simpleType?, htype]
  rfl

theorem resolveType_ownParam {t : Tree} {n : Nat} {a : TypeExpr} {type : Ty}
    (h : BaseModule.ownParam? t n a = some type) (s : Session) :
    resolveType t n a s = (type, s) := by
  unfold BaseModule.ownParam? at h
  split at h
  · rw [resolveType, List.isEmpty_nil, if_pos rfl, h]
    rfl
  · cases h

theorem resolveTypes_ownParams {t : Tree} {n : Nat} {as : List TypeExpr} {types : List Ty}
    (h : as.mapM (BaseModule.ownParam? t n) = some types) (s : Session) :
    resolveTypes t n as s = (types, s) := by
  induction as generalizing types with
  | nil =>
    cases h
    rw [resolveTypes]
    rfl
  | cons a as ih =>
    obtain ⟨type, types', htype, htypes, rfl⟩ := BaseModule.mapM_cons_eq_some h
    rw [resolveTypes, bind_apply, resolveType_ownParam htype, bind_apply, ih htypes]
    rfl

theorem resolveType_own {t : Tree} {n : Nat} {a : TypeExpr} {type : Ty}
    (h : BaseModule.ownType? t n a = some type) (s : Session) :
    resolveType t n a s = (type, s) := by
  unfold BaseModule.ownType? at h
  split at h
  next name args =>
    split at h
    · cases h
    next hname =>
      obtain ⟨params, hparams, htype⟩ := Option.bind_eq_some_iff.mp h
      simp only [Bool.or_eq_true, Bool.and_eq_true, not_or, Option.not_isSome_iff_eq_none,
        not_and] at hname
      have hparam : (if args.isEmpty then typeParam? t n name else none) = none := by
        split
        next hempty => exact hname.1 hempty
        · rfl
      rw [resolveType, hparam]
      change (resolveTypes t n args >>= fun types => namedType t name types) s = _
      rw [bind_apply, resolveTypes_ownParams hparams]
      exact namedType_own hname.2 htype s
  · cases h

theorem superclassOf_base {d : DeclRef} {h : ClassHeader}
    (hread : h.superclass.all fun a =>
      (BaseModule.ownType? BaseModule.tree d.site.node a).isSome) (s : Session) :
    superclassOf BaseModule.tree d.site.node h s = (BaseModule.superclass? d h, s) := by
  unfold superclassOf BaseModule.superclass?
  cases ha : h.superclass with
  | some a =>
    rw [ha] at hread
    obtain ⟨type, htype⟩ := Option.isSome_iff_exists.mp hread
    change (some <$> resolveType BaseModule.tree d.site.node a) s = _
    rw [map_eq_pure_bind, bind_apply, resolveType_own htype]
    simp only [htype]
    rfl
  | none =>
    simp only [if_pos (show BaseModule.tree.id = BaseModule.id from rfl)]
    rfl

/-- What a node of the base module is defined as, in every session. -/
def IsBaseDef (d : DeclRef) (c : Option ClassDef) : Prop :=
  ∀ s, classAt? BaseModule.tree d s = (c, s)

/-- A session remembers of the classes of the base module only what they are defined as. -/
def KnowsBase (s : Session) : Prop :=
  ∀ d ∈ baseTypes.decls, ∀ c, s.classes.get? (BaseModule.counterpart d).site = some c →
    IsBaseDef (BaseModule.counterpart d) c

theorem knowsBase_new (W : Store) : KnowsBase (new W) := fun _ _ _ h => nomatch h

/-- What a query answers in every session that remembers the base classes as they are. -/
def baseTelling : Telling Query where
  Tells q a := ∀ s, KnowsBase s → (q s).1 = a ∧ KnowsBase (q s).2
  of_pure _ _ hs := ⟨rfl, hs⟩
  of_bind hq hf s hs := by
    obtain ⟨rfl, hs'⟩ := hq s hs
    exact hf _ hs'

/-- A base class is defined in the base module as it is in the table. -/
theorem exists_isBaseDef {d : DeclRef} (hd : d ∈ baseTypes.decls) :
    ∃ c c', baseClass? d = some c ∧ IsBaseDef (BaseModule.counterpart d) (some c') ∧
      c.decl.site = d.site ∧ c'.decl = BaseModule.counterpart d ∧
      c.typeParams.map (·.variance) = c'.typeParams.map (·.variance) ∧
      BaseModule.areAlikeAbove d c.superclass c'.superclass := by
  have hlike := BaseModule.areAlike_base d hd
  unfold BaseModule.areAlike at hlike
  split at hlike
  next c h hc hkind =>
    simp only [Bool.and_eq_true, decide_eq_true_eq] at hlike
    obtain ⟨⟨⟨hsite, hvariance⟩, hread⟩, habove⟩ := hlike
    let c' : ClassDef := {
      decl := BaseModule.counterpart d
      typeParams := h.typeParams
      superclass := BaseModule.superclass? (BaseModule.counterpart d) h
      isAbstract := h.modifiers.isAbstract
      isOpen := h.modifiers.isOpen || h.modifiers.isAbstract
      isModule := false
      members := membersOf BaseModule.tree (BaseModule.counterpart d).site.node
        (BaseModule.counterpart d) }
    refine ⟨c, c', hc, fun s => ?_, hsite, rfl, hvariance, habove⟩
    simp only [classAt?, hkind]
    rw [bind_apply, superclassOf_base hread]
    rfl
  · cases hlike

theorem tells_remembered {d : DeclRef} (hd : d ∈ baseTypes.decls) {c : Option ClassDef}
    (hc : IsBaseDef (BaseModule.counterpart d) c) {compute : Query (Option ClassDef)}
    (hcompute : ∀ s, compute s = (c, s)) :
    baseTelling.Tells (remembered (BaseModule.counterpart d).site (·.classes)
      (fun s classes => { s with classes }) compute) c := by
  intro s hs
  rw [remembered_apply]
  cases hget : s.classes.get? (BaseModule.counterpart d).site with
  | some c' => exact ⟨congrArg Prod.fst ((hs d hd c' hget s).symm.trans (hc s)), hs⟩
  | none =>
    rw [hcompute]
    refine ⟨rfl, fun e he c' hget' => ?_⟩
    rw [Dict.get?_insertNew, Option.or_eq_some_iff] at hget'
    obtain hget' | ⟨-, hget'⟩ := hget'
    · exact hs e he c' hget'
    · split at hget'
      next hsite =>
        obtain rfl := BaseModule.counterpart_inj hd he (eq_of_beq hsite)
        exact Option.some.inj hget' ▸ hc
      · cases hget'

theorem tells_classDef {d : DeclRef} (hd : d ∈ baseTypes.decls) {c : Option ClassDef}
    (hc : IsBaseDef (BaseModule.counterpart d) c) :
    baseTelling.Tells (classDef (BaseModule.counterpart d)) c := by
  refine tells_remembered hd hc fun s => ?_
  have hmodule : (BaseModule.counterpart d).site.module = BaseModule.id := rfl
  rw [bind_apply, hmodule, tree?, if_pos rfl]
  exact hc s

/-! ## Climbing side by side -/

/-- What a computation finds among the ancestors, over the classes of the base module. -/
abbrev overBase (view : Option (List Ty)) : Option (List Ty) :=
  view.map fun v => v.map (Ty.mapDecls BaseModule.counterpart)

theorem isClassed_withBase : withBase.env.IsClassed where
  classDef_congr {d d'} hsite := by
    change withBase.classes.lookup d.site = withBase.classes.lookup d'.site
    rw [hsite]
  superclass_eq {d c s} hc hs := by
    have hclass := base_superclass _ (mem_of_lookup hc) s hs
    unfold isBaseSuperclass at hclass
    split at hclass
    · exact ⟨_, _, rfl⟩
    · cases hclass

/-- The classes directly above a base class and above its counterpart are given the same arguments. -/
theorem above_base {d : DeclRef} (hd : d ∈ baseTypes.decls) :
    ∃ c', IsBaseDef (BaseModule.counterpart d) (some c') ∧ c'.decl = BaseModule.counterpart d ∧
      ((c'.superclass = none ∧ ∀ args, withBase.env.above? d args = none) ∨
        ∃ s e indices, c'.superclass = some s ∧
          BaseModule.handed? (BaseModule.counterpart d).site s
            = some (BaseModule.counterpart e, indices) ∧
          (e ∈ baseTypes.decls ∧ e.site.node < d.site.node) ∧
          ∀ args, withBase.env.above? d args = some (e, indices.map (argAt args))) := by
  obtain ⟨c, c', hc, hdef, hdecl, hdecl', -, habove⟩ := exists_isBaseDef hd
  refine ⟨c', hdef, hdecl', ?_⟩
  have hc : withBase.env.classDef d = some c := hc
  unfold BaseModule.areAlikeAbove at habove
  split at habove
  next hs hs' => exact .inl ⟨hs', fun args => by simp [TypeEnv.above?, hc, hs]⟩
  next s s' hs hs' =>
    split at habove
    next e indices hhanded =>
      simp only [Bool.and_eq_true, decide_eq_true_eq] at habove
      obtain ⟨⟨he, hlt⟩, hhanded'⟩ := habove
      refine .inr ⟨s', e, indices, hs', hhanded', ⟨he, hlt⟩, fun args => ?_⟩
      obtain ⟨e', given, rfl⟩ := isClassed_withBase.superclass_eq hc hs
      have hsubst := BaseModule.substitute_of_handed? hhanded withBase.env.base args
      rw [Ty.substitute, Ty.substituteAll_eq_map] at hsubst
      obtain ⟨rfl, hgiven⟩ := Ty.class.inj hsubst
      simp only [TypeEnv.above?, hc, hs, hdecl, hgiven]
    · cases habove
  · cases habove

theorem expand_class (d : DeclRef) (args : List Ty) :
    env.expand (.class d args) = pure (.class d args) := rfl

theorem tells_climb {target : DeclRef} (htarget : target ∈ baseTypes.decls) {n n' : Nat}
    {seen seen' : List Site}
    (hseen : ∀ d ∈ baseTypes.decls,
      seen'.contains (BaseModule.counterpart d).site = seen.contains d.site)
    {d : DeclRef} (hd : d ∈ baseTypes.decls) (hn : d.site.node < n) (hn' : d.site.node < n')
    {args : List Ty} (hargs : ∀ a ∈ args, baseTypes.Builds a) :
    (∀ v, withBase.env.climb target.site n seen d args = some v → ∀ x ∈ v, baseTypes.Builds x) ∧
    baseTelling.Tells (env.climb (BaseModule.counterpart target).site n' seen'
        (BaseModule.counterpart d) (args.map (Ty.mapDecls BaseModule.counterpart)))
      (overBase (withBase.env.climb target.site n seen d args)) := by
  induction n generalizing n' seen seen' d args with
  | zero => omega
  | succ n ih =>
    obtain ⟨n', rfl⟩ : ∃ m, n' = m + 1 := ⟨n' - 1, by omega⟩
    rw [TypeEnv.climb_succ isClassed_withBase, TypeEnv.climb]
    by_cases hsite : d.site = target.site
    · rw [if_pos hsite, if_pos ((BaseModule.counterpart_site_iff hd htarget).mpr hsite)]
      exact ⟨fun v hv => Option.some.inj hv ▸ hargs, baseTelling.of_pure _⟩
    rw [if_neg hsite, if_neg (mt (BaseModule.counterpart_site_iff hd htarget).mp hsite), hseen d hd]
    by_cases hmet : seen.contains d.site
    · rw [if_pos hmet, if_pos hmet]
      exact ⟨fun v hv => by simp at hv, baseTelling.of_pure _⟩
    rw [if_neg hmet, if_neg hmet]
    obtain ⟨c, hdef, hdecl, ⟨hs, habove⟩ | ⟨s, e, indices, hs, hhanded, ⟨he, hlt⟩, habove⟩⟩ :=
      above_base hd
    · rw [habove]
      refine ⟨fun v hv => by simp at hv, baseTelling.of_bind (tells_classDef hd hdef) ?_⟩
      simp only [hs]
      exact baseTelling.of_pure _
    · rw [habove, Option.bind_some]
      have hbuilt : ∀ a ∈ indices.map (argAt args), baseTypes.Builds a :=
        List.forall_mem_map.mpr fun i _ => Ty.BuiltFrom.argAt hargs i
      have hseen' : ∀ f ∈ baseTypes.decls,
          ((BaseModule.counterpart d).site :: seen').contains (BaseModule.counterpart f).site
            = (d.site :: seen).contains f.site := by
        intro f hf
        have hsame : ((BaseModule.counterpart f).site == (BaseModule.counterpart d).site)
            = (f.site == d.site) := by
          rw [Bool.eq_iff_iff, beq_iff_eq, beq_iff_eq]
          exact BaseModule.counterpart_site_iff hf hd
        rw [List.contains_cons, List.contains_cons, hseen f hf, hsame]
      obtain ⟨hviews, htells⟩ := ih hseen' he (by omega)
        (show e.site.node < n' by omega) hbuilt
      refine ⟨hviews, baseTelling.of_bind (tells_classDef hd hdef) ?_⟩
      have hgiven : (indices.map (argAt args)).map (Ty.mapDecls BaseModule.counterpart)
          = indices.map (argAt (args.map (Ty.mapDecls BaseModule.counterpart))) := by
        simp only [List.map_map, Function.comp_def, Ty.mapDecls_argAt]
      have hsubst := BaseModule.substitute_of_handed? hhanded BaseModule.types
        (args.map (Ty.mapDecls BaseModule.counterpart))
      rw [← hgiven, ← hdecl] at hsubst
      simp only [hs]
      rw [show env.base = BaseModule.types from rfl, hsubst, expand_class]
      exact baseTelling.of_bind (baseTelling.of_pure _) htells

theorem node_le_of_mem : ∀ d ∈ baseTypes.decls, d.site.node ≤ withBase.classes.length ∧
    d.site.node ≤ BaseModule.tree.size := by
  decide +kernel

/-- A session climbs at least as far as the base module has nodes. -/
theorem size_le_capacity (s : Session) : BaseModule.tree.size ≤ s.capacity := by
  unfold capacity
  refine Nat.le_trans ?_ (Nat.le_mul_of_pos_right _ (by omega))
  omega

theorem tells_asSupertype? {a : Ty} (ha : baseTypes.Builds a) {target : DeclRef}
    (htarget : target ∈ baseTypes.decls) :
    (∀ v, withBase.env.asSupertype? a target = some v → ∀ x ∈ v, baseTypes.Builds x) ∧
    baseTelling.Tells (env.asSupertype? (a.mapDecls BaseModule.counterpart)
      (BaseModule.counterpart target)) (overBase (withBase.env.asSupertype? a target)) := by
  cases ha with
  | @«class» d args hd hargs =>
    obtain ⟨htable, hmodule⟩ := node_le_of_mem d hd
    have hseen : ∀ d ∈ baseTypes.decls, ([] : List Site).contains (BaseModule.counterpart d).site
        = ([] : List Site).contains d.site := fun _ _ => rfl
    have hclimb {n' : Nat} (hn' : d.site.node < n') := tells_climb htarget hseen hd
      (Nat.lt_succ_of_le htable) hn' hargs
    rw [TypeEnv.asSupertype?_class]
    refine ⟨(hclimb (Nat.lt_succ_self _)).1, fun s hs => ?_⟩
    have hcapacity := size_le_capacity s
    have hcount : env.classCount s = (s.capacity, s) := rfl
    rw [Ty.mapDecls_class, TypeEnv.asSupertype?, expand_class, pure_bind]
    simp only
    rw [bind_apply, hcount]
    exact (hclimb (show d.site.node < s.capacity + 1 by omega)).2 s hs
  | _ => exact ⟨fun v hv => (by cases hv), baseTelling.of_pure _⟩

theorem variance_congr {c c' : ClassDef}
    (h : c.typeParams.map (·.variance) = c'.typeParams.map (·.variance)) (i : Nat) :
    varianceIn (some c') i = varianceIn (some c) i := by
  have hi := congrArg (fun l => l[i]?) h
  simp only [List.getElem?_map] at hi
  rw [varianceIn, varianceIn, ClassDef.variance, ClassDef.variance]
  cases hc : c.typeParams[i]? <;> cases hc' : c'.typeParams[i]? <;> simp_all

theorem base_withBase : withBase.env.base = baseTypes := env_base_withClasses []

/-- The base module and the table of the base classes look the same to the relations. -/
theorem isMirrored_withBase : withBase.env.IsMirrored baseTelling BaseModule.counterpart env where
  base := by
    rw [base_withBase]
    exact BaseModule.mapsTo_counterpart
  view ha htarget := by
    rw [base_withBase] at ha htarget ⊢
    exact tells_asSupertype? ha htarget
  variance d hd := by
    rw [base_withBase] at hd
    obtain ⟨c, c', hc, hdef, -, -, hvariance, -⟩ := exists_isBaseDef hd
    refine ⟨some c', tells_classDef hd hdef, fun i => ?_⟩
    rw [show withBase.env.classDef d = some c from hc]
    exact variance_congr hvariance i

/-- About types that are built from the base classes a new session over any store answers as the
table of the base classes does. -/
theorem relations_eq_withBase (W : Store) {a b : Ty} (ha : baseTypes.Builds a)
    (hb : baseTypes.Builds b) :
    (env.isSubtype (a.mapDecls BaseModule.counterpart) (b.mapDecls BaseModule.counterpart)
        (new W)).1 = withBase.env.isSubtype a b ∧
      (env.haveCommonSubtype (a.mapDecls BaseModule.counterpart)
        (b.mapDecls BaseModule.counterpart) (new W)).1 = withBase.env.haveCommonSubtype a b := by
  rw [← base_withBase] at ha hb
  exact ⟨(isMirrored_withBase.tells_isSubtype ha hb _ (knowsBase_new W)).1,
    (isMirrored_withBase.tells_haveCommonSubtype ha hb _ (knowsBase_new W)).1⟩

/-- Lists of functions from numbers to one text or none. -/
def textLists : Ty :=
  .class baseTypes.list [.function [.class baseTypes.number []] (.nullable (.literal "x"))]

/-- Collections of functions from whole numbers to texts or none. -/
def textCollections : Ty :=
  .class baseTypes.collection
    [.function [.class baseTypes.int []] (.nullable (.class baseTypes.string []))]

theorem relations_eq_withBase_textLists :
    (baseTypes.Builds textLists ∧ baseTypes.Builds textCollections) ∧
      (env.isSubtype (textLists.mapDecls BaseModule.counterpart)
        (textCollections.mapDecls BaseModule.counterpart)
        (new (.new default default none))).1 = true ∧
      (env.isSubtype (textCollections.mapDecls BaseModule.counterpart)
        (textLists.mapDecls BaseModule.counterpart)
        (new (.new default default none))).1 = false := by
  have hclass {d : DeclRef} (hd : d ∈ baseTypes.decls) : baseTypes.Builds (.class d []) :=
    BaseTypes.builds_plain hd
  have hlists : baseTypes.Builds textLists :=
    .class (by simp) (List.forall_mem_singleton.mpr (.function
      (List.forall_mem_singleton.mpr (hclass (by simp))) (.nullable (.literal "x"))))
  have hcollections : baseTypes.Builds textCollections :=
    .class (by simp) (List.forall_mem_singleton.mpr (.function
      (List.forall_mem_singleton.mpr (hclass (by simp))) (.nullable (hclass (by simp)))))
  refine ⟨⟨hlists, hcollections⟩, ?_, ?_⟩
  · rw [(relations_eq_withBase _ hlists hcollections).1]
    decide
  · rw [(relations_eq_withBase _ hcollections hlists).1]
    decide

end Session

end PklAnalysis
