import Mathlib.Logic.Relation
import PklAnalysis.Proofs.Lattice.SubtypingRules

/-!
# Classes above classes

In an orderly environment a superclass is a class of known types and of parameters of the class
itself.  Then the way up from a class depends on its declaration only: two ancestors of a class lie
on one way, and arguments that agree below give arguments that agree above.

A type is known if it is made up of classes with all their arguments, functions, texts, question
marks and unions: nothing in it is unknown, a type parameter or a type alias, and it has values.
The normal forms of known types are known again, and no shortcut of the relations settles a pair of
known types unless they are equal.
-/

namespace PklAnalysis

namespace TypeEnv

variable (env : TypeEnv Id)

/-- A class has a definition under its own name, with the given parameters. -/
def Declares (d : DeclRef) (params : List TypeParam) : Prop :=
  ∃ c, env.classDef d = some c ∧ c.decl = d ∧ c.typeParams = params

theorem declares_iff (d : DeclRef) (params : List TypeParam) : env.Declares d params ↔
    Option.map (fun c => (c.decl, c.typeParams)) (env.classDef d) = some (d, params) := by
  rw [Option.map_eq_some_iff, Declares]
  simp only [Prod.mk.injEq]

instance (d : DeclRef) (params : List TypeParam) : Decidable (env.Declares d params) :=
  decidable_of_iff' _ (env.declares_iff d params)

/-- A type of which everything is known. -/
inductive Known : Ty → Prop
  | class {d : DeclRef} {params : List TypeParam} {args : List Ty} (hd : env.Declares d params)
      (hlength : args.length = params.length) (hargs : ∀ a ∈ args, Known a) : Known (.class d args)
  | function {ps : List Ty} {r : Ty} (hps : ∀ p ∈ ps, Known p) (hr : Known r) :
      Known (.function ps r)
  | literal (text : String) : Known (.literal text)
  | nullable {t : Ty} (ht : Known t) : Known (.nullable t)
  | union {ms : List Ty} (hne : ms ≠ []) (hms : ∀ t ∈ ms, Known t) : Known (.union ms)

/-- A type that is a class, a function or a text. -/
def IsAtom : Ty → Prop
  | .class .. | .function .. | .literal _ => True
  | _ => False

/-- A type that is a class or a function. -/
def IsObject : Ty → Prop
  | .class .. | .function .. => True
  | _ => False

variable {env}

theorem Known.plain {d : DeclRef} (hd : env.Declares d []) : env.Known (BaseTypes.plain d) :=
  .class hd rfl (List.forall_mem_nil _)

/-! ## Normal forms -/

theorem Known.ofMembers {ts : List Ty} (hne : ts ≠ []) (h : ∀ t ∈ ts, env.Known t) :
    env.Known (Ty.ofMembers ts) := by
  match ts with
  | [] => exact absurd rfl hne
  | [t] => exact h t (List.mem_singleton_self t)
  | t :: u :: ts => exact .union hne h

section Normal

variable (hnull : env.Declares env.base.null [])
include hnull

theorem Known.leaves {t : Ty} (h : env.Known t) :
    (∀ l ∈ t.leaves env.base, env.Known l) ∧ t.leaves env.base ≠ [] := by
  induction h with
  | «class» hd hlength hargs =>
    simp only [Ty.leaves, List.mem_singleton, forall_eq]
    exact ⟨.class hd hlength hargs, List.cons_ne_nil _ _⟩
  | function hps hr =>
    simp only [Ty.leaves, List.mem_singleton, forall_eq]
    exact ⟨.function hps hr, List.cons_ne_nil _ _⟩
  | literal text =>
    simp only [Ty.leaves, List.mem_singleton, forall_eq]
    exact ⟨.literal text, List.cons_ne_nil _ _⟩
  | nullable ht ih =>
    simp only [Ty.leaves, List.forall_mem_cons]
    exact ⟨⟨.plain hnull, ih.1⟩, List.cons_ne_nil _ _⟩
  | @union ms hne hms ih =>
    simp only [Ty.leaves, Ty.leavesOfAll_eq_flatMap]
    refine ⟨fun l hl => ?_, fun hnil => ?_⟩
    · obtain ⟨t, ht, hl⟩ := List.mem_flatMap.mp hl
      exact (ih t ht).1 l hl
    · obtain ⟨t, ht⟩ := List.exists_mem_of_ne_nil ms hne
      exact (ih t ht).2 (List.flatMap_eq_nil_iff.mp hnil t ht)

/-- Unions of known types in normal form are known. -/
theorem Known.unionOf {ts : List Ty} (hne : ts ≠ []) (h : ∀ t ∈ ts, env.Known t) :
    env.Known (Ty.unionOf env.base ts) := by
  obtain ⟨hleaves, hleavesNe⟩ := (Known.union hne h).leaves hnull
  rw [Ty.leaves] at hleaves hleavesNe
  have hknown : (Ty.leavesOfAll env.base ts).any Ty.isUnknown = false := by
    rw [List.any_eq_false]
    intro l hl
    cases hleaves l hl <;> simp [Ty.isUnknown]
  have hmembers : ∀ t ∈ ((Ty.leavesOfAll env.base ts).filter
      fun t => !env.base.isNull t).eraseDups, env.Known t :=
    fun t ht => hleaves t (List.mem_filter.mp (List.mem_eraseDups.mp ht)).1
  rw [Ty.unionOf, hknown]
  simp only [Bool.false_eq_true, if_false]
  split
  · split
    · exact .plain hnull
    · next hempty => exact .nullable (.ofMembers (by simpa using hempty) hmembers)
  · next hany =>
    refine .ofMembers (fun hnil => ?_) hmembers
    obtain ⟨l, hl⟩ := List.exists_mem_of_ne_nil _ hleavesNe
    have hl' : l ∈ ((Ty.leavesOfAll env.base ts).filter
        fun t => !env.base.isNull t).eraseDups := by
      have hnot : env.base.isNull l = false := by
        simpa using fun h => hany (List.any_eq_true.mpr ⟨l, hl, h⟩)
      exact List.mem_eraseDups.mpr (List.mem_filter.mpr ⟨hl, by rw [hnot]; rfl⟩)
    rw [hnil] at hl'
    exact List.not_mem_nil hl'

/-- A known type that may be null is known in normal form. -/
theorem Known.orNull {t : Ty} (h : env.Known t) : env.Known (Ty.orNull env.base t) := by
  refine .unionOf hnull (List.cons_ne_nil _ _) fun u hu => ?_
  rcases List.mem_cons.mp hu with rfl | hu
  · exact h
  · rw [List.mem_singleton.mp hu]
    exact .plain hnull

/-- There is nothing to replace in a known type, but it is brought to normal form. -/
theorem Known.substitute {t : Ty} (h : env.Known t) (owner : Site) (args : List Ty) :
    env.Known (t.substitute env.base owner args) := by
  induction h with
  | @«class» d params as hd hlength _ ih =>
    rw [Ty.substitute, Ty.substituteAll_eq_map]
    exact .class hd (by rw [List.length_map, hlength]) (List.forall_mem_map.mpr ih)
  | function _ _ ihps ihr =>
    rw [Ty.substitute, Ty.substituteAll_eq_map]
    exact .function (List.forall_mem_map.mpr ihps) ihr
  | literal text => exact .literal text
  | nullable _ ih => exact ih.orNull hnull
  | union hne _ ih =>
    rw [Ty.substitute, Ty.substituteAll_eq_map]
    exact .unionOf hnull (by simpa using hne) (List.forall_mem_map.mpr ih)

end Normal

/-- A known type has no parameters that a replacement depends on. -/
theorem Known.substitute_congr {t : Ty} (h : env.Known t) (owner owner' : Site)
    (args args' : List Ty) :
    t.substitute env.base owner args = t.substitute env.base owner' args' := by
  induction h with
  | «class» _ _ _ ih =>
    simp only [Ty.substitute, Ty.substituteAll_eq_map]
    rw [List.map_congr_left ih]
  | function _ _ ihps ihr =>
    simp only [Ty.substitute, Ty.substituteAll_eq_map]
    rw [List.map_congr_left ihps, ihr]
  | literal text => rfl
  | nullable _ ih => simp only [Ty.substitute, ih]
  | union _ _ ih =>
    simp only [Ty.substitute, Ty.substituteAll_eq_map]
    rw [List.map_congr_left ih]

/-- The arguments of a known class. -/
theorem Known.class_inv {d : DeclRef} {args : List Ty} (h : env.Known (.class d args)) :
    ∃ params, env.Declares d params ∧ args.length = params.length ∧ ∀ a ∈ args, env.Known a := by
  cases h with
  | «class» hd hlength hargs => exact ⟨_, hd, hlength, hargs⟩

theorem Known.union_inv {ms : List Ty} (h : env.Known (.union ms)) : ∀ t ∈ ms, env.Known t := by
  cases h with
  | union hne hms => exact hms

theorem Known.nullable_inv {t : Ty} (h : env.Known (.nullable t)) : env.Known t := by
  cases h with
  | nullable ht => exact ht

/-! ## Shortcuts -/

theorem Known.subtypeShortcut {a b : Ty} (ha : env.Known a) (hb : env.Known b) :
    PklAnalysis.subtypeShortcut a b = if a = b then .holds else .open := by
  unfold PklAnalysis.subtypeShortcut
  split
  · rfl
  · cases ha <;> cases hb <;> rfl

theorem Known.commonShortcut {a b : Ty} (ha : env.Known a) (hb : env.Known b) :
    PklAnalysis.commonShortcut a b = if a = b then .holds else .open := by
  cases ha <;> cases hb <;> rfl

/-- Between known types that differ only the rules for their shapes count. -/
theorem Known.subtype_iff {a b : Ty} (ha : env.Known a) (hb : env.Known b) :
    env.Subtype a b ↔ a = b ∨ env.ShapesFollow env.Subtype a b := by
  rw [TypeEnv.subtype_iff, Follows, ha.subtypeShortcut hb]
  by_cases h : a = b
  · simp [h]
  · simp [h]

/-! ## Orderly environments -/

variable (env)

/-- An argument that a class hands to its superclass: a known type, or a parameter of the class
itself in a place that varies as the parameter does, covariantly. -/
def IsHanded (c : ClassDef) (params : List TypeParam) (j : Nat) (a : Ty) : Prop :=
  env.Known a ∨ ∃ i name, a = .param ⟨c.decl.site, i, name⟩ ∧
    (c.typeParams[i]?).map (·.variance) = some .covariant ∧
    (params[j]?).map (·.variance) = some .covariant

/-- A superclass with all its arguments. -/
def IsSuperclass (c : ClassDef) (s : Ty) : Prop :=
  ∃ d params args, s = .class d args ∧ env.Declares d params ∧ args.length = params.length ∧
    ∀ j a, args[j]? = some a → env.IsHanded c params j a

/-- A class has another one as its superclass. -/
def Extends (d d' : DeclRef) : Prop :=
  ∃ c args, env.classDef d = some c ∧ c.superclass = some (.class d' args)

/-- An environment whose classes are found by their places and whose superclasses are classes. -/
structure IsClassed : Prop where
  classDef_congr : ∀ {d d'}, d.site = d'.site → env.classDef d = env.classDef d'
  superclass_eq : ∀ {d c s}, env.classDef d = some c → c.superclass = some s →
    ∃ d' args, s = .class d' args

/-- An environment whose classes are found by their places and have superclasses with all their
arguments, none of them above itself. -/
structure IsOrderly : Prop where
  classDef_congr : ∀ {d d'}, d.site = d'.site → env.classDef d = env.classDef d'
  superclass : ∀ {d c s}, env.classDef d = some c → c.superclass = some s → env.IsSuperclass c s
  acyclic : ∀ d, ¬Relation.TransGen env.Extends d d
  null : env.Declares env.base.null []

/-- The class above a class with arguments. -/
def above? (d : DeclRef) (args : List Ty) : Option (DeclRef × List Ty) :=
  match (env.classDef d : Option ClassDef) with
  | none => none
  | some c =>
    match c.superclass with
    | some (.class d' given) => some (d', given.map (Ty.substitute env.base c.decl.site args))
    | _ => none

variable {env}

/-- An argument in range is one of the arguments. -/
theorem argAt_mem {args : List Ty} {i : Nat} (hi : i < args.length) : argAt args i ∈ args := by
  simp [argAt, hi]

theorem argAt_map {args : List Ty} {f : Ty → Ty} {i : Nat} {a : Ty} (ha : args[i]? = some a) :
    argAt (args.map f) i = f a := by
  simp [argAt, ha]

theorem varianceIn_eq {c : ClassDef} {i : Nat} {v : Variance}
    (h : (c.typeParams[i]?).map (·.variance) = some v) : varianceIn (some c) i = v := by
  obtain ⟨p, hp, rfl⟩ := Option.map_eq_some_iff.mp h
  rw [varianceIn, ClassDef.variance, hp]

theorem extends_of_above {d d' : DeclRef} {args args' : List Ty}
    (h : env.above? d args = some (d', args')) : env.Extends d d' := by
  rw [above?] at h
  split at h
  · cases h
  · next c hc =>
    split at h
    · next d'' given hsuper =>
      cases h
      exact ⟨c, given, hc, hsuper⟩
    · cases h

theorem IsOrderly.isClassed (h : env.IsOrderly) : env.IsClassed where
  classDef_congr := h.classDef_congr
  superclass_eq hc hs := by
    obtain ⟨d, _, args, rfl, -⟩ := h.superclass hc hs
    exact ⟨d, args, rfl⟩

section Classed

variable (h : env.IsClassed)
include h

/-- One step on the way up. -/
theorem climb_succ (target : Site) (n : Nat) (seen : List Site) (d : DeclRef) (args : List Ty) :
    env.climb target (n + 1) seen d args =
      if d.site = target then some args
      else if seen.contains d.site then none
      else (env.above? d args).bind fun e => env.climb target n (d.site :: seen) e.1 e.2 := by
  rw [climb, above?]
  by_cases htarget : d.site = target
  · rw [if_pos htarget, if_pos htarget]
    rfl
  rw [if_neg htarget, if_neg htarget]
  by_cases hseen : seen.contains d.site
  · rw [if_pos hseen, if_pos hseen]
    rfl
  rw [if_neg hseen, if_neg hseen]
  change (match env.classDef d with | none => none | some c => _ : Option (List Ty)) = _
  cases hc : env.classDef d with
  | none => rfl
  | some c =>
    cases hsuper : c.superclass with
    | none =>
      simp only [hsuper]
      rfl
    | some s =>
      obtain ⟨d', given, rfl⟩ := h.superclass_eq hc hsuper
      simp only [hsuper]
      rw [Ty.substitute, Ty.substituteAll_eq_map]
      rfl

theorem above_congr {d d' : DeclRef} (hsite : d.site = d'.site) (args : List Ty) :
    env.above? d args = env.above? d' args := by
  rw [above?, above?, h.classDef_congr hsite]

/-- An ancestor is the class itself, or an ancestor of the class above it. -/
theorem climb_eq_some_iff {target : Site} {n : Nat} {seen : List Site} {d : DeclRef}
    {args view : List Ty} :
    env.climb target n seen d args = some view ↔
      (d.site = target ∧ args = view) ∨ (d.site ≠ target ∧ d.site ∉ seen ∧
        ∃ k d' args', n = k + 1 ∧ env.above? d args = some (d', args') ∧
          env.climb target k (d.site :: seen) d' args' = some view) := by
  by_cases htarget : d.site = target
  · have hself : env.climb target n seen d args = some args := by
      cases n <;> simp [climb, htarget, pure]
    rw [hself]
    change (some args : Option _) = some view ↔ _
    simp [htarget]
  cases n with
  | zero =>
    have hnone : env.climb target 0 seen d args = none := by
      simp [climb, htarget, pure]
    simp [htarget, hnone]
  | succ n =>
    rw [climb_succ h, if_neg htarget]
    by_cases hseen : d.site ∈ seen
    · simp [htarget, hseen]
    · simp only [List.contains_eq_mem, hseen, decide_false, Bool.false_eq_true, if_false]
      refine Option.bind_eq_some_iff.trans ?_
      simp [htarget]

theorem climb_congr {d d' : DeclRef} (hsite : d.site = d'.site) (target : Site) (n : Nat)
    (seen : List Site) (args : List Ty) :
    env.climb target n seen d args = env.climb target n seen d' args := by
  refine Option.ext fun view => ?_
  refine (climb_eq_some_iff h).trans (Iff.trans ?_ (climb_eq_some_iff h).symm)
  rw [hsite, above_congr h hsite]

/-- What is found on the way up is found with more steps and fewer classes met before. -/
theorem climb_mono {target : Site} {n n' : Nat} {seen seen' : List Site} {d : DeclRef}
    {args view : List Ty} (hview : env.climb target n seen d args = some view) (hn : n ≤ n')
    (hseen : seen' ⊆ seen) : env.climb target n' seen' d args = some view := by
  induction n generalizing n' seen seen' d args with
  | zero =>
    rcases (climb_eq_some_iff h).mp hview with hself | ⟨-, -, k, d', args', hk, -⟩
    · exact (climb_eq_some_iff h).mpr (.inl hself)
    · omega
  | succ n ih =>
    rcases (climb_eq_some_iff h).mp hview with hself | ⟨hne, hnot, k, d', args', hk, habove, hview⟩
    · exact (climb_eq_some_iff h).mpr (.inl hself)
    obtain rfl : n = k := by omega
    refine (climb_eq_some_iff h).mpr (.inr ⟨hne, fun hmem => hnot (hseen hmem), n' - 1, d', args',
      by omega, habove, ?_⟩)
    exact ih hview (by omega) (List.cons_subset_cons d.site hseen)

/-- Of two ancestors of a class one is an ancestor of the other, with the same arguments. -/
theorem climb_linear {s t : Site} {m n : Nat} {seen seen' : List Site} {d : DeclRef}
    {args v w : List Ty} (hv : env.climb s m seen d args = some v)
    (hw : env.climb t n seen' d args = some w) :
    (∃ d', d'.site = s ∧ env.climb t n [] d' v = some w) ∨
      ∃ d', d'.site = t ∧ env.climb s m [] d' w = some v := by
  induction m generalizing n seen seen' d args with
  | zero =>
    rcases (climb_eq_some_iff h).mp hv with ⟨hs, rfl⟩ | ⟨-, -, k, d', args', hk, -⟩
    · exact .inl ⟨d, hs, climb_mono h hw (Nat.le_refl n) (List.nil_subset _)⟩
    · omega
  | succ m ih =>
    have hv' := hv
    rcases (climb_eq_some_iff h).mp hv with ⟨hs, rfl⟩ | ⟨-, -, k, d', args', hk, habove, hv⟩
    · exact .inl ⟨d, hs, climb_mono h hw (Nat.le_refl n) (List.nil_subset _)⟩
    rcases (climb_eq_some_iff h).mp hw with ⟨ht, rfl⟩ | ⟨-, -, k', d'', args'', hk', habove', hw⟩
    · exact .inr ⟨d, ht, climb_mono h hv' (Nat.le_refl _) (List.nil_subset _)⟩
    -- there is one class above, so both ways go on from there
    obtain ⟨rfl, rfl⟩ : d' = d'' ∧ args' = args'' := by
      simpa [habove] using habove'
    obtain rfl : m = k := by omega
    rcases ih hv hw with ⟨e, he, hup⟩ | ⟨e, he, hup⟩
    · exact .inl ⟨e, he, climb_mono h hup (by omega) (List.nil_subset _)⟩
    · exact .inr ⟨e, he, climb_mono h hup (by omega) (List.nil_subset _)⟩

/-- A class is its own ancestor. -/
theorem asSupertype_self (d : DeclRef) (args : List Ty) :
    env.asSupertype? (.class d args) d = some args :=
  (climb_eq_some_iff h).mpr (.inl ⟨rfl, rfl⟩)

end Classed

section Orderly

variable (h : env.IsOrderly)
include h

/-! ## Arguments on the way up -/

/-- The class above a class with a definition, with the arguments that it is given. -/
theorem above_inv {d d' : DeclRef} {args args' : List Ty}
    (habove : env.above? d args = some (d', args')) :
    ∃ c params, ∃ given : List Ty, env.classDef d = some c ∧ env.Declares d' params ∧
      given.length = params.length ∧ (∀ j a, given[j]? = some a → env.IsHanded c params j a) ∧
      ∀ args, env.above? d args
        = some (d', given.map (Ty.substitute env.base c.decl.site args)) := by
  rw [above?] at habove
  split at habove
  · cases habove
  next c hc =>
  split at habove
  · next d'' given hsuper =>
    cases habove
    obtain ⟨_, params, _, he, hd, hlength, hgiven⟩ := h.superclass hc hsuper
    cases he
    exact ⟨c, params, given, hc, hd, hlength, hgiven, fun args => by simp [above?, hc, hsuper]⟩
  · cases habove

theorem known_above {d d' : DeclRef} {args args' : List Ty} (hargs : env.Known (.class d args))
    (habove : env.above? d args = some (d', args')) : env.Known (.class d' args') := by
  obtain ⟨c, params', given, hc, hd', hlength', hgiven, heq⟩ := above_inv h habove
  obtain ⟨params, ⟨c', hc', -, rfl⟩, hlength, hknown⟩ := hargs.class_inv
  obtain rfl : c = c' := Option.some.inj (hc.symm.trans hc')
  obtain rfl : given.map (Ty.substitute env.base c.decl.site args) = args' := by
    simpa [heq] using habove
  refine .class hd' (by rw [List.length_map, hlength']) fun a ha => ?_
  obtain ⟨g, hg, rfl⟩ := List.mem_map.mp ha
  obtain ⟨j, hj⟩ := List.getElem?_of_mem hg
  rcases hgiven j g hj with hknownG | ⟨i, name, rfl, hi, -⟩
  · exact hknownG.substitute h.null _ _
  · obtain ⟨p, hp, -⟩ := Option.map_eq_some_iff.mp hi
    have hlt : i < args.length := hlength ▸ (List.getElem?_eq_some_iff.mp hp).1
    simpa [Ty.substitute, argAt] using hknown _ (argAt_mem hlt)

/-- A class has one declaration. -/
theorem Declares.eq {d d' : DeclRef} {params params' : List TypeParam} (hd : env.Declares d params)
    (hd' : env.Declares d' params') (hsite : d.site = d'.site) : d = d' ∧ params = params' := by
  obtain ⟨c, hc, rfl, rfl⟩ := hd
  obtain ⟨c', hc', rfl, rfl⟩ := hd'
  rw [h.classDef_congr hsite, hc'] at hc
  obtain rfl : c' = c := Option.some.inj hc
  exact ⟨rfl, rfl⟩

theorem known_climb {target : Site} {n : Nat} {seen : List Site} {d : DeclRef}
    {args view : List Ty} (hargs : env.Known (.class d args))
    (hview : env.climb target n seen d args = some view) :
    ∃ d', d'.site = target ∧ env.Known (.class d' view) ∧
      Relation.ReflTransGen env.Extends d d' := by
  induction n generalizing seen d args with
  | zero =>
    rcases (climb_eq_some_iff h.isClassed).mp hview with ⟨hs, rfl⟩ | ⟨-, -, k, d', args', hk, -⟩
    · exact ⟨d, hs, hargs, .refl⟩
    · omega
  | succ n ih =>
    rcases (climb_eq_some_iff h.isClassed).mp hview with
      ⟨hs, rfl⟩ | ⟨-, -, k, d', args', hk, habove, hview⟩
    · exact ⟨d, hs, hargs, .refl⟩
    obtain rfl : n = k := by omega
    obtain ⟨e, he, hknown, hpath⟩ := ih (known_above h hargs habove) hview
    exact ⟨e, he, hknown, .head (extends_of_above habove) hpath⟩

/-- Arguments that agree below are handed on to arguments that agree above. -/
theorem above_follows {d d' : DeclRef} {v w v' : List Ty} (hv : env.Known (.class d v))
    (hvw : ArgsFollow env.Subtype (env.classDef d) v w)
    (habove : env.above? d v = some (d', v')) :
    ∃ w', env.above? d w = some (d', w') ∧ ArgsFollow env.Subtype (env.classDef d') v' w' := by
  obtain ⟨c, params', given, hc, ⟨c', hc', -, hparams'⟩, hlength', hgiven, heq⟩ :=
    above_inv h habove
  obtain ⟨params, ⟨c'', hc'', -, rfl⟩, hlength, hknown⟩ := hv.class_inv
  obtain rfl : c = c'' := Option.some.inj (hc.symm.trans hc'')
  refine ⟨_, heq w, ?_⟩
  obtain rfl : given.map (Ty.substitute env.base c.decl.site v) = v' := by
    simpa [heq] using habove
  intro j hj
  have hlt : j < given.length := by simpa using hj
  have hg : given[j]? = some given[j] := List.getElem?_eq_getElem hlt
  rw [argAt_map hg, argAt_map hg]
  rcases hgiven j _ hg with hknownG | ⟨i, name, hparam, hi, hj'⟩
  · -- a known type has no parameters, so it is handed on as it stands
    rw [hknownG.substitute_congr c.decl.site c.decl.site v w]
    cases varianceIn (env.classDef d') j with
    | covariant => exact .refl _
    | contravariant => exact .refl _
    | invariant => exact ⟨.refl _, .refl _⟩
  · -- the parameter and its place are covariant
    obtain ⟨p, hp, -⟩ := Option.map_eq_some_iff.mp hi
    have hlt : i < v.length := hlength ▸ (List.getElem?_eq_some_iff.mp hp).1
    have hbelow := hvw i (Nat.lt_of_lt_of_le hlt (Nat.le_max_left _ _))
    rw [hc] at hbelow
    simp only [varianceIn_eq hi] at hbelow
    rw [hc']
    rw [hparam]
    simp only [varianceIn_eq (hparams' ▸ hj'), Ty.substitute, if_true]
    exact hbelow

theorem climb_follows {target : DeclRef} {n : Nat} {seen : List Site} {d : DeclRef}
    {v w x : List Ty} (hv : env.Known (.class d v))
    (hvw : ArgsFollow env.Subtype (env.classDef d) v w)
    (hx : env.climb target.site n seen d v = some x) :
    ∃ y, env.climb target.site n seen d w = some y ∧
      ArgsFollow env.Subtype (env.classDef target) x y := by
  induction n generalizing seen d v w with
  | zero =>
    rcases (climb_eq_some_iff h.isClassed).mp hx with ⟨hs, rfl⟩ | ⟨-, -, k, d', args', hk, -⟩
    · exact ⟨w, (climb_eq_some_iff h.isClassed).mpr (.inl ⟨hs, rfl⟩), h.classDef_congr hs ▸ hvw⟩
    · omega
  | succ n ih =>
    rcases (climb_eq_some_iff h.isClassed).mp hx with
      ⟨hs, rfl⟩ | ⟨hne, hnot, k, d', v', hk, habove, hx⟩
    · exact ⟨w, (climb_eq_some_iff h.isClassed).mpr (.inl ⟨hs, rfl⟩), h.classDef_congr hs ▸ hvw⟩
    obtain rfl : n = k := by omega
    obtain ⟨w', habove', hvw'⟩ := above_follows h hv hvw habove
    obtain ⟨y, hy, hxy⟩ := ih (known_above h hv habove) hvw' hx
    refine ⟨y, (climb_eq_some_iff h.isClassed).mpr (.inr ?_), hxy⟩
    exact ⟨hne, hnot, n, d', w', rfl, habove', hy⟩

/-! ## Ancestors with their arguments -/

section Ancestors

variable {a b c : DeclRef} {cs v w : List Ty} {params params' : List TypeParam}

theorem known_asSupertype (hc : env.Known (.class c cs)) (ha : env.Declares a params)
    (hv : env.asSupertype? (.class c cs) a = some v) :
    env.Known (.class a v) ∧ Relation.ReflTransGen env.Extends c a := by
  obtain ⟨d, hsite, hknown, hpath⟩ := known_climb h hc hv
  obtain ⟨_, hd, -⟩ := hknown.class_inv
  obtain ⟨rfl, -⟩ := Declares.eq h hd ha hsite
  exact ⟨hknown, hpath⟩

theorem asSupertype_linear (hv : env.asSupertype? (.class c cs) a = some v)
    (hw : env.asSupertype? (.class c cs) b = some w) :
    env.asSupertype? (.class a v) b = some w ∨ env.asSupertype? (.class b w) a = some v := by
  rcases climb_linear h.isClassed hv hw with ⟨d, hsite, hup⟩ | ⟨d, hsite, hup⟩
  · exact .inl ((climb_congr h.isClassed hsite _ _ _ _).symm.trans hup)
  · exact .inr ((climb_congr h.isClassed hsite _ _ _ _).symm.trans hup)

/-- Classes that are above each other are the same. -/
theorem asSupertype_antisymm (ha : env.Known (.class a v)) (hb : env.Known (.class b w))
    {v' w' : List Ty} (hab : env.asSupertype? (.class a v) b = some w')
    (hba : env.asSupertype? (.class b w) a = some v') : a = b := by
  obtain ⟨_, hadecl, -⟩ := ha.class_inv
  obtain ⟨_, hbdecl, -⟩ := hb.class_inv
  have hup := (known_asSupertype h ha hbdecl hab).2
  rcases Relation.reflTransGen_iff_eq_or_transGen.mp hup with he | hpath
  · exact he.symm
  · exact absurd (hpath.trans_left (known_asSupertype h hb hadecl hba).2) (h.acyclic a)

end Ancestors

end Orderly

end TypeEnv

end PklAnalysis
