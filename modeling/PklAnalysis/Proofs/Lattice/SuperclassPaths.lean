import Mathlib.Data.List.Perm.Subperm
import PklAnalysis.Proofs.Lattice.Superclasses

/-!
# Ways up

In a straight environment a class has no parameters, or hands its own ones on as they are.  There
the ancestors of a class are what a way up leads to (`asSupertype?_eq_some_iff`), however long it
is, so ways up can be joined; and where one list of arguments narrows another one below, it does so
all the way up (`IsNarrower`).

A type is applied if no class in it has more arguments than parameters, and definite if every class
in it has all its arguments and nothing in it is unknown, a type parameter or a type alias.
Normal forms and replaced parameters of applied types are applied.
-/

namespace PklAnalysis

namespace TypeEnv

variable (env : TypeEnv Id)

/-- No class in a type has more arguments than parameters. -/
inductive Applied : Ty → Prop
  | unknown : Applied .unknown
  | nothing : Applied .nothing
  | literal (text : String) : Applied (.literal text)
  | param (p : ParamRef) : Applied (.param p)
  | typeAlias (d : DeclRef) (args : List Ty) : Applied (.typeAlias d args)
  | nullable {t : Ty} (ht : Applied t) : Applied (.nullable t)
  | class {d : DeclRef} {args : List Ty}
      (hlength : ∀ c, env.classDef d = some c → args.length ≤ c.typeParams.length)
      (hargs : ∀ a ∈ args, Applied a) : Applied (.class d args)
  | union {ms : List Ty} (hms : ∀ t ∈ ms, Applied t) : Applied (.union ms)
  | function {ps : List Ty} {r : Ty} (hps : ∀ p ∈ ps, Applied p) (hr : Applied r) :
      Applied (.function ps r)

/-- Every class in a type has all its arguments, and nothing in the type is unknown, a type
parameter or a type alias. -/
inductive Definite : Ty → Prop
  | nothing : Definite .nothing
  | literal (text : String) : Definite (.literal text)
  | nullable {t : Ty} (ht : Definite t) : Definite (.nullable t)
  | class {d : DeclRef} {c : ClassDef} {args : List Ty} (hd : env.classDef d = some c)
      (hlength : args.length = c.typeParams.length) (hargs : ∀ a ∈ args, Definite a) :
      Definite (.class d args)
  | union {ms : List Ty} (hms : ∀ t ∈ ms, Definite t) : Definite (.union ms)
  | function {ps : List Ty} {r : Ty} (hps : ∀ p ∈ ps, Definite p) (hr : Definite r) :
      Definite (.function ps r)

variable {env}

theorem Definite.applied {t : Ty} (h : env.Definite t) : env.Applied t := by
  induction h with
  | nothing => exact .nothing
  | literal text => exact .literal text
  | nullable _ ih => exact .nullable ih
  | «class» hd hlength _ ih =>
    exact .class (fun c hc => Option.some.inj (hd.symm.trans hc) ▸ Nat.le_of_eq hlength) ih
  | union _ ih => exact .union ih
  | function _ _ ihps ihr => exact .function ihps ihr

namespace Applied

theorem plain (d : DeclRef) : env.Applied (BaseTypes.plain d) :=
  .class (fun _ _ => Nat.zero_le _) (List.forall_mem_nil _)

theorem class_inv {d : DeclRef} {args : List Ty} (h : env.Applied (.class d args)) :
    (∀ c, env.classDef d = some c → args.length ≤ c.typeParams.length) ∧
      ∀ a ∈ args, env.Applied a := by
  cases h with
  | «class» hlength hargs => exact ⟨hlength, hargs⟩

theorem function_inv {ps : List Ty} {r : Ty} (h : env.Applied (.function ps r)) :
    (∀ p ∈ ps, env.Applied p) ∧ env.Applied r := by
  cases h with
  | function hps hr => exact ⟨hps, hr⟩

theorem argAt {args : List Ty} (h : ∀ a ∈ args, env.Applied a) (i : Nat) :
    env.Applied (PklAnalysis.argAt args i) := by
  rw [PklAnalysis.argAt]
  cases hi : args[i]? with
  | none => exact .unknown
  | some a => exact h a (List.mem_of_getElem? hi)

/-! ## Normal forms and replaced parameters -/

theorem leaves {t : Ty} (h : env.Applied t) : ∀ l ∈ t.leaves env.base, env.Applied l := by
  induction h with
  | nothing => exact List.forall_mem_nil _
  | unknown => simpa only [Ty.leaves, List.mem_singleton, forall_eq] using .unknown
  | literal text => simpa only [Ty.leaves, List.mem_singleton, forall_eq] using .literal text
  | param p => simpa only [Ty.leaves, List.mem_singleton, forall_eq] using .param p
  | typeAlias d args =>
    simpa only [Ty.leaves, List.mem_singleton, forall_eq] using .typeAlias d args
  | nullable _ ih => exact List.forall_mem_cons.mpr ⟨plain _, ih⟩
  | «class» hlength hargs _ =>
    simpa only [Ty.leaves, List.mem_singleton, forall_eq] using .class hlength hargs
  | union _ ih =>
    intro l hl
    rw [Ty.leaves, Ty.leavesOfAll_eq_flatMap] at hl
    obtain ⟨t, ht, hl⟩ := List.mem_flatMap.mp hl
    exact ih t ht l hl
  | function hps hr _ _ =>
    simpa only [Ty.leaves, List.mem_singleton, forall_eq] using .function hps hr

theorem ofMembers {ts : List Ty} (h : ∀ t ∈ ts, env.Applied t) :
    env.Applied (Ty.ofMembers ts) := by
  match ts with
  | [] => exact .nothing
  | [t] => exact h t (List.mem_singleton_self t)
  | t :: u :: ts => exact .union h

theorem unionOf {ts : List Ty} (h : ∀ t ∈ ts, env.Applied t) :
    env.Applied (Ty.unionOf env.base ts) := by
  have hleaves := leaves (.union h)
  rw [Ty.leaves] at hleaves
  have hmembers : env.Applied (Ty.ofMembers
      ((Ty.leavesOfAll env.base ts).filter fun t => !env.base.isNull t).eraseDups) :=
    ofMembers fun t ht => hleaves t (List.mem_filter.mp (List.mem_eraseDups.mp ht)).1
  rw [Ty.unionOf]
  simp only
  split
  · exact .unknown
  · split
    · split
      · exact plain _
      · exact .nullable hmembers
    · exact hmembers

theorem orNull {t : Ty} (h : env.Applied t) : env.Applied (Ty.orNull env.base t) := by
  refine unionOf fun u hu => ?_
  rcases List.mem_cons.mp hu with rfl | hu
  · exact h
  · rw [List.mem_singleton.mp hu]
    exact plain _

theorem substitute {t : Ty} (h : env.Applied t) (owner : Site) {args : List Ty}
    (hargs : ∀ a ∈ args, env.Applied a) : env.Applied (t.substitute env.base owner args) := by
  induction h with
  | unknown => exact .unknown
  | nothing => exact .nothing
  | literal text => exact .literal text
  | param p =>
    rw [Ty.substitute]
    split
    · exact argAt hargs p.index
    · exact .param p
  | typeAlias d args => exact .typeAlias _ _
  | nullable _ ih => exact ih.orNull
  | «class» hlength _ ih =>
    rw [Ty.substitute, Ty.substituteAll_eq_map]
    refine .class (fun c hc => ?_) (List.forall_mem_map.mpr ih)
    rw [List.length_map]
    exact hlength c hc
  | union _ ih =>
    rw [Ty.substitute, Ty.substituteAll_eq_map]
    exact unionOf (List.forall_mem_map.mpr ih)
  | function _ _ ihps ihr =>
    rw [Ty.substitute, Ty.substituteAll_eq_map]
    exact .function (List.forall_mem_map.mpr ihps) ihr

end Applied

namespace Definite

/-- A class with as many definite arguments as parameters is definite. -/
theorem of_length {d : DeclRef} {args : List Ty}
    (hd : (env.classDef d : Option ClassDef).map (·.typeParams.length) = some args.length)
    (hargs : ∀ a ∈ args, env.Definite a) : env.Definite (.class d args) := by
  obtain ⟨c, hc, hlength⟩ := Option.map_eq_some_iff.mp hd
  exact .class hc hlength.symm hargs

theorem class_inv {d : DeclRef} {args : List Ty} (h : env.Definite (.class d args)) :
    ∃ c, env.classDef d = some c ∧ args.length = c.typeParams.length ∧
      ∀ a ∈ args, env.Definite a := by
  cases h with
  | «class» hd hlength hargs => exact ⟨_, hd, hlength, hargs⟩

theorem function_inv {ps : List Ty} {r : Ty} (h : env.Definite (.function ps r)) :
    (∀ p ∈ ps, env.Definite p) ∧ env.Definite r := by
  cases h with
  | function hps hr => exact ⟨hps, hr⟩

end Definite

/-! ## Ways up -/

variable (env)

/-- A class hands its parameters on in the arguments of a superclass, covariant ones in covariant
places. -/
def HandsOn (c : ClassDef) (d : DeclRef) (given : List Ty) : Prop :=
  ∃ c', env.classDef d = some c' ∧ ∀ (j : Nat) (a : Ty), given[j]? = some a →
    ∃ i name, a = .param ⟨c.decl.site, i, name⟩ ∧
      (c.typeParams[i]?).map (·.variance) = some .covariant ∧
      (c'.typeParams[j]?).map (·.variance) = some .covariant

/-- An environment of finitely many classes, none of them above itself, each of which has no
parameters or hands them on. -/
structure IsStraight : Prop extends env.IsClassed where
  applied : ∀ {d c s}, env.classDef d = some c → c.superclass = some s → env.Applied s
  handsOn : ∀ {d c d' given}, env.classDef d = some c → c.superclass = some (.class d' given) →
    c.typeParams = [] ∨ env.HandsOn c d' given
  acyclic : ∀ d, ¬Relation.TransGen env.Extends d d
  finite : ∃ sites : List Site, sites.length ≤ env.classCount ∧
    ∀ d c, env.classDef d = some c → d.site ∈ sites

/-- A way up from a class with arguments to another one. -/
def Up : DeclRef × List Ty → DeclRef × List Ty → Prop :=
  Relation.ReflTransGen fun e e' => env.above? e.1 e.2 = some e'

variable {env}

theorem above?_eq_some_iff {d d' : DeclRef} {args args' : List Ty} :
    env.above? d args = some (d', args') ↔ ∃ c, env.classDef d = some c ∧
      ∃ given : List Ty, c.superclass = some (.class d' given) ∧
        given.map (Ty.substitute env.base c.decl.site args) = args' := by
  constructor
  · intro habove
    rw [above?] at habove
    split at habove
    · cases habove
    next c hc =>
    split at habove
    · next hsuper =>
      cases habove
      exact ⟨c, hc, _, hsuper, rfl⟩
    · cases habove
  · rintro ⟨c, hc, given, hsuper, rfl⟩
    simp [above?, hc, hsuper]

theorem Up.extends {e e' : DeclRef × List Ty} (h : env.Up e e') :
    Relation.ReflTransGen env.Extends e.1 e'.1 :=
  Relation.ReflTransGen.lift Prod.fst (fun _ _ habove => extends_of_above habove) _ _ h

/-! ## Ancestors and ways up -/

section Classed

variable (h : env.IsClassed)
include h

theorem up_of_climb {target : Site} {n : Nat} {seen : List Site} {d : DeclRef}
    {args view : List Ty} (hview : env.climb target n seen d args = some view) :
    ∃ d', d'.site = target ∧ env.Up (d, args) (d', view) := by
  induction n generalizing seen d args with
  | zero =>
    rcases (climb_eq_some_iff h).mp hview with ⟨hs, rfl⟩ | ⟨-, -, k, d', args', hk, -⟩
    · exact ⟨d, hs, .refl⟩
    · omega
  | succ n ih =>
    rcases (climb_eq_some_iff h).mp hview with ⟨hs, rfl⟩ | ⟨-, -, k, d', args', hk, habove, hview⟩
    · exact ⟨d, hs, .refl⟩
    obtain rfl : n = k := by omega
    obtain ⟨e, he, hup⟩ := ih hview
    exact ⟨e, he, .head habove hup⟩

/-- The way up from a class depends on its place only. -/
theorem up_congr {d d' e : DeclRef} {args view : List Ty} (hsite : d.site = d'.site)
    (hup : env.Up (d, args) (e, view)) : ∃ e', e'.site = e.site ∧ env.Up (d', args) (e', view) := by
  rcases hup.cases_head with heq | ⟨x, habove, hrest⟩
  · cases heq
    exact ⟨d', hsite.symm, .refl⟩
  · exact ⟨e, rfl, .head (above_congr h hsite args ▸ habove) hrest⟩

/-- What a class is below depends on its place only. -/
theorem extends_congr {d d' e : DeclRef} (hsite : d.site = d'.site) (hext : env.Extends d e) :
    env.Extends d' e := by
  obtain ⟨c, args, hc, hsuper⟩ := hext
  exact ⟨c, args, h.classDef_congr hsite ▸ hc, hsuper⟩

end Classed

section Straight

variable (h : env.IsStraight)
include h

/-- A class is not below the place where it stands. -/
theorem site_ne_of_transGen {d e : DeclRef} (hpath : Relation.TransGen env.Extends d e) :
    d.site ≠ e.site := by
  intro hsite
  obtain ⟨x, hext, hrest⟩ := Relation.TransGen.head'_iff.mp hpath
  exact h.acyclic e (.head' (extends_congr h.toIsClassed hsite hext) hrest)

/-- There are at most as many different classes below others as there are definitions. -/
theorem length_le_classCount {z : DeclRef} {ds : List DeclRef} (hnodup : (ds.map (·.site)).Nodup)
    (hbelow : ∀ d ∈ ds, Relation.TransGen env.Extends d z) :
    ds.length ≤ env.classCount := by
  obtain ⟨sites, hcount, hsites⟩ := h.finite
  have hsubset : ds.map (·.site) ⊆ sites := by
    intro site hsite
    obtain ⟨d, hd, rfl⟩ := List.mem_map.mp hsite
    obtain ⟨_, ⟨c, _, hc, -⟩, -⟩ := Relation.TransGen.head'_iff.mp (hbelow d hd)
    exact hsites d c hc
  have hle := (hnodup.subperm hsubset).length_le
  rw [List.length_map] at hle
  exact Nat.le_trans hle hcount

/-- A way up is climbed to its end: the classes on it are different ones, and a climb may take as
many steps as there are classes. -/
theorem climb_of_up {x y : DeclRef × List Ty} (hup : env.Up x y) {n : Nat} {seen : List DeclRef}
    (hseen : ∀ e ∈ seen, Relation.TransGen env.Extends e x.1) (hnodup : (seen.map (·.site)).Nodup)
    (hn : n + seen.length > env.classCount) :
    env.climb y.1.site n (seen.map (·.site)) x.1 x.2 = some y.2 := by
  induction hup using Relation.ReflTransGen.head_induction_on generalizing n seen with
  | refl => exact (climb_eq_some_iff h.toIsClassed).mpr (.inl ⟨rfl, rfl⟩)
  | @head x z habove hrest ih =>
    have hext : env.Extends x.1 z.1 := extends_of_above habove
    have hpath : Relation.TransGen env.Extends x.1 y.1 := .head' hext (Up.extends hrest)
    -- the classes seen are below this one, so meeting it again would close a cycle
    have hnot : x.1.site ∉ seen.map (·.site) := by
      intro hmem
      obtain ⟨e, he, hsite⟩ := List.mem_map.mp hmem
      exact site_ne_of_transGen h (hseen e he) hsite
    have hnodup' : ((x.1 :: seen).map (·.site)).Nodup := List.nodup_cons.mpr ⟨hnot, hnodup⟩
    have hbelow : ∀ e ∈ x.1 :: seen, Relation.TransGen env.Extends e z.1 := by
      intro e he
      rcases List.mem_cons.mp he with rfl | he
      · exact .single hext
      · exact (hseen e he).tail hext
    have hcount := length_le_classCount h hnodup' hbelow
    have hlength : (x.1 :: seen).length = seen.length + 1 := rfl
    have hclimb := ih hbelow hnodup' (n := n - 1) (by omega)
    exact (climb_eq_some_iff h.toIsClassed).mpr (.inr ⟨site_ne_of_transGen h hpath, hnot, n - 1,
      z.1, z.2, by omega, habove, hclimb⟩)

/-- The ancestors of a class are the classes that ways up lead to. -/
theorem asSupertype?_eq_some_iff {d f : DeclRef} {args view : List Ty} :
    env.asSupertype? (.class d args) f = some view ↔
      ∃ e, e.site = f.site ∧ env.Up (d, args) (e, view) := by
  constructor
  · exact up_of_climb h.toIsClassed
  · rintro ⟨e, hsite, hup⟩
    have hclimb := @climb_of_up env h _ _ hup (Nat.succ env.classCount) [] (List.forall_mem_nil _)
      List.nodup_nil (Nat.lt_succ_self _)
    rw [hsite] at hclimb
    exact hclimb

/-! ## Arguments on the way up -/

theorem applied_above {d d' : DeclRef} {args args' : List Ty} (hargs : env.Applied (.class d args))
    (habove : env.above? d args = some (d', args')) : env.Applied (.class d' args') := by
  obtain ⟨c, hc, given, hsuper, rfl⟩ := above?_eq_some_iff.mp habove
  have hgiven := (h.applied hc hsuper).substitute c.decl.site hargs.class_inv.2
  rwa [Ty.substitute, Ty.substituteAll_eq_map] at hgiven

theorem applied_up {x y : DeclRef × List Ty} (hup : env.Up x y)
    (hx : env.Applied (.class x.1 x.2)) : env.Applied (.class y.1 y.2) := by
  induction hup with
  | refl => exact hx
  | tail _ habove ih => exact applied_above h ih habove

end Straight

variable (env) in
/-- Arguments of a class agree with others, each as its parameter varies, and each of the others is
the same or definite. -/
structure IsNarrower (d : DeclRef) (v w : List Ty) : Prop where
  applied_left : env.Applied (.class d v)
  applied_right : env.Applied (.class d w)
  args : ArgsFollow env.Subtype (env.classDef d) v w
  definite : ∀ i, argAt v i = argAt w i ∨ env.Definite (argAt w i)
  length_le : v.length ≤ w.length

/-- An argument in a place is the same, or the other one is definite and not missing. -/
theorem IsNarrower.cases {d : DeclRef} {v w : List Ty} (h : env.IsNarrower d v w) (i : Nat) :
    argAt v i = argAt w i ∨ env.Definite (argAt w i) ∧ i < w.length := by
  refine (h.definite i).imp_right fun hdefinite => ⟨hdefinite, ?_⟩
  by_contra hle
  rw [argAt, List.getElem?_eq_none (Nat.le_of_not_lt hle)] at hdefinite
  cases hdefinite

/-- Without parameters there are no arguments. -/
theorem IsNarrower.eq_of_typeParams {d : DeclRef} {c : ClassDef} {v w : List Ty}
    (h : env.IsNarrower d v w) (hc : env.classDef d = some c) (hnone : c.typeParams = []) :
    v = w := by
  have hv := h.applied_left.class_inv.1 c hc
  have hw := h.applied_right.class_inv.1 c hc
  rw [hnone] at hv hw
  rw [List.eq_nil_of_length_eq_zero (Nat.le_zero.mp hv),
    List.eq_nil_of_length_eq_zero (Nat.le_zero.mp hw)]

/-- Where the parameter is covariant an argument is below the other one. -/
theorem IsNarrower.covariant {d : DeclRef} {c : ClassDef} {v w : List Ty} {i : Nat}
    (h : env.IsNarrower d v w) (hc : env.classDef d = some c)
    (hi : (c.typeParams[i]?).map (·.variance) = some .covariant) :
    env.Subtype (argAt v i) (argAt w i) := by
  rcases h.cases i with heq | ⟨-, hlt⟩
  · rw [heq]
    exact .refl _
  · have hvw := h.args i (Nat.lt_of_lt_of_le hlt (Nat.le_max_right _ _))
    rw [hc] at hvw
    simpa only [varianceIn_eq hi] using hvw

/-- What is handed on is narrower again: without parameters it is the same, and a parameter is
handed on as it is. -/
theorem IsNarrower.above (h : env.IsStraight) {d d' : DeclRef} {v w w' : List Ty}
    (hvw : env.IsNarrower d v w) (habove : env.above? d w = some (d', w')) :
    ∃ v', env.above? d v = some (d', v') ∧ env.IsNarrower d' v' w' := by
  obtain ⟨c, hc, given, hsuper, rfl⟩ := above?_eq_some_iff.mp habove
  have habove' : env.above? d v =
      some (d', given.map (Ty.substitute env.base c.decl.site v)) :=
    above?_eq_some_iff.mpr ⟨c, hc, given, hsuper, rfl⟩
  refine ⟨_, habove', applied_above h hvw.applied_left habove',
    applied_above h hvw.applied_right habove, ?_, ?_, by simp⟩
  · intro j hj
    have hlt : j < given.length := by simpa using hj
    have hg : given[j]? = some given[j] := List.getElem?_eq_getElem hlt
    -- either there are no parameters, or each argument of the superclass is one of them
    rcases h.handsOn hc hsuper with hnone | ⟨c', hc', hgiven⟩
    · rw [hvw.eq_of_typeParams hc hnone]
      exact ArgsFollow.refl .refl _ _ j (by simpa using hlt)
    · obtain ⟨i, name, hparam, hi, hj'⟩ := hgiven j _ hg
      obtain ⟨p, hp, -⟩ := Option.map_eq_some_iff.mp hi
      rw [argAt_map hg, argAt_map hg, hparam, hc', varianceIn_eq hj']
      simp only [Ty.substitute, if_true]
      exact hvw.covariant hc hi
  · intro j
    cases hg : given[j]? with
    | none => exact .inl (by simp [argAt, hg])
    | some a =>
      rw [argAt_map hg, argAt_map hg]
      rcases h.handsOn hc hsuper with hnone | ⟨c', hc', hgiven⟩
      · exact .inl (by rw [hvw.eq_of_typeParams hc hnone])
      · obtain ⟨i, name, rfl, -⟩ := hgiven j a hg
        simp only [Ty.substitute, if_true]
        exact hvw.definite i

theorem IsNarrower.up (h : env.IsStraight) {d : DeclRef} {v w : List Ty}
    {y : DeclRef × List Ty} (hvw : env.IsNarrower d v w) (hup : env.Up (d, w) y) :
    ∃ v', env.Up (d, v) (y.1, v') ∧ env.IsNarrower y.1 v' y.2 := by
  induction hup with
  | refl => exact ⟨v, .refl, hvw⟩
  | tail _ habove ih =>
    obtain ⟨v', hup', hvw'⟩ := ih
    obtain ⟨v'', habove', hvw''⟩ := hvw'.above h habove
    exact ⟨v'', hup'.tail habove', hvw''⟩

end TypeEnv

end PklAnalysis
