import Mathlib.Data.List.Perm.Subperm
import PklAnalysis.Proofs.Lattice.LosingPrecision
import PklAnalysis.Proofs.Lattice.SubstitutedUnions

/-!
# Two walks along superclasses

`TypeEnv.ancestors` follows superclasses as they are written, `TypeEnv.asSupertype?` puts arguments
in before it expands aliases.  As an alias mentions only its own parameters, putting arguments in
after an expansion is the same (`TypeEnv.expandFrom_substitute`), and where the expansion is a class
no parameter has come to the head.  So both walks go over the same classes, with the same classes
behind them, as long as the arguments are unions of themselves.  They stay so on the way up, unless
a superclass has `Null` with arguments among its own ones.
-/

namespace PklAnalysis

namespace TypeEnv

variable (env : TypeEnv Id)

/-- What a class hands on to its superclass is no `Null` with arguments. -/
def HandsNoNull (given : List Ty) : Prop :=
  ∀ a ∈ given, env.base.isNull a = true → a = env.base.nullType

/-- An environment of finitely many classes, each found at its own place, whose superclasses expand
to classes and whose aliases mention only their own parameters. -/
structure IsClimbable : Prop where
  classDef_congr : ∀ {d d'}, d.site = d'.site → env.classDef d = env.classDef d'
  site_eq : ∀ {d c}, env.classDef d = some c → c.decl.site = d.site
  finite : ∃ sites : List Site, sites.length ≤ env.classCount ∧
    ∀ d c, env.classDef d = some c → d.site ∈ sites
  target : ∀ {d a}, env.aliasDef d = some a → a.target.mentionsOnly a.decl.site = true
  superclass : ∀ {d c s}, env.classDef d = some c → c.superclass = some s →
    ∃ d' given, env.expand s = .class d' given ∧ env.HandsNoNull given

variable {env}

/-- Arguments that are unions of themselves. -/
def AreUnions (base : BaseTypes) (args : List Ty) : Prop := ∀ a ∈ args, Ty.unionOf base [a] = a

/-- Whatever a class hands on, unions of themselves come out if such are put in. -/
theorem HandsNoNull.areUnions {given args : List Ty} (h : env.HandsNoNull given)
    (hargs : AreUnions env.base args) (owner : Site) :
    AreUnions env.base (given.map (Ty.substitute env.base owner args)) := by
  refine List.forall_mem_map.mpr fun a ha => Ty.unionForm_iff.mp ?_
  cases hnull : env.base.isNull a with
  | true =>
    rw [h a ha hnull]
    exact .null
  | false =>
    cases a with
    -- a substitution normalizes these, whatever they were before
    | union ms => exact Ty.unionForm_unionOf _
    | nullable t => exact Ty.unionForm_unionOf _
    | unknown => exact .unknown
    | nothing => exact .nothing
    | _ =>
      exact Ty.UnionForm.substitute hargs
        (.alternatives (.single (Ty.isMember_iff.mpr ⟨rfl, nofun, hnull⟩)))

/-! ## Steps of a chain -/

/-- The class above a class, by the superclass as it is written. -/
def writtenSuper? (c : ClassDef) : Option ClassDef :=
  match c.superclass with
  | none => none
  | some s =>
    match (env.expand s : Ty) with
    | .class d _ => env.classDef d
    | _ => none

theorem chainFrom_none (n : Nat) (seen : List Site) :
    env.chainFrom n seen none = (⟨[], false⟩ : AncestorChain) := by
  cases n <;> rfl

theorem chainFrom_of_mem (n : Nat) {seen : List Site} {c : ClassDef} (hc : c.decl.site ∈ seen) :
    env.chainFrom n seen (some c) = (⟨[], true⟩ : AncestorChain) := by
  cases n <;> rw [chainFrom, if_pos (List.contains_iff_mem.mpr hc)] <;> rfl

theorem contains_chainFrom_succ (n : Nat) {seen : List Site} {c : ClassDef}
    (hc : c.decl.site ∉ seen) (site : Site) :
    (env.chainFrom (n + 1) seen (some c)).contains site = true ↔ c.decl.site = site ∨
      (env.chainFrom n (c.decl.site :: seen) (env.writtenSuper? c)).contains site = true := by
  have hstep : env.chainFrom (n + 1) seen (some c) =
      (let rest := env.chainFrom n (c.decl.site :: seen) (env.writtenSuper? c)
      ⟨c :: rest.classes, rest.isCyclic⟩ : AncestorChain) := by
    rw [chainFrom, if_neg (mt List.contains_iff_mem.mp hc), writtenSuper?]
    cases c.superclass with
    | none => rfl
    | some s =>
      dsimp only
      generalize env.expand s = x
      cases x <;> rfl
  rw [hstep, AncestorChain.contains, List.any_cons, Bool.or_eq_true, decide_eq_true_eq]
  rfl

/-! ## Expansion -/

section Climbable

variable (h : env.IsClimbable)
include h

/-- An alias mentions nothing that could be put in, apart from its arguments. -/
theorem unfold_substitute {owner : Site} {args : List Ty} (hargs : AreUnions env.base args)
    (d : DeclRef) (as : List Ty) : (env.unfold d as).substitute env.base owner args =
      env.unfold d (as.map (Ty.substitute env.base owner args)) := by
  rw [unfold, unfold]
  split
  · next a ha => exact Ty.substitute_of_mentionsOnly hargs as (h.target ha)
  · rfl

/-- Where an expansion leads to a class, arguments may be put in before it or afterwards. -/
theorem expandFrom?_substitute {owner : Site} {args : List Ty} (hargs : AreUnions env.base args)
    {n : Nat} {seen : List Site} {t : Ty} {d : DeclRef} {given : List Ty}
    (ht : env.expandFrom? n seen t = some (.class d given)) :
    env.expandFrom? n seen (t.substitute env.base owner args) =
      some (.class d (given.map (Ty.substitute env.base owner args))) := by
  induction n generalizing seen t with
  | zero =>
    cases t with
    | «class» =>
      cases ht
      rw [Ty.substitute, Ty.substituteAll_eq_map]
      rfl
    | typeAlias =>
      rw [expandFrom?] at ht
      split at ht <;> cases ht
    | _ => cases ht
  | succ n ih =>
    cases t with
    | «class» =>
      cases ht
      rw [Ty.substitute, Ty.substituteAll_eq_map]
      rfl
    | typeAlias d' as =>
      rw [expandFrom?_alias] at ht
      rw [Ty.substitute, Ty.substituteAll_eq_map, expandFrom?_alias]
      split at ht
      · cases ht
      · next hseen => rw [if_neg hseen, ← unfold_substitute h hargs, ih ht]
    | _ => cases ht

theorem expand_substitute {owner : Site} {args : List Ty} (hargs : AreUnions env.base args)
    {t : Ty} {d : DeclRef} {given : List Ty} (ht : env.expand t = .class d given) :
    env.expand (t.substitute env.base owner args) =
      .class d (given.map (Ty.substitute env.base owner args)) := by
  rw [expand_eq] at ht ⊢
  cases hexp : env.expand? t with
  | none =>
    rw [hexp] at ht
    cases ht
  | some x =>
    rw [hexp] at ht
    cases ht
    rw [expand?, expandFrom?_substitute h hargs hexp]
    rfl

/-! ## Both walks -/

/-- Different classes are no more than there are definitions. -/
theorem IsClimbable.length_le_classCount {seen : List Site} (hnodup : seen.Nodup)
    (hseen : ∀ s ∈ seen, ∃ d c, d.site = s ∧ env.classDef d = some c) :
    seen.length ≤ env.classCount := by
  obtain ⟨sites, hcount, hsites⟩ := h.finite
  have hsubset : seen ⊆ sites := by
    intro s hs
    obtain ⟨d, c, rfl, hc⟩ := hseen s hs
    exact hsites d c hc
  exact Nat.le_trans (hnodup.subperm hsubset).length_le hcount

/-- From a class on, with room for all classes that have not been met, the walk without arguments
meets a defined class exactly if the walk with arguments comes to it. -/
theorem contains_chainFrom_iff {target : DeclRef} {e : ClassDef}
    (htarget : env.classDef target = some e) {n : Nat} {seen : List Site}
    {d : DeclRef} {args : List Ty} (hargs : AreUnions env.base args) (hnodup : seen.Nodup)
    (hnot : target.site ∉ seen)
    (hseen : ∀ s ∈ seen, ∃ d c, d.site = s ∧ env.classDef d = some c)
    (hn : n + seen.length > env.classCount) :
    (env.chainFrom n seen (env.classDef d)).contains target.site = true ↔
      (env.climb target.site n seen d args : Option (List Ty)).isSome := by
  induction n generalizing seen d args with
  | zero =>
    have hle := h.length_le_classCount hnodup hseen
    omega
  | succ n ih =>
    rw [climb_step]
    by_cases hd : d.site = target.site
    · rw [h.classDef_congr hd, htarget, contains_chainFrom_succ n (h.site_eq htarget ▸ hnot),
        h.site_eq htarget, if_pos hd]
      exact iff_of_true (.inl rfl) rfl
    rw [if_neg hd]
    by_cases hmet : d.site ∈ seen
    · obtain ⟨d', c, hsite, hc⟩ := hseen _ hmet
      rw [h.classDef_congr hsite.symm, hc,
        chainFrom_of_mem _ (by rw [h.site_eq hc, hsite]; exact hmet),
        if_pos (List.contains_iff_mem.mpr hmet)]
      exact iff_of_false Bool.false_ne_true Bool.false_ne_true
    rw [if_neg (mt List.contains_iff_mem.mp hmet)]
    cases hc : (env.classDef d : Option ClassDef) with
    | none =>
      rw [chainFrom_none]
      exact iff_of_false Bool.false_ne_true Bool.false_ne_true
    | some c =>
      have hsite : c.decl.site = d.site := h.site_eq hc
      rw [contains_chainFrom_succ n (hsite ▸ hmet), hsite, or_iff_right hd, writtenSuper?]
      cases hsuper : c.superclass with
      | none =>
        simp only [hsuper, chainFrom_none]
        exact iff_of_false Bool.false_ne_true Bool.false_ne_true
      | some s =>
        obtain ⟨d', given, hexpand, hgiven⟩ := h.superclass hc hsuper
        simp only [hsuper, hexpand]
        rw [expand_substitute h hargs hexpand]
        have hseen' : ∀ s ∈ d.site :: seen, ∃ d c, d.site = s ∧ env.classDef d = some c :=
          List.forall_mem_cons.mpr ⟨⟨d, c, rfl, hc⟩, hseen⟩
        refine ih (hgiven.areUnions hargs _) (List.nodup_cons.mpr ⟨hmet, hnodup⟩)
          (fun hmem => (List.mem_cons.mp hmem).elim (Ne.symm hd) hnot) hseen' ?_
        rw [List.length_cons]
        omega

/-- A class has another one among its ancestors exactly if it can be seen as that one, whatever its
arguments are, as long as they are unions of themselves. -/
theorem contains_ancestors_iff {c d : DeclRef} {e : ClassDef} (hd : env.classDef d = some e)
    {args : List Ty} (hargs : AreUnions env.base args) :
    (env.ancestors c).contains d.site = true ↔
      (env.asSupertype? (.class c args) d : Option (List Ty)).isSome :=
  contains_chainFrom_iff h hd hargs List.nodup_nil List.not_mem_nil (List.forall_mem_nil _)
    (Nat.lt_succ_self _)

end Climbable

end TypeEnv

/-- The arguments of a class. -/
def Ty.classArgs : Ty → List Ty
  | .class _ args => args
  | _ => []

namespace TypeTable

open TypeEnv

/-! ## Tables -/

/-- Every class of a table stands under its own place. -/
def IsFiled (t : TypeTable) : Prop := ∀ e ∈ t.classes, e.2.decl.site = e.1

theorem isFiled_withBase : withBase.IsFiled := by
  unfold IsFiled
  decide

theorem IsFiled.reserve {t : TypeTable} (h : t.IsFiled) (name : String) :
    (t.reserve name).2.IsFiled := h

theorem IsFiled.defineClass {t : TypeTable} (h : t.IsFiled) (d : DeclRef) (params : List TypeParam)
    (superclass : Option Ty) : (t.defineClass d params superclass).IsFiled :=
  List.forall_mem_cons.mpr ⟨rfl, h⟩

theorem IsFiled.defineAlias {t : TypeTable} (h : t.IsFiled) (d : DeclRef) (params : List TypeParam)
    (target : Ty) : (t.defineAlias d params target).IsFiled := h

theorem IsFiled.addClass {t : TypeTable} (h : t.IsFiled) (name : String) (superclass : Option Ty) :
    (t.addClass name superclass).2.IsFiled := (h.reserve name).defineClass _ _ _

theorem IsFiled.addAlias {t : TypeTable} (h : t.IsFiled) (name : String) (target : Ty) :
    (t.addAlias name target).2.IsFiled := h

/-- The targets of the aliases of a table mention only the parameters of their own alias. -/
def AliasesMentionOwn (t : TypeTable) : Prop :=
  ∀ d a, t.env.aliasDef d = some a → a.target.mentionsOnly a.decl.site = true

/-- The superclasses of a table expand to classes. -/
def SuperclassesExpand (t : TypeTable) : Prop :=
  ∀ d c s, t.env.classDef d = some c → c.superclass = some s →
    ∃ d' given, t.env.expand s = .class d' given

/-- No superclass of a table, once it is expanded, has `Null` with arguments among its own ones. -/
def SuperclassesHandNoNull (t : TypeTable) : Prop :=
  ∀ d c s d' given, t.env.classDef d = some c → c.superclass = some s →
    t.env.expand s = .class d' given → t.env.HandsNoNull given

theorem aliasesMentionOwn_of_mem {t : TypeTable}
    (h : ∀ e ∈ t.aliases, e.2.target.mentionsOnly e.2.decl.site = true) : t.AliasesMentionOwn := by
  intro d a ha
  exact h _ (mem_of_lookup ha)

theorem superclassesExpand_of_mem {t : TypeTable}
    (h : ∀ e ∈ t.classes, ∀ s ∈ e.2.superclass, Ty.isClass (t.env.expand s) = true) :
    t.SuperclassesExpand := by
  intro d c s hc hs
  have hclass := h _ (mem_of_lookup hc) s hs
  generalize t.env.expand s = x at hclass
  cases x with
  | «class» d' given => exact ⟨d', given, rfl⟩
  | _ => exact (Bool.false_ne_true hclass).elim

theorem superclassesHandNoNull_of_mem {t : TypeTable}
    (h : ∀ e ∈ t.classes, ∀ s ∈ e.2.superclass, ∀ a ∈ Ty.classArgs (t.env.expand s),
      t.base.isNull a = true → a = t.base.nullType) : t.SuperclassesHandNoNull := by
  intro d c s d' given hc hs hexpand a ha
  refine h _ (mem_of_lookup hc) s hs a ?_
  rw [hexpand]
  exact ha

theorem isClimbable_env {t : TypeTable} (hfiled : t.IsFiled) (haliases : t.AliasesMentionOwn)
    (hsupers : t.SuperclassesExpand) (hnull : t.SuperclassesHandNoNull) : t.env.IsClimbable where
  classDef_congr hsite := congrArg (fun site => t.classes.lookup site) hsite
  site_eq hc := hfiled _ (mem_of_lookup hc)
  finite := ⟨t.classes.map (·.1), Nat.le_of_eq (List.length_map _), fun _ _ hc =>
    List.mem_map_of_mem (mem_of_lookup hc)⟩
  target ha := haliases _ _ ha
  superclass hc hs := by
    obtain ⟨d', given, hexpand⟩ := hsupers _ _ _ hc hs
    exact ⟨d', given, hexpand, hnull _ _ _ _ _ hc hs hexpand⟩

/-- A class of a table has another one among its ancestors exactly if it can be seen as that one
with its arguments, if these are unions of themselves. -/
theorem ancestors_agree_with_views (t : TypeTable) (hfiled : t.IsFiled)
    (haliases : t.AliasesMentionOwn) (hsupers : t.SuperclassesExpand)
    (hnull : t.SuperclassesHandNoNull) (c d : DeclRef)
    (hd : (t.env.classDef d : Option ClassDef).isSome) (args : List Ty)
    (hargs : AreUnions t.base args) :
    (t.env.ancestors c).contains d.site = true ↔
      (t.env.asSupertype? (.class c args) d : Option (List Ty)).isSome := by
  obtain ⟨e, he⟩ := Option.isSome_iff_exists.mp hd
  exact contains_ancestors_iff (isClimbable_env hfiled haliases hsupers hnull) he hargs

/-! ## Boxes and holders -/

/-- A type alias for a box of one of two types, in which the first one is mentioned twice. -/
def eitherBox : DeclRef := ⟨⟨baseModule, 30⟩, "EitherBox"⟩

/-- A class below that of its holders, with which it forms a cycle. -/
def box : DeclRef := ⟨⟨baseModule, 31⟩, "Box"⟩

/-- A class below the boxes of either of its parameter and its parameter. -/
def holder : DeclRef := ⟨⟨baseModule, 32⟩, "Holder"⟩

/-- The base table with these. -/
def withHolders : TypeTable :=
  let left : Ty := .param ⟨eitherBox.site, 0, "Left"⟩
  let right : Ty := .param ⟨eitherBox.site, 1, "Right"⟩
  let value (d : DeclRef) : Ty := .param ⟨d.site, 0, "Value"⟩
  ((withBase.defineAlias eitherBox [outParam "Left", outParam "Right"]
      (.union [.class box [left], .class box [.union [left, right]]])).defineClass
    box [outParam "Value"] (some (.class holder [value box]))).defineClass
    holder [outParam "Value"] (some (.typeAlias eitherBox [value holder, value holder]))

theorem isFiled_withHolders : withHolders.IsFiled :=
  ((isFiled_withBase.defineAlias _ _ _).defineClass _ _ _).defineClass _ _ _

/-- A holder of numbers is a box of numbers, though boxes are holders in turn. -/
theorem ancestors_agree_with_views_holder :
    let int : Ty := .class baseTypes.int []
    (withHolders.env.ancestors holder).isCyclic = true ∧
    (withHolders.env.ancestors holder).contains box.site = true ∧
    ((withHolders.env.ancestors holder).contains box.site = true ↔
      (withHolders.env.asSupertype? (.class holder [int]) box : Option (List Ty)).isSome) := by
  intro int
  refine ⟨by decide, by decide, ?_⟩
  exact ancestors_agree_with_views withHolders isFiled_withHolders
    (aliasesMentionOwn_of_mem (by decide)) (superclassesExpand_of_mem (by decide))
    (superclassesHandNoNull_of_mem (by decide)) holder box (by decide) [int]
    (List.forall_mem_singleton.mpr (by decide))

/-- A class below the holders of `Null` with an argument. -/
def nullHolder : DeclRef := ⟨⟨baseModule, 33⟩, "NullHolder"⟩

def withNullHolder : TypeTable :=
  withHolders.defineClass nullHolder []
    (some (.class holder [.class baseTypes.null [.class baseTypes.int []]]))

/-- An argument that is no union of itself is told apart from its union with itself, so an alias in
which both stand is no class with it; and so is `Null` with an argument. -/
theorem not_forall_ancestors_agree :
    (¬∀ t : TypeTable, t.IsFiled → t.AliasesMentionOwn → t.SuperclassesExpand →
      ∀ c d : DeclRef, (t.env.classDef c : Option ClassDef).isSome →
      (t.env.classDef d : Option ClassDef).isSome → ∀ args : List Ty,
      ((t.env.ancestors c).contains d.site = true ↔
        (t.env.asSupertype? (.class c args) d : Option (List Ty)).isSome)) ∧
    ¬∀ t : TypeTable, t.IsFiled → t.AliasesMentionOwn → t.SuperclassesExpand →
      ∀ c d : DeclRef, (t.env.classDef c : Option ClassDef).isSome →
      (t.env.classDef d : Option ClassDef).isSome → ∀ args : List Ty, AreUnions t.base args →
      ((t.env.ancestors c).contains d.site = true ↔
        (t.env.asSupertype? (.class c args) d : Option (List Ty)).isSome) := by
  constructor
  · -- a bare union of one type
    intro h
    exact absurd (h withHolders isFiled_withHolders (aliasesMentionOwn_of_mem (by decide))
      (superclassesExpand_of_mem (by decide)) holder box (by decide)
      (by decide) [.union [.class baseTypes.int []]]) (by decide)
  · intro h
    exact absurd (h withNullHolder (isFiled_withHolders.defineClass _ _ _)
      (aliasesMentionOwn_of_mem (by decide)) (superclassesExpand_of_mem (by decide))
      nullHolder box (by decide) (by decide) [] (List.forall_mem_nil _))
      (by decide)

end TypeTable

end PklAnalysis
