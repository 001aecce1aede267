import Mathlib.Order.Monotone.Basic
import PklAnalysis.Lattice.Members
import PklAnalysis.Proofs.Lattice.NamedTypes
import PklAnalysis.Proofs.Lattice.NormalTypes
import PklAnalysis.Resolution.Declared

/-!
# Renumbered modules

When something is inserted into a module, the nodes behind it get other numbers, and when parts of
it change places, so do the numbers of their nodes.  A `Relabelling` gives the nodes of one module
other numbers and leaves all other modules alone; a `Renumbering` keeps their order as well.  Places,
types and members are carried over to the new numbers.  Whatever is done with types commutes with
it, as long as the base types stay where they are.
-/

namespace PklAnalysis

/-- New numbers for the nodes of a module, different ones for different nodes. -/
structure Relabelling where
  module : ModuleId
  node : Nat → Nat
  injective : Function.Injective node

/-- New numbers for the nodes of a module, in the same order. -/
structure Renumbering extends Relabelling where
  strictMono : StrictMono node
  injective := strictMono.injective

/-- Equal values are found again among equal ones if different ones stay different. -/
theorem eraseDups_map {α β : Type} [BEq α] [LawfulBEq α] [BEq β] [LawfulBEq β] {f : α → β}
    (hf : Function.Injective f) (l : List α) : (l.map f).eraseDups = l.eraseDups.map f := by
  induction h : l.length using Nat.strong_induction_on generalizing l with
  | _ n ih =>
    cases l with
    | nil => rfl
    | cons a l =>
      have hshort : (l.filter fun b => !b == a).length < n := by
        have hle := List.length_filter_le (fun b => !b == a) l
        rw [List.length_cons] at h
        omega
      have hfilter : (l.map f).filter (fun b => !b == f a) =
          (l.filter fun b => !b == a).map f := by
        rw [List.filter_map]
        refine congrArg _ (List.filter_congr fun b _ => ?_)
        simp [hf.eq_iff]
      rw [List.map_cons, List.eraseDups_cons, List.eraseDups_cons, List.map_cons, hfilter,
        ih _ hshort _ rfl]

namespace Relabelling

variable (r : Relabelling)

def site (s : Site) : Site := if s.module = r.module then ⟨s.module, r.node s.node⟩ else s

def decl (d : DeclRef) : DeclRef := { d with site := r.site d.site }

def param (p : ParamRef) : ParamRef := { p with owner := r.site p.owner }

mutual

def ty : Ty → Ty
  | .unknown => .unknown
  | .nothing => .nothing
  | .literal s => .literal s
  | .param p => .param (r.param p)
  | .nullable a => .nullable (ty a)
  | .class d as => .class (r.decl d) (tys as)
  | .typeAlias d as => .typeAlias (r.decl d) (tys as)
  | .union ms => .union (tys ms)
  | .function ps t => .function (tys ps) (ty t)

def tys : List Ty → List Ty
  | [] => []
  | t :: ts => ty t :: tys ts

end

def member (m : MemberDef) : MemberDef :=
  { m with site := r.site m.site, owner := r.decl m.owner }

def declared (d : Declared) : Declared := { d with site := r.site d.site }

theorem tys_eq_map (ts : List Ty) : r.tys ts = ts.map r.ty := by
  induction ts with
  | nil => rfl
  | cons t ts ih => rw [tys, ih, List.map_cons]

/-! ## Places -/

@[simp] theorem module_site (s : Site) : (r.site s).module = s.module := by
  rw [site]
  split <;> rfl

theorem site_of_ne {s : Site} (h : s.module ≠ r.module) : r.site s = s := if_neg h

theorem site_injective : Function.Injective r.site := by
  intro s s' h
  have hmodule : s.module = s'.module := by
    rw [← r.module_site s, h, r.module_site]
  rw [site, site, ← hmodule] at h
  split at h
  · have hnode := r.injective (congrArg Site.node h)
    cases s
    cases s'
    exact congrArg₂ Site.mk hmodule hnode
  · exact h

@[simp] theorem site_inj {s s' : Site} : r.site s = r.site s' ↔ s = s' := r.site_injective.eq_iff

theorem contains_map_site (seen : List Site) (s : Site) :
    (seen.map r.site).contains (r.site s) = seen.contains s := by
  rw [Bool.eq_iff_iff]
  simp

theorem decl_of_ne {d : DeclRef} (h : d.site.module ≠ r.module) : r.decl d = d := by
  rw [decl, r.site_of_ne h]

theorem decl_injective : Function.Injective r.decl := by
  intro d d' h
  have hsite := r.site_injective (congrArg DeclRef.site h)
  have hname := congrArg DeclRef.name h
  cases d
  cases d'
  exact congrArg₂ DeclRef.mk hsite hname

mutual

theorem ty_injective {t t' : Ty} (h : r.ty t = r.ty t') : t = t' := by
  cases t <;> cases t' <;> simp only [ty, reduceCtorEq] at h
  case unknown => rfl
  case nothing => rfl
  case literal => rw [Ty.literal.inj h]
  case param p p' =>
    have hparam := Ty.param.inj h
    have howner := r.site_injective (congrArg ParamRef.owner hparam)
    have hindex := congrArg ParamRef.index hparam
    have hname := congrArg ParamRef.name hparam
    cases p
    cases p'
    simp only [param] at howner hindex hname
    rw [howner, hindex, hname]
  case nullable a a' => rw [ty_injective (Ty.nullable.inj h)]
  case «class» d as d' as' =>
    obtain ⟨hd, has⟩ := Ty.class.inj h
    rw [r.decl_injective hd, tys_injective has]
  case typeAlias d as d' as' =>
    obtain ⟨hd, has⟩ := Ty.typeAlias.inj h
    rw [r.decl_injective hd, tys_injective has]
  case union ms ms' => rw [tys_injective (Ty.union.inj h)]
  case function ps t ps' t' =>
    obtain ⟨hps, ht⟩ := Ty.function.inj h
    rw [tys_injective hps, ty_injective ht]
termination_by structural t

theorem tys_injective {ts ts' : List Ty} (h : r.tys ts = r.tys ts') : ts = ts' := by
  cases ts with
  | nil =>
    cases ts' with
    | nil => rfl
    | cons => cases h
  | cons t ts =>
    cases ts' with
    | nil => cases h
    | cons t' ts' =>
      obtain ⟨ht, hts⟩ := List.cons.inj h
      rw [ty_injective ht, tys_injective hts]
termination_by structural ts

end

/-! ## Types -/

section Types

variable {r}

theorem ty_argAt (args : List Ty) (i : Nat) : r.ty (argAt args i) = argAt (args.map r.ty) i := by
  rw [argAt, argAt, List.getElem?_map]
  cases args[i]? <;> rfl

theorem ty_erase (t : Ty) : r.ty t.erase = (r.ty t).erase := by
  induction t using Ty.byParts with
  | unknown | nothing | literal | param => rfl
  | nullable _ ih => rw [Ty.erase, ty, ty, Ty.erase, ih]
  | class_ d as ih | typeAlias d as ih | union ms ih =>
    simpa [Ty.erase, Ty.eraseAll_eq_map, ty, tys_eq_map] using ih
  | function ps t ihps iht =>
    simpa [Ty.erase, Ty.eraseAll_eq_map, ty, tys_eq_map, iht] using ihps

theorem allDecls_ty {P Q : DeclRef → Prop} (h : ∀ d, P d → Q (r.decl d)) {t : Ty}
    (ht : t.AllDecls P) : (r.ty t).AllDecls Q := by
  induction ht with
  | unknown => exact .unknown
  | nothing => exact .nothing
  | literal text => exact .literal text
  | param p => exact .param _
  | nullable _ ih => exact .nullable ih
  | «class» hd _ ih =>
    rw [ty, tys_eq_map]
    exact .class (h _ hd) (List.forall_mem_map.mpr ih)
  | typeAlias hd _ ih =>
    rw [ty, tys_eq_map]
    exact .typeAlias (h _ hd) (List.forall_mem_map.mpr ih)
  | union _ ih =>
    rw [ty, tys_eq_map]
    exact .union (List.forall_mem_map.mpr ih)
  | function _ _ ihps iht =>
    rw [ty, tys_eq_map]
    exact .function (List.forall_mem_map.mpr ihps) iht

theorem isUnknown_ty (t : Ty) : (r.ty t).isUnknown = t.isUnknown := by
  cases t <;> rfl

theorem ty_ofMembers (ts : List Ty) : r.ty (Ty.ofMembers ts) = Ty.ofMembers (ts.map r.ty) := by
  match ts with
  | [] => rfl
  | [t] => rfl
  | t :: u :: ts => exact congrArg Ty.union (r.tys_eq_map (t :: u :: ts))

section Base

variable {base : BaseTypes} (hbase : ∀ d ∈ base.decls, r.decl d = d)
include hbase

theorem ty_plain {d : DeclRef} (hd : d ∈ base.decls) :
    r.ty (BaseTypes.plain d) = BaseTypes.plain d := by
  rw [BaseTypes.plain, ty, hbase d hd, tys]

theorem ty_functionView (ps : List Ty) (t : Ty) :
    r.ty (base.functionView ps t) = base.functionView (ps.map r.ty) (r.ty t) := by
  rw [BaseTypes.functionView, BaseTypes.functionView, List.length_map]
  cases hd : base.functions[ps.length]? with
  | none => exact ty_plain hbase (by simp)
  | some d =>
    have hdecl := hbase d (List.mem_append_right _ (List.mem_of_getElem? hd))
    rw [ty, hdecl, tys_eq_map, List.map_append, List.map_singleton]

theorem isNull_ty (t : Ty) : base.isNull (r.ty t) = base.isNull t := by
  cases t with
  | «class» d as =>
    have hnull : r.site base.null.site = base.null.site :=
      congrArg DeclRef.site (hbase base.null (by simp))
    refine decide_eq_decide.mpr ?_
    conv_lhs => rw [← hnull]
    exact r.site_inj
  | _ => rfl

theorem leaves_ty (t : Ty) : (r.ty t).leaves base = (t.leaves base).map r.ty := by
  induction t using Ty.byParts with
  | nullable t ih =>
    rw [ty, Ty.leaves, Ty.leaves, List.map_cons, ih]
    exact congrArg (· :: _) (ty_plain hbase (by simp)).symm
  | union ms ih =>
    rw [ty, Ty.leaves, Ty.leaves, Ty.leavesOfAll_eq_flatMap, Ty.leavesOfAll_eq_flatMap, tys_eq_map,
      List.flatMap_map, List.map_flatMap]
    exact congrArg List.flatten (List.map_congr_left ih)
  | _ => rfl

theorem ty_unionOf (ts : List Ty) :
    r.ty (Ty.unionOf base ts) = Ty.unionOf base (ts.map r.ty) := by
  have hleaves : Ty.leavesOfAll base (ts.map r.ty) = (Ty.leavesOfAll base ts).map r.ty := by
    have hunion := leaves_ty hbase (.union ts)
    rwa [ty, Ty.leaves, Ty.leaves, tys_eq_map] at hunion
  have hmembers : (((Ty.leavesOfAll base ts).map r.ty).filter fun t => !base.isNull t).eraseDups =
      (((Ty.leavesOfAll base ts).filter fun t => !base.isNull t).eraseDups).map r.ty := by
    -- members that differ still differ, so no more of them fall together
    rw [List.filter_map, eraseDups_map fun _ _ => r.ty_injective]
    simp only [Function.comp_def, isNull_ty hbase]
  rw [Ty.unionOf, Ty.unionOf, hleaves]
  simp only [hmembers, List.any_map, Function.comp_def, isUnknown_ty, isNull_ty hbase,
    List.isEmpty_map]
  split
  · rfl
  · split
    · split
      · exact ty_plain hbase (by simp)
      · rw [ty, ty_ofMembers]
    · rw [ty_ofMembers]

theorem ty_orNull (t : Ty) : r.ty (Ty.orNull base t) = Ty.orNull base (r.ty t) := by
  rw [Ty.orNull, Ty.orNull, ty_unionOf hbase, List.map_cons, List.map_singleton]
  exact congrArg (fun u => Ty.unionOf base [r.ty t, u]) (ty_plain hbase (by simp))

theorem ty_substitute (owner : Site) (args : List Ty) (t : Ty) :
    r.ty (t.substitute base owner args) =
      (r.ty t).substitute base (r.site owner) (args.map r.ty) := by
  induction t using Ty.byParts with
  | unknown | nothing | literal => rfl
  | param p =>
    rw [ty, Ty.substitute, Ty.substitute, param]
    simp only [site_inj]
    split
    · exact ty_argAt args p.index
    · rfl
  | nullable t ih => rw [ty, Ty.substitute, Ty.substitute, ty_orNull hbase, ih]
  | union ms ih =>
    rw [ty, Ty.substitute, Ty.substitute, ty_unionOf hbase, Ty.substituteAll_eq_map,
      Ty.substituteAll_eq_map, tys_eq_map, List.map_map, List.map_map]
    exact congrArg _ (List.map_congr_left ih)
  | class_ d as ih | typeAlias d as ih =>
    simpa [Ty.substitute, Ty.substituteAll_eq_map, ty, tys_eq_map] using ih
  | function ps t ihps iht =>
    simpa [Ty.substitute, Ty.substituteAll_eq_map, ty, tys_eq_map, iht] using ihps

end Base

end Types

end Relabelling

end PklAnalysis
