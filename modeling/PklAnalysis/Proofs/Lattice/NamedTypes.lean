import PklAnalysis.Lattice.Subtyping

/-!
# The declarations that a type names

`Ty.AllDecls P` holds of a type if every declaration that it names has the property `P`.  Normal
forms, replaced parameters and erasure name no declarations but those of the types that they are
made of and those of the base types.
-/

namespace PklAnalysis

/-- The declarations that the base types name. -/
@[simp]
def BaseTypes.decls (b : BaseTypes) : List DeclRef :=
  [b.any, b.null, b.boolean, b.string, b.number, b.int, b.float, b.duration, b.dataSize, b.object,
    b.typed, b.dynamic, b.module, b.listing, b.mapping, b.collection, b.list, b.set, b.map, b.pair,
    b.regex, b.intSeq, b.function] ++ b.functions

namespace Ty

/-- Every declaration that a type names has a property. -/
inductive AllDecls (P : DeclRef → Prop) : Ty → Prop
  | unknown : AllDecls P .unknown
  | nothing : AllDecls P .nothing
  | literal (text : String) : AllDecls P (.literal text)
  | param (p : ParamRef) : AllDecls P (.param p)
  | nullable {t : Ty} (ht : AllDecls P t) : AllDecls P (.nullable t)
  | class {d : DeclRef} {args : List Ty} (hd : P d) (hargs : ∀ a ∈ args, AllDecls P a) :
      AllDecls P (.class d args)
  | typeAlias {d : DeclRef} {args : List Ty} (hd : P d) (hargs : ∀ a ∈ args, AllDecls P a) :
      AllDecls P (.typeAlias d args)
  | union {ms : List Ty} (hms : ∀ t ∈ ms, AllDecls P t) : AllDecls P (.union ms)
  | function {ps : List Ty} {r : Ty} (hps : ∀ p ∈ ps, AllDecls P p) (hr : AllDecls P r) :
      AllDecls P (.function ps r)

namespace AllDecls

variable {P Q : DeclRef → Prop}

theorem mono (hPQ : ∀ d, P d → Q d) {t : Ty} (h : AllDecls P t) : AllDecls Q t := by
  induction h with
  | unknown => exact .unknown
  | nothing => exact .nothing
  | literal text => exact .literal text
  | param p => exact .param p
  | nullable _ ih => exact .nullable ih
  | «class» hd _ ih => exact .class (hPQ _ hd) ih
  | typeAlias hd _ ih => exact .typeAlias (hPQ _ hd) ih
  | union _ ih => exact .union ih
  | function _ _ ihps ihr => exact .function ihps ihr

theorem plain {d : DeclRef} (hd : P d) : AllDecls P (BaseTypes.plain d) :=
  .class hd (List.forall_mem_nil _)

theorem argAt {args : List Ty} (h : ∀ a ∈ args, AllDecls P a) (i : Nat) :
    AllDecls P (PklAnalysis.argAt args i) := by
  rw [PklAnalysis.argAt]
  cases hi : args[i]? with
  | none => exact .unknown
  | some a => exact h a (List.mem_of_getElem? hi)

theorem erase {t : Ty} (h : AllDecls P t) : AllDecls P t.erase := by
  induction h with
  | unknown => exact .unknown
  | nothing => exact .nothing
  | literal text => exact .literal text
  | param p => exact .unknown
  | nullable _ ih => exact .nullable ih
  | «class» hd _ ih =>
    rw [Ty.erase, eraseAll_eq_map]
    exact .class hd (List.forall_mem_map.mpr ih)
  | typeAlias hd _ ih =>
    rw [Ty.erase, eraseAll_eq_map]
    exact .typeAlias hd (List.forall_mem_map.mpr ih)
  | union _ ih =>
    rw [Ty.erase, eraseAll_eq_map]
    exact .union (List.forall_mem_map.mpr ih)
  | function _ _ ihps ihr =>
    rw [Ty.erase, eraseAll_eq_map]
    exact .function (List.forall_mem_map.mpr ihps) ihr

section Normal

variable {base : BaseTypes} (hbase : ∀ d ∈ base.decls, P d)
include hbase

theorem nullType : AllDecls P base.nullType := .plain (hbase _ (by simp))

theorem stringType : AllDecls P base.stringType := .plain (hbase _ (by simp))

theorem functionView {ps : List Ty} {r : Ty} (hps : ∀ p ∈ ps, AllDecls P p) (hr : AllDecls P r) :
    AllDecls P (base.functionView ps r) := by
  rw [BaseTypes.functionView]
  split
  · next d hd =>
    refine .class (hbase d (List.mem_append_right _ (List.mem_of_getElem? hd))) fun a ha => ?_
    rcases List.mem_append.mp ha with ha | ha
    · exact hps a ha
    · exact List.mem_singleton.mp ha ▸ hr
  · exact .plain (hbase _ (by simp))

theorem leaves {t : Ty} (h : AllDecls P t) : ∀ l ∈ t.leaves base, AllDecls P l := by
  induction h with
  | nothing => exact List.forall_mem_nil _
  | unknown => simpa only [Ty.leaves, List.mem_singleton, forall_eq] using .unknown
  | literal text => simpa only [Ty.leaves, List.mem_singleton, forall_eq] using .literal text
  | param p => simpa only [Ty.leaves, List.mem_singleton, forall_eq] using .param p
  | nullable _ ih => exact List.forall_mem_cons.mpr ⟨.nullType hbase, ih⟩
  | «class» hd hargs _ =>
    simpa only [Ty.leaves, List.mem_singleton, forall_eq] using .class hd hargs
  | typeAlias hd hargs _ =>
    simpa only [Ty.leaves, List.mem_singleton, forall_eq] using .typeAlias hd hargs
  | union _ ih =>
    intro l hl
    rw [Ty.leaves, leavesOfAll_eq_flatMap] at hl
    obtain ⟨t, ht, hl⟩ := List.mem_flatMap.mp hl
    exact ih t ht l hl
  | function hps hr _ _ =>
    simpa only [Ty.leaves, List.mem_singleton, forall_eq] using .function hps hr

omit hbase in
theorem ofMembers {ts : List Ty} (h : ∀ t ∈ ts, AllDecls P t) : AllDecls P (Ty.ofMembers ts) := by
  match ts with
  | [] => exact .nothing
  | [t] => exact h t (List.mem_singleton_self t)
  | t :: u :: ts => exact .union h

theorem unionOf {ts : List Ty} (h : ∀ t ∈ ts, AllDecls P t) : AllDecls P (Ty.unionOf base ts) := by
  have hleaves := leaves hbase (.union h)
  rw [Ty.leaves] at hleaves
  have hmembers : AllDecls P (Ty.ofMembers
      ((leavesOfAll base ts).filter fun t => !base.isNull t).eraseDups) :=
    ofMembers fun t ht => hleaves t (List.mem_filter.mp (List.mem_eraseDups.mp ht)).1
  rw [Ty.unionOf]
  simp only
  split
  · exact .unknown
  · split
    · split
      · exact .nullType hbase
      · exact .nullable hmembers
    · exact hmembers

theorem orNull {t : Ty} (h : AllDecls P t) : AllDecls P (Ty.orNull base t) := by
  refine unionOf hbase fun u hu => ?_
  rcases List.mem_cons.mp hu with rfl | hu
  · exact h
  · rw [List.mem_singleton.mp hu]
    exact .nullType hbase

theorem substitute {t : Ty} (h : AllDecls P t) (owner : Site) {args : List Ty}
    (hargs : ∀ a ∈ args, AllDecls P a) : AllDecls P (t.substitute base owner args) := by
  induction h with
  | unknown => exact .unknown
  | nothing => exact .nothing
  | literal text => exact .literal text
  | param p =>
    rw [Ty.substitute]
    split
    · exact argAt hargs p.index
    · exact .param p
  | nullable _ ih => exact orNull hbase ih
  | «class» hd _ ih =>
    rw [Ty.substitute, substituteAll_eq_map]
    exact .class hd (List.forall_mem_map.mpr ih)
  | typeAlias hd _ ih =>
    rw [Ty.substitute, substituteAll_eq_map]
    exact .typeAlias hd (List.forall_mem_map.mpr ih)
  | union _ ih =>
    rw [Ty.substitute, substituteAll_eq_map]
    exact unionOf hbase (List.forall_mem_map.mpr ih)
  | function _ _ ihps ihr =>
    rw [Ty.substitute, substituteAll_eq_map]
    exact .function (List.forall_mem_map.mpr ihps) ihr

end Normal

end AllDecls

end Ty

end PklAnalysis
