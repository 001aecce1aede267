import PklAnalysis.Proofs.Lattice.NearNormal

/-!
# Well-kinded types

A signature says of what sort the declaration at a place is and how many type parameters it has.  A
type is well-kinded under the signatures of some places if every class and type alias in it has as
many arguments as its declaration has parameters, and every type parameter in it is one that its
owner declares.  All that the analysis makes of well-kinded types is well-kinded: normal forms, types
with their parameters replaced or erased, and functions seen as objects.
-/

namespace PklAnalysis

/-- The sorts of declarations that have type parameters. -/
inductive GenericSort where
  | «class»
  | typeAlias
  | method
  deriving DecidableEq, Repr

/-- The sort of a declaration and the number of its type parameters. -/
structure Signature where
  sort : GenericSort
  arity : Nat
  deriving DecidableEq, Repr

namespace BaseTypes

/-- The base types that are used without arguments. -/
def plainDecls (b : BaseTypes) : List DeclRef :=
  [b.any, b.null, b.boolean, b.string, b.int, b.float, b.typed, b.dynamic, b.module, b.function]

/-- Base types are declared with as many parameters as they are given arguments for: none, or those
of a function and its result. -/
structure AreKinded (b : BaseTypes) (sig : Site → Option Signature) : Prop where
  plain : ∀ d ∈ b.plainDecls, sig d.site = some ⟨.class, 0⟩
  functions : ∀ n d, b.functions[n]? = some d → sig d.site = some ⟨.class, n + 1⟩

end BaseTypes

namespace Ty

/-- A type is well-kinded as far as its own constructor goes. -/
def IsKindedAt (sig : Site → Option Signature) : Ty → Prop
  | .class d args => sig d.site = some ⟨.class, args.length⟩
  | .typeAlias d args => sig d.site = some ⟨.typeAlias, args.length⟩
  | .param p => ∃ k ∈ sig p.owner, p.index < k.arity
  | _ => True

instance (sig : Site → Option Signature) : ∀ t : Ty, Decidable (t.IsKindedAt sig)
  | .class d args => inferInstanceAs (Decidable (sig d.site = some ⟨.class, args.length⟩))
  | .typeAlias d args => inferInstanceAs (Decidable (sig d.site = some ⟨.typeAlias, args.length⟩))
  | .param p => inferInstanceAs (Decidable (∃ k ∈ sig p.owner, p.index < k.arity))
  | .unknown | .nothing | .nullable _ | .union _ | .function .. | .literal _ =>
    inferInstanceAs (Decidable True)

/-- A type is well-kinded at every depth. -/
def WellKinded (sig : Site → Option Signature) (t : Ty) : Prop := ∀ u ∈ t.subterms, u.IsKindedAt sig

namespace WellKinded

variable {sig : Site → Option Signature}

/-- More declarations do no harm. -/
theorem mono {sig' : Site → Option Signature} (h : ∀ site k, sig site = some k → sig' site = some k)
    {t : Ty} (ht : t.WellKinded sig) : t.WellKinded sig' := by
  intro u hu
  have hkinded := ht u hu
  cases u with
  | «class» d args => exact h _ _ hkinded
  | typeAlias d args => exact h _ _ hkinded
  | param p =>
    obtain ⟨k, hk, hindex⟩ := hkinded
    exact ⟨k, h _ _ hk, hindex⟩
  | _ => exact trivial

/-! ## Parts -/

theorem unknown : WellKinded sig .unknown := List.forall_mem_singleton.mpr trivial

theorem nothing : WellKinded sig .nothing := List.forall_mem_singleton.mpr trivial

theorem literal (s : String) : WellKinded sig (.literal s) := List.forall_mem_singleton.mpr trivial

theorem param_iff {p : ParamRef} :
    WellKinded sig (.param p) ↔ ∃ k ∈ sig p.owner, p.index < k.arity :=
  List.forall_mem_singleton

theorem nullable_iff {t : Ty} : WellKinded sig (.nullable t) ↔ t.WellKinded sig :=
  List.forall_mem_cons.trans (and_iff_right trivial)

theorem union_iff {ms : List Ty} : WellKinded sig (.union ms) ↔ ∀ m ∈ ms, m.WellKinded sig :=
  List.forall_mem_cons.trans (.trans (and_iff_right trivial) forall_mem_subtermsOfAll)

theorem class_iff {d : DeclRef} {args : List Ty} : WellKinded sig (.class d args) ↔
    sig d.site = some ⟨.class, args.length⟩ ∧ ∀ a ∈ args, a.WellKinded sig :=
  List.forall_mem_cons.trans (and_congr_right' forall_mem_subtermsOfAll)

theorem typeAlias_iff {d : DeclRef} {args : List Ty} : WellKinded sig (.typeAlias d args) ↔
    sig d.site = some ⟨.typeAlias, args.length⟩ ∧ ∀ a ∈ args, a.WellKinded sig :=
  List.forall_mem_cons.trans (and_congr_right' forall_mem_subtermsOfAll)

theorem function_iff {ps : List Ty} {r : Ty} : WellKinded sig (.function ps r) ↔
    (∀ p ∈ ps, p.WellKinded sig) ∧ r.WellKinded sig := by
  refine List.forall_mem_cons.trans (.trans (and_iff_right trivial) ?_)
  rw [List.forall_mem_append, forall_mem_subtermsOfAll]
  exact Iff.rfl

/-- A class without parameters. -/
theorem plain {d : DeclRef} (h : sig d.site = some ⟨.class, 0⟩) :
    WellKinded sig (BaseTypes.plain d) := class_iff.mpr ⟨h, List.forall_mem_nil _⟩

theorem argAt {args : List Ty} (h : ∀ a ∈ args, a.WellKinded sig) (i : Nat) :
    WellKinded sig (PklAnalysis.argAt args i) := by
  rw [PklAnalysis.argAt]
  cases hi : args[i]? with
  | none => exact unknown
  | some a => exact h a (List.mem_of_getElem? hi)

/-- The parameters of a declaration, as types. -/
theorem paramTypes {owner : Site} {params : List TypeParam} {sort : GenericSort}
    (h : sig owner = some ⟨sort, params.length⟩) :
    ∀ a ∈ PklAnalysis.paramTypes owner params, a.WellKinded sig := by
  refine List.forall_mem_map.mpr fun p hp => param_iff.mpr ⟨_, h, ?_⟩
  exact List.snd_lt_of_mem_zipIdx hp

/-- A class applied to its own parameters. -/
theorem selfType {c : ClassDef} (h : sig c.decl.site = some ⟨.class, c.typeParams.length⟩) :
    c.selfType.WellKinded sig := by
  refine class_iff.mpr ⟨?_, paramTypes h⟩
  rw [PklAnalysis.paramTypes, List.length_map, List.length_zipIdx, h]

/-! ## Erasure and normal forms -/

theorem erase {t : Ty} (h : t.WellKinded sig) : t.erase.WellKinded sig := by
  induction t using byParts with
  | unknown | nothing | literal => exact h
  | param p => exact unknown
  | nullable t ih => exact nullable_iff.mpr (ih (nullable_iff.mp h))
  | union ms ih =>
    rw [Ty.erase, eraseAll_eq_map]
    exact union_iff.mpr (List.forall_mem_map.mpr fun m hm => ih m hm (union_iff.mp h m hm))
  | class_ d as ih =>
    obtain ⟨hd, has⟩ := class_iff.mp h
    rw [Ty.erase, eraseAll_eq_map]
    exact class_iff.mpr
      ⟨by rwa [List.length_map], List.forall_mem_map.mpr fun a ha => ih a ha (has a ha)⟩
  | typeAlias d as ih =>
    obtain ⟨hd, has⟩ := typeAlias_iff.mp h
    rw [Ty.erase, eraseAll_eq_map]
    exact typeAlias_iff.mpr
      ⟨by rwa [List.length_map], List.forall_mem_map.mpr fun a ha => ih a ha (has a ha)⟩
  | function ps r ihps ihr =>
    obtain ⟨hps, hr⟩ := function_iff.mp h
    rw [Ty.erase, eraseAll_eq_map]
    exact function_iff.mpr ⟨List.forall_mem_map.mpr fun p hp => ihps p hp (hps p hp), ihr hr⟩

theorem ofMembers {ts : List Ty} (h : ∀ t ∈ ts, t.WellKinded sig) :
    WellKinded sig (Ty.ofMembers ts) := by
  match ts with
  | [] => exact nothing
  | [t] => exact h t (List.mem_singleton_self t)
  | t :: u :: ts => exact union_iff.mpr h

section Normal

variable {base : BaseTypes} (hbase : base.AreKinded sig)
include hbase

theorem nullType : base.nullType.WellKinded sig :=
  plain (hbase.plain _ (by simp [BaseTypes.plainDecls]))

theorem of_mem_leaves {t l : Ty} (h : t.WellKinded sig) (hl : l ∈ leaves base t) :
    l.WellKinded sig := by
  induction t using byParts with
  | nothing => exact (List.not_mem_nil hl).elim
  | nullable t ih =>
    rcases List.mem_cons.mp hl with rfl | hl
    · exact nullType hbase
    · exact ih (nullable_iff.mp h) hl
  | union ms ih =>
    rw [leaves, leavesOfAll_eq_flatMap] at hl
    obtain ⟨m, hm, hl⟩ := List.mem_flatMap.mp hl
    exact ih m hm (union_iff.mp h m hm) hl
  | unknown | class_ | typeAlias | function | literal | param =>
    rw [leaves_of_isLeaf rfl, List.mem_singleton] at hl
    exact hl ▸ h

theorem unionOf {ts : List Ty} (h : ∀ t ∈ ts, t.WellKinded sig) :
    WellKinded sig (Ty.unionOf base ts) := by
  have hmembers : WellKinded sig (Ty.ofMembers (membersOf base (leavesOfAll base ts))) := by
    refine ofMembers fun m hm => ?_
    obtain ⟨t, ht, hl⟩ := mem_leavesOfAll.mp (mem_membersOf.mp hm).1
    exact (h t ht).of_mem_leaves hbase hl
  rw [unionOf_eq, ofLeaves]
  split
  · exact unknown
  · split
    · split
      · exact nullType hbase
      · exact nullable_iff.mpr hmembers
    · exact hmembers

theorem orNull {t : Ty} (h : t.WellKinded sig) : WellKinded sig (t.orNull base) := by
  refine unionOf hbase fun u hu => ?_
  rcases List.mem_cons.mp hu with rfl | hu
  · exact h
  · exact List.mem_singleton.mp hu ▸ nullType hbase

/-- Types for the parameters of a type; there may be more or fewer than its owner declares. -/
theorem substitute {t : Ty} (ht : t.WellKinded sig) (owner : Site) {args : List Ty}
    (hargs : ∀ a ∈ args, a.WellKinded sig) : WellKinded sig (t.substitute base owner args) := by
  induction t using byParts with
  | unknown => exact unknown
  | nothing => exact nothing
  | literal s => exact literal s
  | param p =>
    rw [Ty.substitute]
    split
    · exact argAt hargs p.index
    · exact ht
  | nullable t ih => exact (ih (nullable_iff.mp ht)).orNull hbase
  | union ms ih =>
    rw [Ty.substitute, substituteAll_eq_map]
    exact unionOf hbase (List.forall_mem_map.mpr fun m hm => ih m hm (union_iff.mp ht m hm))
  | class_ d as ih =>
    obtain ⟨hd, has⟩ := class_iff.mp ht
    rw [Ty.substitute, substituteAll_eq_map]
    exact class_iff.mpr
      ⟨by rwa [List.length_map], List.forall_mem_map.mpr fun a ha => ih a ha (has a ha)⟩
  | typeAlias d as ih =>
    obtain ⟨hd, has⟩ := typeAlias_iff.mp ht
    rw [Ty.substitute, substituteAll_eq_map]
    exact typeAlias_iff.mpr
      ⟨by rwa [List.length_map], List.forall_mem_map.mpr fun a ha => ih a ha (has a ha)⟩
  | function ps r ihps ihr =>
    obtain ⟨hps, hr⟩ := function_iff.mp ht
    rw [Ty.substitute, substituteAll_eq_map]
    exact function_iff.mpr ⟨List.forall_mem_map.mpr fun p hp => ihps p hp (hps p hp), ihr hr⟩

/-- A function seen as an object of its class has one argument more than it has parameters. -/
theorem functionView {ps : List Ty} {r : Ty} (hps : ∀ p ∈ ps, p.WellKinded sig)
    (hr : r.WellKinded sig) : WellKinded sig (base.functionView ps r) := by
  rw [BaseTypes.functionView]
  split
  · next d hd =>
    refine class_iff.mpr ⟨?_, List.forall_mem_append.mpr ⟨hps, List.forall_mem_singleton.mpr hr⟩⟩
    rw [List.length_append, List.length_singleton]
    exact hbase.functions _ _ hd
  · exact plain (hbase.plain _ (by simp [BaseTypes.plainDecls]))

end Normal

end WellKinded

end Ty

end PklAnalysis
