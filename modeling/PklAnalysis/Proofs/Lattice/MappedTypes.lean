import PklAnalysis.Proofs.Lattice.NamedTypes
import Mathlib

/-!
# Types over other classes

`Ty.mapDecls f` names another declaration wherever a type names one.  Two systems of base types
that a map takes into each other look alike: types that are built from the classes of the first
have the same shape over those of the second, and no two of them fall together.
-/

namespace PklAnalysis

namespace Ty

mutual

/-- A type with other declarations in place of those that it names. -/
def mapDecls (f : DeclRef → DeclRef) : Ty → Ty
  | .unknown => .unknown
  | .nothing => .nothing
  | .nullable t => .nullable (mapDecls f t)
  | .class d args => .class (f d) (mapAllDecls f args)
  | .typeAlias d args => .typeAlias (f d) (mapAllDecls f args)
  | .union ms => .union (mapAllDecls f ms)
  | .function ps r => .function (mapAllDecls f ps) (mapDecls f r)
  | .literal text => .literal text
  | .param p => .param p

def mapAllDecls (f : DeclRef → DeclRef) : List Ty → List Ty
  | [] => []
  | t :: ts => mapDecls f t :: mapAllDecls f ts

end

theorem mapAllDecls_eq_map (f : DeclRef → DeclRef) (ts : List Ty) :
    mapAllDecls f ts = ts.map (mapDecls f) := by
  induction ts with
  | nil => rfl
  | cons t ts ih => rw [mapAllDecls, ih, List.map_cons]

section Shapes

variable (f : DeclRef → DeclRef)

theorem mapDecls_class (d : DeclRef) (args : List Ty) :
    (Ty.class d args).mapDecls f = .class (f d) (args.map (mapDecls f)) := by
  rw [mapDecls, mapAllDecls_eq_map]

theorem mapDecls_union (ms : List Ty) :
    (Ty.union ms).mapDecls f = .union (ms.map (mapDecls f)) := by
  rw [mapDecls, mapAllDecls_eq_map]

theorem mapDecls_function (ps : List Ty) (r : Ty) :
    (Ty.function ps r).mapDecls f = .function (ps.map (mapDecls f)) (r.mapDecls f) := by
  rw [mapDecls, mapAllDecls_eq_map]

end Shapes

/-- A type that is built from some classes, without type aliases and type parameters. -/
inductive BuiltFrom (P : DeclRef → Prop) : Ty → Prop
  | unknown : BuiltFrom P .unknown
  | nothing : BuiltFrom P .nothing
  | literal (text : String) : BuiltFrom P (.literal text)
  | nullable {t : Ty} (ht : BuiltFrom P t) : BuiltFrom P (.nullable t)
  | class {d : DeclRef} {args : List Ty} (hd : P d) (hargs : ∀ a ∈ args, BuiltFrom P a) :
      BuiltFrom P (.class d args)
  | union {ms : List Ty} (hms : ∀ t ∈ ms, BuiltFrom P t) : BuiltFrom P (.union ms)
  | function {ps : List Ty} {r : Ty} (hps : ∀ p ∈ ps, BuiltFrom P p) (hr : BuiltFrom P r) :
      BuiltFrom P (.function ps r)

variable {P : DeclRef → Prop} {f : DeclRef → DeclRef}

theorem BuiltFrom.argAt {args : List Ty} (h : ∀ a ∈ args, BuiltFrom P a) (i : Nat) :
    BuiltFrom P (PklAnalysis.argAt args i) := by
  rw [PklAnalysis.argAt]
  cases hi : args[i]? with
  | none => exact .unknown
  | some a => exact h a (List.mem_of_getElem? hi)

theorem builtFrom_mapDecls {Q : DeclRef → Prop} (hPQ : ∀ d, P d → Q (f d)) {t : Ty}
    (ht : BuiltFrom P t) : BuiltFrom Q (t.mapDecls f) := by
  induction ht with
  | unknown => exact .unknown
  | nothing => exact .nothing
  | literal text => exact .literal text
  | nullable _ ih => exact .nullable ih
  | «class» hd _ ih =>
    rw [mapDecls_class]
    exact .class (hPQ _ hd) (List.forall_mem_map.mpr ih)
  | union _ ih =>
    rw [mapDecls_union]
    exact .union (List.forall_mem_map.mpr ih)
  | function _ _ ihps ihr =>
    rw [mapDecls_function]
    exact .function (List.forall_mem_map.mpr ihps) ihr

theorem mapDecls_argAt (args : List Ty) (i : Nat) :
    (PklAnalysis.argAt args i).mapDecls f = PklAnalysis.argAt (args.map (mapDecls f)) i := by
  rw [PklAnalysis.argAt, PklAnalysis.argAt, List.getElem?_map]
  cases args[i]? <;> rfl

theorem map_inj_of {α β : Type} {g : α → β} {as bs : List α}
    (hg : ∀ a ∈ as, ∀ b ∈ bs, g a = g b → a = b) (h : as.map g = bs.map g) : as = bs := by
  induction as generalizing bs with
  | nil => simpa using h.symm
  | cons a as ih =>
    cases bs with
    | nil => cases h
    | cons b bs =>
      obtain ⟨hab, hrest⟩ := List.cons.inj h
      rw [hg a List.mem_cons_self b List.mem_cons_self hab,
        ih (fun a ha b hb => hg a (.tail _ ha) b (.tail _ hb)) hrest]

/-- Types stay different if the classes from which they are built do. -/
theorem BuiltFrom.mapDecls_inj (hf : ∀ d e, P d → P e → f d = f e → d = e) {a b : Ty}
    (ha : BuiltFrom P a) (hb : BuiltFrom P b) : a.mapDecls f = b.mapDecls f ↔ a = b := by
  refine ⟨fun h => ?_, fun h => h ▸ rfl⟩
  induction ha generalizing b with
  | unknown => cases hb <;> simp [mapDecls] at h ⊢
  | nothing => cases hb <;> simp [mapDecls] at h ⊢
  | literal text => cases hb <;> simp [mapDecls] at h ⊢; exact h
  | nullable _ ih =>
    cases hb <;> simp only [mapDecls, reduceCtorEq, nullable.injEq] at h ⊢
    next hb => exact ih hb h
  | «class» hd _ ih =>
    cases hb <;> simp only [mapDecls, mapAllDecls_eq_map, reduceCtorEq, class.injEq] at h ⊢
    next he hbs => exact ⟨hf _ _ hd he h.1, map_inj_of (fun a ha b hb => ih a ha (hbs b hb)) h.2⟩
  | union _ ih =>
    cases hb <;> simp only [mapDecls, mapAllDecls_eq_map, reduceCtorEq, union.injEq] at h ⊢
    next hbs => exact map_inj_of (fun a ha b hb => ih a ha (hbs b hb)) h
  | function _ _ ihps ihr =>
    cases hb <;> simp only [mapDecls, mapAllDecls_eq_map, reduceCtorEq, function.injEq] at h ⊢
    next hqs hs => exact ⟨map_inj_of (fun a ha b hb => ihps a ha (hqs b hb)) h.1, ihr hs h.2⟩

end Ty

/-- A map takes base types into base types: the classes that the rules of the relations mention are
found again, and different ones stay different. -/
structure BaseTypes.MapsTo (b : BaseTypes) (f : DeclRef → DeclRef) (b' : BaseTypes) : Prop where
  inj : ∀ d e, d ∈ b.decls → e ∈ b.decls → f d = f e → d = e
  null : f b.null = b'.null
  string : f b.string = b'.string
  function : f b.function = b'.function
  functions : b.functions.map f = b'.functions
  nullSite : ∀ d ∈ b.decls, (f d).site = b'.null.site ↔ d.site = b.null.site

/-- A type that is built from the classes that the base types name. -/
abbrev BaseTypes.Builds (b : BaseTypes) (t : Ty) : Prop := t.BuiltFrom (· ∈ b.decls)

namespace BaseTypes

variable {b b' : BaseTypes} {f : DeclRef → DeclRef}

theorem builds_plain {d : DeclRef} (hd : d ∈ b.decls) : b.Builds (plain d) :=
  .class hd (List.forall_mem_nil _)

theorem mem_decls_of_functions {n : Nat} {d : DeclRef} (h : b.functions[n]? = some d) :
    d ∈ b.decls := List.mem_append_right _ (List.mem_of_getElem? h)

theorem builds_functionView {ps : List Ty} {r : Ty} (hps : ∀ p ∈ ps, b.Builds p)
    (hr : b.Builds r) : b.Builds (b.functionView ps r) := by
  rw [functionView]
  split
  next d hd =>
    refine .class (mem_decls_of_functions hd) fun a ha => ?_
    rcases List.mem_append.mp ha with ha | ha
    · exact hps a ha
    · exact List.mem_singleton.mp ha ▸ hr
  · exact builds_plain (by simp)

namespace MapsTo

variable (h : b.MapsTo f b')
include h

theorem mapDecls_nullType : b.nullType.mapDecls f = b'.nullType := by
  rw [nullType, plain, Ty.mapDecls, h.null]
  rfl

theorem mapDecls_stringType : b.stringType.mapDecls f = b'.stringType := by
  rw [stringType, plain, Ty.mapDecls, h.string]
  rfl

theorem functions_getElem? (n : Nat) : b'.functions[n]? = b.functions[n]?.map f := by
  rw [← h.functions, List.getElem?_map]

theorem mapDecls_functionView (ps : List Ty) (r : Ty) :
    (b.functionView ps r).mapDecls f = b'.functionView (ps.map (Ty.mapDecls f)) (r.mapDecls f) := by
  rw [functionView, functionView, List.length_map, h.functions_getElem?]
  cases b.functions[ps.length]? with
  | none =>
    rw [plain, Ty.mapDecls, h.function]
    rfl
  | some d =>
    simp only [Option.map_some, Ty.mapDecls_class, List.map_append, List.map_singleton]

theorem isNull_mapDecls {t : Ty} (ht : b.Builds t) : b'.isNull (t.mapDecls f) = b.isNull t := by
  cases ht with
  | «class» hd _ => exact decide_eq_decide.mpr (h.nullSite _ hd)
  | _ => rfl

theorem mapDecls_inj {s t : Ty} (hs : b.Builds s) (ht : b.Builds t) :
    s.mapDecls f = t.mapDecls f ↔ s = t := hs.mapDecls_inj h.inj ht

theorem subtypeShortcut_mapDecls {s t : Ty} (hs : b.Builds s) (ht : b.Builds t) :
    subtypeShortcut (s.mapDecls f) (t.mapDecls f) = subtypeShortcut s t := by
  simp only [subtypeShortcut, h.mapDecls_inj hs ht]
  cases hs <;> cases ht <;> rfl

theorem commonShortcut_mapDecls {s t : Ty} (hs : b.Builds s) (ht : b.Builds t) :
    commonShortcut (s.mapDecls f) (t.mapDecls f) = commonShortcut s t := by
  have hinj := h.mapDecls_inj hs ht
  revert hinj
  cases hs <;> cases ht <;>
    first
    | exact fun _ => rfl
    | exact fun hinj => if_congr hinj rfl rfl

end MapsTo

end BaseTypes

end PklAnalysis
