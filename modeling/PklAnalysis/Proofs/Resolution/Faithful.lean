import PklAnalysis.Proofs.Lattice.KindedTypes
import PklAnalysis.Proofs.Lattice.MemberLookup
import PklAnalysis.Proofs.Resolution.SteadyClasses
import PklAnalysis.Proofs.Resolution.Worlds

/-!
# What values say of a store

Types, members and declarations name places in modules.  A value is faithful to a world if the trees
that the modules have there bear it out: what it takes for a class, an alias, a property, a parameter
or an import of some name is one, and its types are well-kinded under the signatures that the trees
declare, if types are judged.  A value stays faithful when references are followed.
-/

namespace PklAnalysis

/-! ## What nodes declare -/

/-- The signature of what a node declares with type parameters; a module counts as a class. -/
def Signature.ofKind? : NodeKind → Option Signature
  | .class h => some ⟨.class, h.typeParams.length⟩
  | .module .. => some ⟨.class, 0⟩
  | .typeAlias h => some ⟨.typeAlias, h.typeParams.length⟩
  | .method h => some ⟨.method, h.typeParams.length⟩
  | _ => none

/-- The signature of the declaration at a place. -/
def Store.signature? (W : Store) (site : Site) : Option Signature := do
  let t ← W.current? site.module
  Signature.ofKind? (← t.kind? site.node)

/-- The names that a node of a tree declares, with what they are names of. -/
def Tree.namesOf (t : Tree) : NodeKind → List (DeclarationKind × String)
  | .property h => [(.property, h.name)]
  | .method h => [(.method, h.name)]
  | .class h => [(.classDecl, h.name)]
  | .typeAlias h => [(.typeAlias, h.name)]
  | .importClause i => [(.import, i.bindingName)]
  | .module .. => [(.module, Session.moduleName t)]
  | .parameter b => [(.parameter, b.name)]
  | .letIn b => [(.letBinding, b.name)]
  | .generator key value =>
    (value.name :: (key.map (·.name)).toList).map fun name => (.forBinding, name)
  | .objectProperty b => [(.objectProperty, b.name)]
  | _ => []

/-! ## Kinds of values -/

/-- When a kind of value is borne out by the modules of a world. -/
class Reporting (α : Type) where
  IsFaithful : World → α → Prop
  mono : ∀ {V W : World} {a : α}, V ≤ W → IsFaithful V a → IsFaithful W a

/-- What a value says of modules is as the trees of a world have it. -/
def Faithful {α : Type} [Reporting α] (W : World) (a : α) : Prop := Reporting.IsFaithful W a

theorem Faithful.mono {α : Type} [Reporting α] {V W : World} {a : α} (h : Faithful V a)
    (hVW : V ≤ W) : Faithful W a := Reporting.mono hVW h

/-- Values of which nothing else is said say nothing of modules. -/
instance (priority := low) (α : Type) : Reporting α := ⟨fun _ _ => True, fun _ h => h⟩

/-- A tree is one that its module has. -/
instance : Reporting Tree where
  IsFaithful W t := t ∈ W.store.held
  mono h ht := h.2.2.held ht

/-- Places that have a signature go on having it. -/
theorem World.signature?_mono {V W : World} (h : V ≤ W) (hV : V.judgesTypes) {site : Site}
    {k : Signature} (hk : V.store.signature? site = some k) :
    W.store.signature? site = some k := by
  obtain ⟨t, ht, hkind⟩ := Option.bind_eq_some_iff.mp hk
  exact Option.bind_eq_some_iff.mpr ⟨t, h.2.2.current? (V.isProper hV) ht, hkind⟩

instance : Reporting Ty where
  IsFaithful W t := W.judgesTypes → t.WellKinded W.store.signature?
  mono h ht hW := (ht (World.judgesTypes_of_le h hW)).mono fun _ _ =>
    World.signature?_mono h (World.judgesTypes_of_le h hW)

/-- What is declared under a name at a node is declared so by the tree of the module. -/
instance : Reporting Declared where
  IsFaithful W d := ∃ t : Tree, Faithful W t ∧ t.id = d.site.module ∧
    ∃ kind, t.kind? d.site.node = some kind ∧ (d.kind, d.name) ∈ t.namesOf kind
  mono h := fun ⟨t, ht, hid, hd⟩ => ⟨t, ht.mono h, hid, hd⟩

section Containers

variable {α β ε : Type} [Reporting α] [Reporting β]

instance : Reporting (Option α) where
  IsFaithful W o := ∀ a ∈ o, Faithful W a
  mono h ho a ha := (ho a ha).mono h

instance : Reporting (List α) where
  IsFaithful W l := ∀ a ∈ l, Faithful W a
  mono h hl a ha := (hl a ha).mono h

instance : Reporting (α × β) where
  IsFaithful W p := Faithful W p.1 ∧ Faithful W p.2
  mono h hp := ⟨hp.1.mono h, hp.2.mono h⟩

instance : Reporting (Except ε α) where
  IsFaithful W e := ∀ a, e = .ok a → Faithful W a
  mono h he a ha := (he a ha).mono h

end Containers

instance : Reporting MemberDef where
  IsFaithful W m := Faithful W (Declared.ofMember m)
  mono h hm := Faithful.mono (α := Declared) hm h

/-- What a cache finds is so and of the kind that is looked for, whichever declarations it remembers
besides. -/
instance : Reporting MemberCache where
  IsFaithful W c := ∀ name kind, ∀ m ∈ (c.lookup name kind).map CachedMember.member,
    Faithful W m ∧ m.kind = kind
  mono h hc name kind m hm := (hc name kind m hm).imp_left (·.mono h)

/-- A class is declared where it says, and has the parameters that it says. -/
instance : Reporting ClassDef where
  IsFaithful W c := (W.judgesTypes →
      W.store.signature? c.decl.site = some ⟨.class, c.typeParams.length⟩) ∧
    W.store.HasPlace c.decl.site ∧ Faithful W c.superclass ∧ Faithful W c.members
  mono h := fun ⟨hsig, hplace, hsuper, hmembers⟩ =>
    ⟨fun hW => World.signature?_mono h (World.judgesTypes_of_le h hW)
        (hsig (World.judgesTypes_of_le h hW)),
      h.2.2.hasPlace hplace, hsuper.mono h, hmembers.mono h⟩

/-- An alias is one that the store defines. -/
instance : Reporting AliasDef where
  IsFaithful W a := W.origin.Defines a ∧ W.store.HasPlace a.decl.site ∧ Faithful W a.target
  mono h := fun ⟨hdef, hplace, htarget⟩ => ⟨h.1 ▸ hdef, h.2.2.hasPlace hplace, htarget.mono h⟩

instance : Reporting AncestorChain where
  IsFaithful W c := Faithful W c.classes
  mono h hc := Faithful.mono (α := List ClassDef) hc h

namespace Faithful

section Containers

variable {α β : Type} [Reporting α] {W : World}

protected theorem none : Faithful W (none : Option α) := fun _ h => nomatch h

protected theorem some {a : α} (h : Faithful W a) : Faithful W (some a) := by
  rintro b ⟨⟩
  exact h

theorem of_some {a : α} (h : Faithful W (some a)) : Faithful W a := h a rfl

protected theorem getD {o : Option α} (h : Faithful W o) {a : α} (ha : Faithful W a) :
    Faithful W (o.getD a) := by
  cases o with
  | none => exact ha
  | some b => exact h.of_some

protected theorem or {o o' : Option α} (h : Faithful W o) (h' : Faithful W o') :
    Faithful W (o.or o') := by
  cases o with
  | none => exact h'
  | some a => exact h

protected theorem filter {o : Option α} (h : Faithful W o) (p : α → Bool) :
    Faithful W (o.filter p) := fun a ha => h a (Option.filter_eq_some_iff.mp ha).1

protected theorem map [Reporting β] {o : Option α} (h : Faithful W o) {f : α → β}
    (hf : ∀ a, Faithful W a → Faithful W (f a)) : Faithful W (o.map f) := by
  cases o with
  | none => exact .none
  | some a => exact .some (hf a h.of_some)

theorem nil : Faithful W ([] : List α) := List.forall_mem_nil _

theorem cons {a : α} {l : List α} (ha : Faithful W a) (hl : Faithful W l) :
    Faithful W (a :: l) := List.forall_mem_cons.mpr ⟨ha, hl⟩

theorem append {l l' : List α} (h : Faithful W l) (h' : Faithful W l') : Faithful W (l ++ l') :=
  fun a ha => (List.mem_append.mp ha).elim (h a) (h' a)

/-- What is found in a list is faithful if what each element gives is. -/
protected theorem findSome? {l : List β} {f : β → Option α} (h : ∀ b ∈ l, Faithful W (f b)) :
    Faithful W (l.findSome? f) := by
  intro a ha
  obtain ⟨b, hb, hfb⟩ := List.exists_of_findSome?_eq_some ha
  exact h b hb a hfb

end Containers

/-! ## Types -/

variable {W : World}

theorem base : Faithful W BaseModule.tree := W.store.base_mem_held

theorem rooted {t : Tree} (h : Faithful W t) : t.IsRooted := by
  rcases h with rfl | h
  · exact Tree.isRooted_base
  · exact (W.reached.isFiled W.isFiled).rooted t.id t h

/-- In a world in which types are judged each module has one tree. -/
theorem current? {t : Tree} (h : Faithful W t) (hW : W.judgesTypes) :
    W.store.current? t.id = some t := by
  rcases h with rfl | h
  · exact (W.isProper hW).current?_base
  · exact Store.current?_of_tree? h

/-- What a node declares has the signature of the node. -/
theorem signature?_eq {t : Tree} (h : Faithful W t) (hW : W.judgesTypes) (n : Nat) :
    W.store.signature? (Session.siteOf t n) = (t.kind? n).bind Signature.ofKind? := by
  have hcurrent : W.store.current? (Session.siteOf t n).module = some t := h.current? hW
  rw [Store.signature?, hcurrent]
  rfl

/-- The base types are declared by the base module with as many parameters as they need. -/
theorem areKinded (W : World) (hW : W.judgesTypes) :
    BaseModule.types.AreKinded W.store.signature? := by
  have hplain : ∀ d ∈ BaseModule.types.plainDecls,
      d.site = Session.siteOf BaseModule.tree d.site.node ∧
        (BaseModule.tree.kind? d.site.node).bind Signature.ofKind? = some ⟨.class, 0⟩ := by
    decide +kernel
  have hfunctions : ∀ p ∈ BaseModule.types.functions.zipIdx,
      p.1.site = Session.siteOf BaseModule.tree p.1.site.node ∧
        (BaseModule.tree.kind? p.1.site.node).bind Signature.ofKind? =
          some ⟨.class, p.2 + 1⟩ := by
    decide +kernel
  refine ⟨fun d hd => ?_, fun n d hd => ?_⟩
  · obtain ⟨hsite, hsig⟩ := hplain d hd
    rw [hsite, base.signature?_eq hW, hsig]
  · obtain ⟨hsite, hsig⟩ := hfunctions (d, n) (List.mem_zipIdx_iff_getElem?.mpr hd)
    rw [hsite, base.signature?_eq hW, hsig]

theorem types_iff {ts : List Ty} :
    Faithful W ts ↔ (W.judgesTypes → ∀ t ∈ ts, t.WellKinded W.store.signature?) :=
  ⟨fun h hW t ht => h t ht hW, fun h t ht hW => h hW t ht⟩

theorem unknown : Faithful W Ty.unknown := fun _ => Ty.WellKinded.unknown

theorem nothing : Faithful W Ty.nothing := fun _ => Ty.WellKinded.nothing

theorem literal (text : String) : Faithful W (Ty.literal text) := fun _ => Ty.WellKinded.literal text

/-- A base type that is used without arguments. -/
theorem plain {d : DeclRef} (hd : d ∈ BaseModule.types.plainDecls) :
    Faithful W (BaseTypes.plain d) := fun hW => Ty.WellKinded.plain ((areKinded W hW).plain d hd)

theorem nullType : Faithful W BaseModule.types.nullType :=
  fun hW => Ty.WellKinded.nullType (areKinded W hW)

theorem orNull {t : Ty} (h : Faithful W t) : Faithful W (t.orNull BaseModule.types) :=
  fun hW => Ty.WellKinded.orNull (areKinded W hW) (h hW)

theorem unionOf {ts : List Ty} (h : Faithful W ts) :
    Faithful W (Ty.unionOf BaseModule.types ts) :=
  fun hW => Ty.WellKinded.unionOf (areKinded W hW) (types_iff.mp h hW)

theorem substitute {t : Ty} (h : Faithful W t) (owner : Site) {args : List Ty}
    (hargs : Faithful W args) : Faithful W (t.substitute BaseModule.types owner args) :=
  fun hW => Ty.WellKinded.substitute (areKinded W hW) (h hW) owner (types_iff.mp hargs hW)

theorem functionView {ps : List Ty} {r : Ty} (hps : Faithful W ps) (hr : Faithful W r) :
    Faithful W (BaseModule.types.functionView ps r) :=
  fun hW => Ty.WellKinded.functionView (areKinded W hW) (types_iff.mp hps hW) (hr hW)

theorem erase {t : Ty} (h : Faithful W t) : Faithful W t.erase :=
  fun hW => Ty.WellKinded.erase (h hW)

theorem argAt {args : List Ty} (h : Faithful W args) (i : Nat) :
    Faithful W (PklAnalysis.argAt args i) :=
  fun hW => Ty.WellKinded.argAt (types_iff.mp h hW) i

theorem class_args {d : DeclRef} {args : List Ty} (h : Faithful W (Ty.class d args)) :
    Faithful W args := types_iff.mpr fun hW => (Ty.WellKinded.class_iff.mp (h hW)).2

theorem typeAlias_args {d : DeclRef} {args : List Ty} (h : Faithful W (Ty.typeAlias d args)) :
    Faithful W args := types_iff.mpr fun hW => (Ty.WellKinded.typeAlias_iff.mp (h hW)).2

theorem nullable_iff {t : Ty} : Faithful W (Ty.nullable t) ↔ Faithful W t :=
  forall_congr' fun _ => Ty.WellKinded.nullable_iff

theorem union_iff {ms : List Ty} : Faithful W (Ty.union ms) ↔ Faithful W ms :=
  (forall_congr' fun _ => Ty.WellKinded.union_iff).trans types_iff.symm

theorem function_iff {ps : List Ty} {r : Ty} :
    Faithful W (Ty.function ps r) ↔ Faithful W ps ∧ Faithful W r :=
  (forall_congr' fun _ => Ty.WellKinded.function_iff).trans <|
    forall_and.trans (and_congr_left' types_iff.symm)

theorem selfType {c : ClassDef} (h : Faithful W c) : Faithful W c.selfType :=
  fun hW => Ty.WellKinded.selfType (h.1 hW)

/-! ## Types that a tree declares -/

theorem moduleType {t : Tree} (h : Faithful W t) : Faithful W (Session.moduleType t) := by
  intro hW
  obtain ⟨name, isOpen, hroot⟩ := h.rooted
  refine Ty.WellKinded.plain ((h.signature?_eq hW Tree.root).trans ?_)
  rw [hroot]
  rfl

theorem length_padded (args : List Ty) (arity : Nat) :
    (Session.padded args arity).length = arity := by
  rw [Session.padded, List.length_map, List.length_range]

theorem padded {args : List Ty} (h : Faithful W args) (arity : Nat) :
    Faithful W (Session.padded args arity) :=
  List.forall_mem_map.mpr fun i _ => h.argAt i

/-- Arguments are cut or filled up to the number of parameters. -/
theorem typeIn? {t : Tree} (h : Faithful W t) (name : String) {args : List Ty}
    (hargs : Faithful W args) : Faithful W (Session.typeIn? t name args) := by
  intro type htype hW
  obtain ⟨n, -, htype⟩ := Option.bind_eq_some_iff.mp htype
  obtain ⟨kind, hkind, htype⟩ := Option.bind_eq_some_iff.mp htype
  have hsig := h.signature?_eq hW n
  have hpadded (arity : Nat) := types_iff.mp (hargs.padded arity) hW
  rw [hkind] at hsig
  split at htype
  · refine Option.some.inj htype ▸ Ty.WellKinded.class_iff.mpr ⟨?_, hpadded _⟩
    rw [length_padded]
    exact hsig
  · refine Option.some.inj htype ▸ Ty.WellKinded.typeAlias_iff.mpr ⟨?_, hpadded _⟩
    rw [length_padded]
    exact hsig
  · cases htype

theorem firstExported? {ts : List Tree} (h : Faithful W ts) (name : String) {args : List Ty}
    (hargs : Faithful W args) : Faithful W (Session.firstExported? ts name args) := by
  refine .findSome? fun t ht type htype => ?_
  obtain ⟨n, -, htype⟩ := Option.bind_eq_some_iff.mp htype
  rw [Option.ite_none_left_eq_some] at htype
  exact (h t ht).typeIn? name hargs type htype.2

/-- A parameter that a node declares has one of the places among its parameters. -/
theorem exists_mem_ofKind? {kind : NodeKind} {index : Nat}
    (h : index < (Session.typeParamsOf kind).length) :
    ∃ k ∈ Signature.ofKind? kind, index < k.arity := by
  cases kind with
  | «class» | typeAlias | method => exact ⟨_, rfl, h⟩
  | _ => exact absurd h (Nat.not_lt_zero _)

theorem typeParam? {t : Tree} (h : Faithful W t) (context : Nat) (name : String) :
    Faithful W (Session.typeParam? t context name) := by
  refine .findSome? fun n _ type htype hW => ?_
  obtain ⟨kind, hkind, htype⟩ := Option.bind_eq_some_iff.mp htype
  obtain ⟨index, hindex, htype⟩ := Option.bind_eq_some_iff.mp htype
  refine Option.some.inj htype ▸ Ty.WellKinded.param_iff.mpr ?_
  rw [h.signature?_eq hW n, hkind]
  exact exists_mem_ofKind? (List.findIdx?_eq_some_iff_findIdx_eq.mp hindex).1

/-! ## Declarations and members -/

/-- What a node declares under one of its names. -/
theorem atNode {t : Tree} (h : Faithful W t) {n : Nat} {kind : NodeKind}
    (hkind : t.kind? n = some kind) {k : DeclarationKind} {name : String}
    (hname : (k, name) ∈ t.namesOf kind) : Faithful W (Declared.atNode t n k name) :=
  ⟨t, h, rfl, kind, hkind, hname⟩

theorem ofMember {m : MemberDef} (h : Faithful W m) : Faithful W (Declared.ofMember m) := h

theorem membersOf {t : Tree} (h : Faithful W t) (n : Nat) (owner : DeclRef) :
    Faithful W (Session.membersOf t n owner) := by
  intro m hm
  obtain ⟨c, -, hm⟩ := List.mem_filterMap.mp hm
  split at hm
  · next hkind => exact Option.some.inj hm ▸ h.atNode hkind (List.mem_singleton_self _)
  · next hkind => exact Option.some.inj hm ▸ h.atNode hkind (List.mem_singleton_self _)
  · cases hm

/-- A chain of classes shows no members but those of its classes. -/
theorem visible {cs : List ClassDef} (h : Faithful W cs) : Faithful W (MemberCache.visible cs) := by
  cases cs with
  | nil => exact .nil
  | cons c rest =>
    have ⟨hc, hrest⟩ := List.forall_mem_cons.mp h
    refine append hc.2.2.2 fun m hm => ?_
    obtain ⟨a, ha, hm⟩ := List.mem_flatMap.mp hm
    exact (hrest a ha).2.2.2 m (List.mem_filter.mp hm).1

theorem build {cs : List ClassDef} (h : Faithful W cs) : Faithful W (MemberCache.build cs) := by
  intro name kind m hm
  rw [MemberCache.lookup_build] at hm
  exact ⟨h.visible m (List.mem_of_find?_eq_some hm), MemberCache.kind_of_first? hm⟩

end Faithful

end PklAnalysis
