import PklAnalysis.Proofs.Lattice.NamedTypes
import PklAnalysis.Proofs.Modules.PlainStores
import PklAnalysis.Resolution.Classes
import PklAnalysis.Resolution.Declared

/-!
# What trees a value speaks of

A value is grounded in some trees if they, or the tree of the base module, declare whatever it names
under the name that it uses.  In a plain store a place then determines the declaration that is
meant, so answers can be remembered by places.
-/

namespace PklAnalysis

/-- When a kind of value speaks of nothing but some trees. -/
class Grounding (α : Type) where
  In : Set Tree → α → Prop
  mono : ∀ {T U : Set Tree} {a : α}, T ⊆ U → In T a → In U a

/-- What a value names is declared in some trees or in the base module. -/
def Grounded {α : Type} [Grounding α] (T : Set Tree) (a : α) : Prop := Grounding.In T a

theorem Grounded.mono {α : Type} [Grounding α] {T U : Set Tree} {a : α} (h : Grounded T a)
    (hTU : T ⊆ U) : Grounded U a := Grounding.mono hTU h

/-! ## Kinds of values -/

/-- Values of which nothing else is said name nothing. -/
instance (priority := low) (α : Type) : Grounding α := ⟨fun _ _ => True, fun _ h => h⟩

instance : Grounding Tree where
  In T t := (t = BaseModule.tree ∨ t ∈ T) ∧ t.IsRooted
  mono h ht := ⟨ht.1.imp_right fun hT => h hT, ht.2⟩

instance : Grounding DeclRef where
  In T d := ∃ t : Tree, Grounded T t ∧ Session.declOf? t d.site.node = some d
  mono h := fun ⟨t, ht, hd⟩ => ⟨t, ht.mono h, hd⟩

instance : Grounding Ty where
  In T t := t.AllDecls (Grounded T)
  mono h ht := ht.mono fun _ hd => hd.mono h

section Containers

variable {α β ε : Type} [Grounding α] [Grounding β]

instance : Grounding (Option α) where
  In T o := ∀ a ∈ o, Grounded T a
  mono h ho a ha := (ho a ha).mono h

instance : Grounding (List α) where
  In T l := ∀ a ∈ l, Grounded T a
  mono h hl a ha := (hl a ha).mono h

instance : Grounding (α × β) where
  In T p := Grounded T p.1 ∧ Grounded T p.2
  mono h hp := ⟨hp.1.mono h, hp.2.mono h⟩

instance : Grounding (Except ε α) where
  In T e := ∀ a, e = .ok a → Grounded T a
  mono h he a ha := (he a ha).mono h

end Containers

/-- One of some trees, or that of the base module, is the tree of a module. -/
def Covers (T : Set Tree) (id : ModuleId) : Prop := ∃ t : Tree, Grounded T t ∧ t.id = id

theorem Covers.mono {T U : Set Tree} {id : ModuleId} (h : Covers T id) (hTU : T ⊆ U) :
    Covers U id := h.imp fun _ ht => ⟨ht.1.mono hTU, ht.2⟩

instance : Grounding MemberDef where
  In T m := Covers T m.site.module
  mono h hm := Covers.mono hm h

instance : Grounding CachedMember where
  In T e := Grounded T e.member
  mono h he := Grounded.mono (α := MemberDef) he h

instance : Grounding MemberCache where
  In T c := ∀ kind, Grounded T (c.table kind)
  mono h hc kind := (hc kind).mono h

instance : Grounding Declared where
  In T d := Covers T d.site.module
  mono h hd := Covers.mono hd h

instance : Grounding ClassDef where
  In T c := Grounded T c.decl ∧ Grounded T c.superclass ∧ Grounded T c.members
  mono h hc := ⟨hc.1.mono h, hc.2.1.mono h, hc.2.2.mono h⟩

instance : Grounding AliasDef where
  In T a := Grounded T a.decl ∧ Grounded T a.target
  mono h ha := ⟨ha.1.mono h, ha.2.mono h⟩

instance : Grounding AncestorChain where
  In T c := Grounded T c.classes
  mono h hc := Grounded.mono (α := List ClassDef) hc h

namespace Grounded

section Containers

variable {α β : Type} [Grounding α] {T : Set Tree}

protected theorem none : Grounded T (none : Option α) := fun _ h => nomatch h

protected theorem some {a : α} (h : Grounded T a) : Grounded T (some a) := by
  rintro b ⟨⟩
  exact h

theorem of_some {a : α} (h : Grounded T (some a)) : Grounded T a := h a rfl

protected theorem getD {o : Option α} (h : Grounded T o) {a : α} (ha : Grounded T a) :
    Grounded T (o.getD a) := by
  cases o with
  | none => exact ha
  | some b => exact h.of_some

protected theorem or {o o' : Option α} (h : Grounded T o) (h' : Grounded T o') :
    Grounded T (o.or o') := by
  cases o with
  | none => exact h'
  | some a => exact h

protected theorem map [Grounding β] {o : Option α} (h : Grounded T o) {f : α → β}
    (hf : ∀ a, Grounded T a → Grounded T (f a)) : Grounded T (o.map f) := by
  cases o with
  | none => exact .none
  | some a => exact .some (hf a h.of_some)

theorem nil : Grounded T ([] : List α) := List.forall_mem_nil _

theorem cons {a : α} {l : List α} (ha : Grounded T a) (hl : Grounded T l) :
    Grounded T (a :: l) := List.forall_mem_cons.mpr ⟨ha, hl⟩

theorem append {l l' : List α} (h : Grounded T l) (h' : Grounded T l') : Grounded T (l ++ l') :=
  fun a ha => (List.mem_append.mp ha).elim (h a) (h' a)

theorem subset {l l' : List α} (h : Grounded T l) (hsub : l' ⊆ l) : Grounded T l' :=
  fun a ha => h a (hsub ha)

/-- What is found in a list is grounded if what each element gives is. -/
protected theorem findSome? {l : List β} {f : β → Option α} (h : ∀ b ∈ l, Grounded T (f b)) :
    Grounded T (l.findSome? f) := by
  intro a ha
  obtain ⟨b, hb, hfb⟩ := List.exists_of_findSome?_eq_some ha
  exact h b hb a hfb

end Containers

/-! ## Trees and their declarations -/

variable {T : Set Tree}

theorem base : Grounded T BaseModule.tree := ⟨.inl rfl, Tree.isRooted_base⟩

theorem mem {t : Tree} (h : Grounded T t) {U : Set Tree} (hbase : BaseModule.tree ∈ U)
    (hT : T ⊆ U) : t ∈ U := by
  rcases h.1 with rfl | ht
  · exact hbase
  · exact hT ht

/-- A module is declared by its first node. -/
theorem moduleDecl {t : Tree} (h : Grounded T t) : Grounded T (Session.moduleDecl t) := by
  obtain ⟨name, isOpen, hroot⟩ := h.2
  refine ⟨t, h, ?_⟩
  change Session.declOf? t Tree.root = _
  rw [Session.declOf?, hroot]

theorem moduleType {t : Tree} (h : Grounded T t) : Grounded T (Session.moduleType t) :=
  .plain h.moduleDecl

theorem declOf? {t : Tree} (h : Grounded T t) (n : Nat) : Grounded T (Session.declOf? t n) := by
  intro d hd
  have hdecl := hd
  rw [Session.declOf?] at hd
  split at hd
  · obtain rfl := Option.some.inj hd
    exact ⟨t, h, hdecl⟩
  · obtain rfl := Option.some.inj hd
    exact ⟨t, h, hdecl⟩
  · obtain rfl := Option.some.inj hd
    exact h.moduleDecl
  · exact nomatch hd

theorem ownerOf? {t : Tree} (h : Grounded T t) (n : Nat) : Grounded T (Session.ownerOf? t n) := by
  rw [Session.ownerOf?]
  cases t.parent? n with
  | none => exact .none
  | some p =>
    rw [Option.bind_eq_bind, Option.bind_some]
    split
    · exact h.declOf? p
    · exact h.declOf? p
    · exact .none

theorem covers {t : Tree} (h : Grounded T t) : Covers T t.id := ⟨t, h, rfl⟩

/-- What a node declares is declared in its tree. -/
theorem atNode {t : Tree} (h : Grounded T t) (n : Nat) (kind : DeclarationKind) (name : String) :
    Grounded T (Declared.atNode t n kind name) := h.covers

theorem ofMember {m : MemberDef} (h : Grounded T m) : Grounded T (Declared.ofMember m) := h

/-- The base types are declared by the base module. -/
theorem baseTypes : ∀ d ∈ BaseModule.types.decls, Grounded T d := by
  have hdecls : ∀ d ∈ BaseModule.types.decls,
      Session.declOf? BaseModule.tree d.site.node = some d := by decide +kernel
  exact fun d hd => ⟨BaseModule.tree, base, hdecls d hd⟩

/-- A base type without arguments. -/
theorem plainBase {d : DeclRef} (hd : d ∈ BaseModule.types.decls) :
    Grounded T (BaseTypes.plain d) := .plain (baseTypes d hd)

theorem orNull {t : Ty} (h : Grounded T t) : Grounded T (t.orNull BaseModule.types) :=
  Ty.AllDecls.orNull baseTypes h

theorem unionOf {ts : List Ty} (h : Grounded T ts) :
    Grounded T (Ty.unionOf BaseModule.types ts) := Ty.AllDecls.unionOf baseTypes h

theorem substitute {t : Ty} (h : Grounded T t) (owner : Site) {args : List Ty}
    (hargs : Grounded T args) : Grounded T (t.substitute BaseModule.types owner args) :=
  Ty.AllDecls.substitute baseTypes h owner hargs

theorem functionView {ps : List Ty} {r : Ty} (hps : Grounded T ps) (hr : Grounded T r) :
    Grounded T (BaseModule.types.functionView ps r) := Ty.AllDecls.functionView baseTypes hps hr

theorem erase {t : Ty} (h : Grounded T t) : Grounded T t.erase := Ty.AllDecls.erase h

theorem argAt {args : List Ty} (h : Grounded T args) (i : Nat) :
    Grounded T (PklAnalysis.argAt args i) := Ty.AllDecls.argAt h i

theorem class_iff {d : DeclRef} {args : List Ty} :
    Grounded T (Ty.class d args) ↔ Grounded T d ∧ Grounded T args := by
  refine ⟨fun h => ?_, fun h => .class h.1 h.2⟩
  cases h with
  | «class» hd hargs => exact ⟨hd, hargs⟩

theorem typeAlias_iff {d : DeclRef} {args : List Ty} :
    Grounded T (Ty.typeAlias d args) ↔ Grounded T d ∧ Grounded T args := by
  refine ⟨fun h => ?_, fun h => .typeAlias h.1 h.2⟩
  cases h with
  | typeAlias hd hargs => exact ⟨hd, hargs⟩

theorem function_iff {ps : List Ty} {r : Ty} :
    Grounded T (Ty.function ps r) ↔ Grounded T ps ∧ Grounded T r := by
  refine ⟨fun h => ?_, fun h => .function h.1 h.2⟩
  cases h with
  | function hps hr => exact ⟨hps, hr⟩

theorem nullable_iff {t : Ty} : Grounded T (Ty.nullable t) ↔ Grounded T t := by
  refine ⟨fun h => ?_, .nullable⟩
  cases h with
  | nullable ht => exact ht

theorem union_iff {ms : List Ty} : Grounded T (Ty.union ms) ↔ Grounded T ms := by
  refine ⟨fun h => ?_, .union⟩
  cases h with
  | union hms => exact hms

/-! ## Types that a tree declares -/

theorem padded {args : List Ty} (h : Grounded T args) (arity : Nat) :
    Grounded T (Session.padded args arity) :=
  List.forall_mem_map.mpr fun i _ => h.argAt i

theorem typeIn? {t : Tree} (h : Grounded T t) (name : String) {args : List Ty}
    (hargs : Grounded T args) : Grounded T (Session.typeIn? t name args) := by
  rw [Session.typeIn?]
  cases hn : t.findType? name with
  | none => exact .none
  | some n =>
    -- the node declares a type of this name
    have hname := List.find?_some hn
    rw [Option.bind_eq_bind, Option.bind_some]
    cases hkind : t.kind? n with
    | none => exact .none
    | some kind =>
      rw [hkind] at hname
      rw [Option.bind_eq_bind, Option.bind_some]
      split
      · next k =>
        obtain rfl : k.name = name := of_decide_eq_true hname
        refine .some (class_iff.mpr ⟨⟨t, h, ?_⟩, hargs.padded _⟩)
        change Session.declOf? t n = _
        rw [Session.declOf?, hkind]
      · next k =>
        obtain rfl : k.name = name := of_decide_eq_true hname
        refine .some (typeAlias_iff.mpr ⟨⟨t, h, ?_⟩, hargs.padded _⟩)
        change Session.declOf? t n = _
        rw [Session.declOf?, hkind]
      · exact .none

theorem firstExported? {ts : List Tree} (h : Grounded T ts) (name : String) {args : List Ty}
    (hargs : Grounded T args) : Grounded T (Session.firstExported? ts name args) := by
  refine .findSome? fun t ht => ?_
  rw [Session.exportedTypeIn?]
  cases t.findType? name with
  | none => exact .none
  | some n =>
    change Grounded T (if Session.isLocalNode t n then none else Session.typeIn? t name args)
    split
    · exact .none
    · exact (h t ht).typeIn? name hargs

theorem typeParam? (t : Tree) (context : Nat) (name : String) :
    Grounded T (Session.typeParam? t context name) := by
  refine .findSome? fun n _ type htype => ?_
  obtain ⟨kind, -, htype⟩ := Option.bind_eq_some_iff.mp htype
  obtain ⟨index, -, htype⟩ := Option.bind_eq_some_iff.mp htype
  rw [← Option.some.inj htype]
  exact .param _

/-! ## Members -/

theorem membersOf {t : Tree} (h : Grounded T t) (n : Nat) (owner : DeclRef) :
    Grounded T (Session.membersOf t n owner) := by
  intro m hm
  obtain ⟨c, -, hm⟩ := List.mem_filterMap.mp hm
  split at hm
  · exact Option.some.inj hm ▸ h.covers
  · exact Option.some.inj hm ▸ h.covers
  · exact nomatch hm

theorem note {table : List CachedMember} (h : Grounded T table) {d : MemberDef}
    (hd : Grounded T d) : Grounded T (MemberCache.note table d) := by
  rw [MemberCache.note]
  split
  · refine List.forall_mem_map.mpr fun e he => ?_
    split
    · exact h e he
    · exact h e he
  · exact h.append (.cons hd .nil)

theorem add {cache : MemberCache} (h : Grounded T cache) {d : MemberDef} (hd : Grounded T d) :
    Grounded T (cache.add d) := by
  intro kind
  rw [MemberCache.add]
  cases d.kind <;> cases kind
  · exact (h .property).note hd
  · exact h .method
  · exact h .property
  · exact (h .method).note hd

/-- A chain of classes shows no members but those of its classes. -/
theorem visible {cs : List ClassDef} (h : Grounded T cs) : Grounded T (MemberCache.visible cs) := by
  cases cs with
  | nil => exact .nil
  | cons c rest =>
    have ⟨hc, hrest⟩ := List.forall_mem_cons.mp h
    refine append hc.2.2 fun m hm => ?_
    obtain ⟨a, ha, hm⟩ := List.mem_flatMap.mp hm
    exact (hrest a ha).2.2 m (List.mem_filter.mp hm).1

theorem build {cs : List ClassDef} (h : Grounded T cs) : Grounded T (MemberCache.build cs) := by
  have hfold : ∀ (ms : List MemberDef) (cache : MemberCache), Grounded T ms → Grounded T cache →
      Grounded T (ms.foldl MemberCache.add cache) := by
    intro ms
    induction ms with
    | nil => exact fun _ _ hcache => hcache
    | cons m ms ih =>
      intro cache hms hcache
      have ⟨hm, hms⟩ := List.forall_mem_cons.mp hms
      exact ih _ hms (hcache.add hm)
  refine hfold _ _ h.visible fun kind => ?_
  cases kind <;> exact .nil

theorem lookup {cache : MemberCache} (h : Grounded T cache) (name : String) (kind : MemberKind) :
    Grounded T ((cache.lookup name kind).map (·.member)) := by
  intro m hm
  obtain ⟨e, he, rfl⟩ := Option.map_eq_some_iff.mp hm
  exact h kind e (List.mem_of_find?_eq_some he)

end Grounded

/-! ## In a plain store -/

/-- What a node of a kind declares. -/
def Session.declIn? (t : Tree) (n : Nat) : NodeKind → Option DeclRef
  | .class h => some ⟨siteOf t n, h.name⟩
  | .typeAlias h => some ⟨siteOf t n, h.name⟩
  | .module .. => some (moduleDecl t)
  | _ => none

theorem Session.exists_kind_of_declOf? {t : Tree} {n : Nat} {d : DeclRef}
    (h : declOf? t n = some d) : ∃ kind, t.kind? n = some kind ∧ declIn? t n kind = some d := by
  cases hkind : t.kind? n with
  | none =>
    rw [declOf?, hkind] at h
    cases h
  | some kind =>
    refine ⟨kind, rfl, ?_⟩
    rw [declOf?, hkind] at h
    cases kind <;> exact h

theorem Session.module_of_declOf? {t : Tree} {n : Nat} {d : DeclRef}
    (h : declOf? t n = some d) : d.site.module = t.id := by
  rw [declOf?] at h
  split at h
  · rw [← Option.some.inj h, siteOf]
  · rw [← Option.some.inj h, siteOf]
  · rw [← Option.some.inj h, moduleDecl, siteOf]
  · exact nomatch h

/-- A declaration stands in its module. -/
theorem Grounded.covers_module {T : Set Tree} {d : DeclRef} (h : Grounded T d) :
    Covers T d.site.module := by
  obtain ⟨t, ht, hd⟩ := h
  exact ⟨t, ht, (Session.module_of_declOf? hd).symm⟩

namespace Store.IsPlain

variable {W : Store} (hW : W.IsPlain)

theorem mem_held {t : Tree} (h : Grounded W.held t) : t ∈ W.held :=
  h.mem W.base_mem_held fun _ ht => ht

include hW

theorem grounded_of_mem {t : Tree} (ht : t ∈ W.held) : Grounded W.held t :=
  ⟨.inr ht, hW.rooted_of_mem ht⟩

/-- A place determines the declaration that is meant. -/
theorem decl_eq {d e : DeclRef} (hd : Grounded W.held d) (he : Grounded W.held e)
    (h : d.site = e.site) : d = e := by
  obtain ⟨t, ht, hdt⟩ := hd
  obtain ⟨u, hu, heu⟩ := he
  have hid : t.id = u.id :=
    (Session.module_of_declOf? hdt).symm.trans ((congrArg Site.module h).trans
      (Session.module_of_declOf? heu))
  obtain rfl := hW.eq_of_mem (mem_held ht) (mem_held hu) hid
  rw [h, heu] at hdt
  exact (Option.some.inj hdt).symm

omit hW in
/-- A place of a declaration is one of the nodes that there are. -/
theorem site_mem {d : DeclRef} (hd : Grounded W.held d) : d.site ∈ W.sites := by
  obtain ⟨t, ht, hdt⟩ := hd
  obtain ⟨kind, hkind, -⟩ := Session.exists_kind_of_declOf? hdt
  have hsite : d.site = Session.siteOf t d.site.node := by
    rw [Session.siteOf, ← Session.module_of_declOf? hdt]
  rw [hsite]
  exact mem_sites (mem_held ht) (Tree.mem_indices_of_kind? hkind)

end Store.IsPlain

end PklAnalysis
