import PklAnalysis.Proofs.Lattice.NearNormal
import PklAnalysis.Proofs.Resolution.SteadyAncestors

/-!
# Neat queries

A value is neat if all types in it are nearly in normal form, and a session is if what it remembers
of classes and type aliases is.  A query is neat if it keeps sessions neat and has neat answers;
this is so of annotations, definitions and ancestors whatever the trees and the store are, since
types come from annotations through the normalizing constructors.
-/

namespace PklAnalysis

/-- When all types in a value of a kind are nearly in normal form. -/
class HoldsTypes (α : Type) where
  IsNeat : α → Prop

/-- All types in a value are nearly in normal form. -/
def Neat {α : Type} [HoldsTypes α] (a : α) : Prop := HoldsTypes.IsNeat a

/-! ## Kinds of values -/

/-- Values of which nothing else is said hold no types. -/
instance (priority := low) (α : Type) : HoldsTypes α := ⟨fun _ => True⟩

instance : HoldsTypes Ty := ⟨Ty.NearNormal BaseModule.types⟩

section Containers

variable {α β : Type} [HoldsTypes α] [HoldsTypes β]

instance : HoldsTypes (Option α) := ⟨fun o => ∀ a ∈ o, Neat a⟩

instance : HoldsTypes (List α) := ⟨fun l => ∀ a ∈ l, Neat a⟩

instance : HoldsTypes (α × β) := ⟨fun p => Neat p.1 ∧ Neat p.2⟩

end Containers

instance : HoldsTypes ClassDef := ⟨fun c => Neat c.superclass⟩

instance : HoldsTypes AliasDef := ⟨fun a => Neat a.target⟩

instance : HoldsTypes AncestorChain := ⟨fun c => Neat c.classes⟩

namespace Neat

variable {α β : Type} [HoldsTypes α] [HoldsTypes β]

protected theorem none : Neat (none : Option α) := fun _ h => nomatch h

protected theorem some {a : α} (h : Neat a) : Neat (some a) := by
  rintro b ⟨⟩
  exact h

theorem of_some {a : α} (h : Neat (some a)) : Neat a := h a rfl

protected theorem getD {o : Option α} (h : Neat o) {a : α} (ha : Neat a) : Neat (o.getD a) := by
  cases o with
  | none => exact ha
  | some b => exact h.of_some

protected theorem or {o o' : Option α} (h : Neat o) (h' : Neat o') : Neat (o.or o') := by
  cases o with
  | none => exact h'
  | some a => exact h

protected theorem map {o : Option α} (h : Neat o) {f : α → β} (hf : ∀ a, Neat a → Neat (f a)) :
    Neat (o.map f) := by
  cases o with
  | none => exact .none
  | some a => exact .some (hf a h.of_some)

theorem nil : Neat ([] : List α) := List.forall_mem_nil _

theorem cons {a : α} {l : List α} (ha : Neat a) (hl : Neat l) : Neat (a :: l) :=
  List.forall_mem_cons.mpr ⟨ha, hl⟩

end Neat

/-! ## Types that a tree declares -/

theorem neat_moduleType (t : Tree) : Neat (Session.moduleType t) := Ty.NearNormal.plain _

theorem neat_padded {args : List Ty} (h : Neat args) (arity : Nat) :
    Neat (Session.padded args arity) :=
  List.forall_mem_map.mpr fun i _ => Ty.NearNormal.argAt h i

theorem neat_typeIn? (t : Tree) (name : String) {args : List Ty} (hargs : Neat args) :
    Neat (Session.typeIn? t name args) := by
  intro type htype
  obtain ⟨n, -, htype⟩ := Option.bind_eq_some_iff.mp htype
  obtain ⟨kind, -, htype⟩ := Option.bind_eq_some_iff.mp htype
  split at htype
  · rw [← Option.some.inj htype]
    exact Ty.NearNormal.class_iff.mpr (neat_padded hargs _)
  · rw [← Option.some.inj htype]
    exact Ty.NearNormal.typeAlias_iff.mpr (neat_padded hargs _)
  · cases htype

theorem neat_firstExported? (ts : List Tree) (name : String) {args : List Ty} (hargs : Neat args) :
    Neat (Session.firstExported? ts name args) := by
  intro type htype
  obtain ⟨t, -, htype⟩ := List.exists_of_findSome?_eq_some htype
  obtain ⟨n, -, htype⟩ := Option.bind_eq_some_iff.mp htype
  rw [Option.ite_none_left_eq_some] at htype
  exact neat_typeIn? t name hargs type htype.2

theorem neat_typeParam? (t : Tree) (context : Nat) (name : String) :
    Neat (Session.typeParam? t context name) := by
  intro type htype
  obtain ⟨n, -, htype⟩ := List.exists_of_findSome?_eq_some htype
  obtain ⟨kind, -, htype⟩ := Option.bind_eq_some_iff.mp htype
  obtain ⟨index, -, htype⟩ := Option.bind_eq_some_iff.mp htype
  rw [← Option.some.inj htype]
  exact Ty.NearNormal.param _

namespace Session

/-! ## Neat sessions and queries -/

/-- All types that a session remembers are nearly in normal form. -/
structure IsNeat (s : Session) : Prop where
  classes : ∀ site c, s.classes.get? site = some c → Neat c
  aliases : ∀ site a, s.aliases.get? site = some a → Neat a
  chains : ∀ site c, s.chains.get? site = some c → Neat c

theorem IsNeat.new (W : Store) : (Session.new W).IsNeat where
  classes _ _ h := nomatch (show none = some _ from h)
  aliases _ _ h := nomatch (show none = some _ from h)
  chains _ _ h := nomatch (show none = some _ from h)

/-- Trees, modules and the store have no part in it. -/
theorem IsNeat.of_tables {s s' : Session} (h : s.IsNeat) (hclasses : s'.classes = s.classes)
    (haliases : s'.aliases = s.aliases) (hchains : s'.chains = s.chains) : s'.IsNeat :=
  ⟨hclasses ▸ h.classes, haliases ▸ h.aliases, hchains ▸ h.chains⟩

/-- A query keeps sessions neat and has neat answers. -/
def NeatQuery {α : Type} [HoldsTypes α] (q : Query α) : Prop :=
  ∀ s, s.IsNeat → (q s).2.IsNeat ∧ Neat (q s).1

namespace NeatQuery

variable {α β : Type} [HoldsTypes α] [HoldsTypes β]

theorem pure {a : α} (ha : Neat a) : NeatQuery (Pure.pure a) := fun _ hs => ⟨hs, ha⟩

theorem bind {q : Query α} {f : α → Query β} (hq : NeatQuery q)
    (hf : ∀ a, Neat a → NeatQuery (f a)) : NeatQuery (q >>= f) := by
  intro s hs
  obtain ⟨hs', ha⟩ := hq s hs
  exact hf _ ha _ hs'

end NeatQuery

/-- A monad over queries with a notion of neat computations. -/
class NeatMonad (n : Type → Type) [Monad n] [MonadLiftT Query n] where
  Neatly : {α : Type} → [HoldsTypes α] → n α → Prop
  pure : ∀ {α : Type} [HoldsTypes α] {a : α}, Neat a → Neatly (Pure.pure a : n α)
  bind : ∀ {α β : Type} [HoldsTypes α] [HoldsTypes β] {x : n α} {f : α → n β},
    Neatly x → (∀ a, Neat a → Neatly (f a)) → Neatly (x >>= f)
  lift : ∀ {α : Type} [HoldsTypes α] {q : Query α}, NeatQuery q → Neatly (monadLift q : n α)

/-- A computation keeps sessions neat and has neat answers. -/
def Neatly {n : Type → Type} [Monad n] [MonadLiftT Query n] [NeatMonad n] {α : Type}
    [HoldsTypes α] (x : n α) : Prop := NeatMonad.Neatly x

instance : NeatMonad Query where
  Neatly := NeatQuery
  pure := .pure
  bind := .bind
  lift h := h

/-- A query that may fail is neat as a query for an answer, if there is one. -/
instance : NeatMonad (OptionT Query) where
  Neatly x := NeatQuery x.run
  pure ha := .pure (.some ha)
  bind {α β _ _ x f} hx hf := by
    change NeatQuery (x.run >>= fun o => match o with
      | some a => (f a).run
      | none => pure none)
    refine .bind hx fun o ho => ?_
    cases o with
    | none => exact .pure .none
    | some a => exact hf a ho.of_some
  lift {α _ q} hq := by
    change NeatQuery (q >>= fun a => pure (some a))
    exact .bind hq fun a ha => .pure ha.some

/-- A query with pairs of types is neat if it is for all neat pairs. -/
instance : NeatMonad (StateT Pending Query) where
  Neatly x := ∀ p : Pending, Neat p → NeatQuery (x.run p)
  pure ha p hp := .pure ⟨ha, hp⟩
  bind {α β _ _ x f} hx hf p hp := by
    change NeatQuery (x.run p >>= fun a => (f a.1).run a.2)
    exact .bind (hx p hp) fun a ha => hf a.1 ha.1 a.2 ha.2
  lift {α _ q} hq p hp := by
    change NeatQuery (q >>= fun a => pure (a, p))
    exact .bind hq fun a ha => .pure ⟨ha, hp⟩

namespace Neatly

variable {n : Type → Type} [Monad n] [MonadLiftT Query n] [NeatMonad n]
variable {α β γ : Type} [HoldsTypes α] [HoldsTypes β]

protected theorem pure {a : α} (ha : Neat a) : Neatly (pure a : n α) := NeatMonad.pure ha

/-- There are no types in the answer. -/
theorem untyped {γ : Type} (o : Option γ) : Neatly (pure o : n (Option γ)) :=
  .pure fun _ _ => trivial

protected theorem bind {x : n α} {f : α → n β} (hx : Neatly x)
    (hf : ∀ a, Neat a → Neatly (f a)) : Neatly (x >>= f) := NeatMonad.bind hx hf

theorem lift {q : Query α} (hq : Neatly q) : Neatly (monadLift q : n α) := NeatMonad.lift hq

protected theorem map [LawfulMonad n] {x : n α} {f : α → β} (hx : Neatly x)
    (hf : ∀ a, Neat a → Neat (f a)) : Neatly (f <$> x) := by
  rw [map_eq_pure_bind]
  exact hx.bind fun a ha => .pure (hf a ha)

theorem and {x y : n Bool} (hx : Neatly x) (hy : Neatly y) : Neatly (x <&&> y) := by
  refine hx.bind fun b _ => ?_
  cases b with
  | false => exact .pure trivial
  | true => exact hy

theorem or {x y : n Bool} (hx : Neatly x) (hy : Neatly y) : Neatly (x <||> y) := by
  refine hx.bind fun b _ => ?_
  cases b with
  | false => exact hy
  | true => exact .pure trivial

theorem allM {f : γ → n Bool} {l : List γ} (h : ∀ c ∈ l, Neatly (f c)) : Neatly (l.allM f) := by
  induction l with
  | nil => exact .pure trivial
  | cons c l ih =>
    have ⟨hc, hl⟩ := List.forall_mem_cons.mp h
    refine hc.bind fun b _ => ?_
    cases b with
    | false => exact .pure trivial
    | true => exact ih hl

theorem anyM {f : γ → n Bool} {l : List γ} (h : ∀ c ∈ l, Neatly (f c)) : Neatly (l.anyM f) := by
  induction l with
  | nil => exact .pure trivial
  | cons c l ih =>
    have ⟨hc, hl⟩ := List.forall_mem_cons.mp h
    refine hc.bind fun b _ => ?_
    cases b with
    | false => exact ih hl
    | true => exact .pure trivial

theorem mapM [LawfulMonad n] {f : γ → n α} {l : List γ} (h : ∀ c ∈ l, Neatly (f c)) :
    Neatly (l.mapM f) := by
  induction l with
  | nil =>
    rw [List.mapM_nil]
    exact .pure .nil
  | cons c l ih =>
    have ⟨hc, hl⟩ := List.forall_mem_cons.mp h
    rw [List.mapM_cons]
    exact hc.bind fun a ha => (ih hl).bind fun as has => .pure (.cons ha has)

theorem firstAnswer {f : γ → n (Option α)} {l : List γ} (h : ∀ c ∈ l, Neatly (f c)) :
    Neatly (Session.firstAnswer f l) := by
  induction l with
  | nil => exact .pure .none
  | cons c l ih =>
    have ⟨hc, hl⟩ := List.forall_mem_cons.mp h
    refine hc.bind fun o ho => ?_
    cases o with
    | none => exact ih hl
    | some a => exact .pure ho

theorem optionMapM [LawfulMonad n] {f : γ → n α} {o : Option γ} (h : ∀ c ∈ o, Neatly (f c)) :
    Neatly (o.mapM f) := by
  cases o with
  | none => exact .pure .none
  | some c => exact (h c rfl).map fun a ha => ha.some

theorem failure : Neatly (failure : OptionT Query α) := NeatQuery.pure .none

theorem run {x : OptionT Query α} (hx : Neatly x) : Neatly x.run := hx

theorem run' {x : StateT Pending Query α} (hx : Neatly x) {p : Pending} (hp : Neat p) :
    Neatly (x.run' p) := by
  have hrun : Neatly (x.run p) := hx p hp
  exact hrun.map fun a ha => ha.1

end Neatly

/-! ## Trees and modules -/

theorem neat_get : Neatly (get : Query Session) := fun _ hs => ⟨hs, trivial⟩

theorem neat_tree? (id : ModuleId) : Neatly (tree? id) := by
  intro s hs
  refine ⟨?_, fun _ _ => trivial⟩
  rw [tree?_apply]
  split
  · exact hs
  · split
    · exact hs
    · split
      · exact hs
      · exact hs.of_tables rfl rfl rfl

theorem neat_resolveModule (importer : Tree) (uri : String) :
    Neatly (resolveModule importer uri) := by
  intro s hs
  refine ⟨?_, trivial⟩
  rw [resolveModule_apply]
  split
  · exact hs
  · split
    · exact hs
    · exact (neat_tree? _ s hs).1
    · exact hs.of_tables rfl rfl rfl

theorem neat_resolveModule? (importer : Tree) (uri : String) :
    Neatly (resolveModule? importer uri) :=
  (neat_resolveModule importer uri).bind fun _ _ => .pure fun _ _ => trivial

theorem neat_supermodule? (t : Tree) : Neatly (supermodule? t) := by
  unfold supermodule?
  split
  · exact .pure .none
  · exact neat_resolveModule? t _

theorem neat_supermodulesFrom (n : Nat) (seen : List ModuleId) (first : Option Tree) :
    Neatly (supermodulesFrom n seen first) := by
  induction n generalizing seen first with
  | zero =>
    unfold supermodulesFrom
    split
    · exact .pure .nil
    · split
      · exact .pure .nil
      · exact .pure .nil
  | succ n ih =>
    unfold supermodulesFrom
    split
    · exact .pure .nil
    · next t =>
      split
      · exact .pure .nil
      · refine (neat_supermodule? t).bind fun next _ => ?_
        exact (ih _ next).bind fun rest _ => .pure fun _ _ => trivial

theorem neat_supermodules (t : Tree) : Neatly (supermodules t) :=
  (neat_supermodule? t).bind fun first _ => neat_get.bind fun _ _ => neat_supermodulesFrom _ _ first

/-! ## Annotations -/

theorem neat_importTarget? (t : Tree) (name : String) : Neatly (importTarget? t name) := by
  unfold importTarget?
  split
  · exact neat_resolveModule? t _
  · exact .pure .none

theorem neat_qualifiedType? (t : Tree) (binding name : String) {args : List Ty}
    (hargs : Neat args) : Neatly (qualifiedType? t binding name args) := by
  unfold qualifiedType?
  refine (neat_importTarget? t binding).bind fun found _ => ?_
  cases found with
  | none => exact .pure .none
  | some m =>
    exact (neat_supermodules m).bind fun ms _ => .pure (neat_firstExported? _ name hargs)

theorem neat_simpleType? (t : Tree) (name : String) {args : List Ty} (hargs : Neat args) :
    Neatly (simpleType? t name args) := by
  unfold simpleType?
  split
  · next found hfound => exact .pure (hfound ▸ neat_typeIn? t name hargs)
  · refine (neat_supermodules t).bind fun ms _ => ?_
    split
    · next found hfound => exact .pure (hfound ▸ neat_firstExported? ms name hargs)
    · refine (neat_importTarget? t name).bind fun found _ => ?_
      cases found with
      | some m => exact .pure (.some (neat_moduleType m))
      | none => exact .pure (neat_typeIn? BaseModule.tree name hargs)

theorem neat_namedType (t : Tree) (name : String) {args : List Ty} (hargs : Neat args) :
    Neatly (namedType t name args) := by
  have hfound (found : Option Ty) (h : Neat found) :
      Neatly (pure (found.getD .unknown) : Query Ty) := .pure (h.getD .unknown)
  unfold namedType
  simp only
  split
  · exact (neat_qualifiedType? t _ _ hargs).bind hfound
  · exact (neat_simpleType? t _ hargs).bind hfound

mutual

theorem neat_resolveType (t : Tree) (context : Nat) (a : TypeExpr) :
    Neatly (resolveType t context a) := by
  cases a with
  | unknown => exact .pure .unknown
  | nothing => exact .pure .nothing
  | enclosingModule => exact .pure (neat_moduleType t)
  | literal text => exact .pure (.literal text)
  | nullable a =>
    rw [resolveType]
    exact (neat_resolveType t context a).bind fun type htype => .pure (Ty.NearNormal.orNull htype)
  | union as =>
    rw [resolveType]
    exact (neat_resolveTypes t context as).bind fun types htypes =>
      .pure (Ty.NearNormal.unionOf htypes)
  | function ps r =>
    rw [resolveType]
    refine (neat_resolveTypes t context ps).bind fun params hparams => ?_
    exact (neat_resolveType t context r).bind fun result hresult =>
      .pure (Ty.NearNormal.function_iff.mpr ⟨hparams, hresult⟩)
  | named name args =>
    rw [resolveType]
    split
    · next param hparam =>
      split at hparam
      · exact .pure (neat_typeParam? t context name param hparam)
      · exact nomatch hparam
    · exact (neat_resolveTypes t context args).bind fun types htypes =>
        neat_namedType t name htypes
termination_by structural a

theorem neat_resolveTypes (t : Tree) (context : Nat) (as : List TypeExpr) :
    Neatly (resolveTypes t context as) := by
  cases as with
  | nil => exact .pure .nil
  | cons a as =>
    rw [resolveTypes]
    refine (neat_resolveType t context a).bind fun type htype => ?_
    exact (neat_resolveTypes t context as).bind fun types htypes => .pure (.cons htype htypes)
termination_by structural as

end

/-! ## Definitions -/

/-- Remembering neat answers keeps sessions neat. -/
theorem neat_remembered {α : Type} [HoldsTypes α] {site : Site} {table : Session → Dict Site α}
    {store : Session → Dict Site α → Session} {compute : Query α}
    (hrecall : ∀ s : Session, s.IsNeat → ∀ site a, (table s).get? site = some a → Neat a)
    (hstore : ∀ (s : Session) (d : Dict Site α), s.IsNeat →
      (∀ site a, d.get? site = some a → Neat a) → (store s d).IsNeat)
    (hcompute : Neatly compute) : Neatly (remembered site table store compute) := by
  intro s hs
  rw [remembered_apply]
  split
  · next a ha => exact ⟨hs, hrecall s hs site a ha⟩
  · obtain ⟨hs', ha⟩ := hcompute s hs
    refine ⟨hstore _ _ hs' fun site' a' hget => ?_, ha⟩
    rw [Dict.get?_insertNew, Option.or_eq_some_iff] at hget
    rcases hget with hget | ⟨-, hget⟩
    · exact hrecall _ hs' site' a' hget
    · split at hget
      · exact Option.some.inj hget ▸ ha
      · exact nomatch hget

theorem neat_superclassOf (t : Tree) (n : Nat) (h : ClassHeader) : Neatly (superclassOf t n h) := by
  unfold superclassOf
  split
  · exact (neat_resolveType t n _).map fun a ha => ha.some
  · split
    · split
      · exact .pure .none
      · exact .pure (.some (Ty.NearNormal.plain _))
    · exact .pure (.some (Ty.NearNormal.plain _))

theorem neat_moduleSuperclass (t : Tree) : Neatly (moduleSuperclass t) := by
  unfold moduleSuperclass
  split
  · exact .pure (Ty.NearNormal.plain _)
  · refine (neat_resolveModule? t _).bind fun parent _ => ?_
    cases parent with
    | none => exact .pure .unknown
    | some parent => exact .pure (neat_moduleType parent)

theorem neat_classAt? (t : Tree) (d : DeclRef) : Neatly (classAt? t d) := by
  unfold classAt?
  split
  · exact (neat_superclassOf t _ _).bind fun superclass hsuperclass =>
      .pure (Neat.some (α := ClassDef) hsuperclass)
  · exact (neat_moduleSuperclass t).bind fun superclass hsuperclass =>
      .pure (Neat.some (α := ClassDef) hsuperclass.some)
  · exact .pure .none

theorem neat_aliasAt? (t : Tree) (d : DeclRef) : Neatly (aliasAt? t d) := by
  unfold aliasAt?
  split
  · exact (neat_resolveType t _ _).bind fun target htarget =>
      .pure (Neat.some (α := AliasDef) htarget)
  · exact .pure .none

theorem neat_classDef (d : DeclRef) : Neatly (classDef d) := by
  refine neat_remembered (fun s hs => hs.classes)
    (fun s classes hs h => ⟨h, hs.aliases, hs.chains⟩) ((neat_tree? _).bind fun found _ => ?_)
  cases found with
  | some t => exact neat_classAt? t d
  | none => exact .pure .none

theorem neat_aliasDef (d : DeclRef) : Neatly (aliasDef d) := by
  refine neat_remembered (fun s hs => hs.aliases)
    (fun s aliases hs h => ⟨hs.classes, h, hs.chains⟩) ((neat_tree? _).bind fun found _ => ?_)
  cases found with
  | some t => exact neat_aliasAt? t d
  | none => exact .pure .none

/-! ## Aliases and superclasses -/

theorem neat_expandFrom (n : Nat) (seen : List Site) {t : Ty} (ht : Neat t) :
    Neatly (env.expandFrom n seen t) := by
  induction n generalizing seen t with
  | zero =>
    unfold TypeEnv.expandFrom
    split
    · split
      · exact .pure .unknown
      · exact .pure .unknown
    · exact .pure ht
  | succ n ih =>
    unfold TypeEnv.expandFrom
    split
    · next d args =>
      split
      · exact .pure .unknown
      · refine Neatly.bind (n := Query) (neat_aliasDef d) fun found _ => ?_
        cases found with
        | none => exact .pure .unknown
        | some a => exact ih _ (Ty.NearNormal.substitute _ _ (Ty.NearNormal.typeAlias_iff.mp ht))
    · exact .pure ht

theorem neat_expand {t : Ty} (ht : Neat t) : Neatly (env.expand t) := neat_expandFrom _ _ ht

theorem neat_climb (target : Site) (n : Nat) (seen : List Site) (d : DeclRef) {args : List Ty}
    (hargs : Neat args) : Neatly (env.climb target n seen d args) := by
  induction n generalizing seen d args with
  | zero =>
    unfold TypeEnv.climb
    split
    · exact .pure hargs.some
    · split
      · exact .pure .none
      · exact .pure .none
  | succ n ih =>
    unfold TypeEnv.climb
    split
    · exact .pure hargs.some
    · split
      · exact .pure .none
      · refine Neatly.bind (n := Query) (neat_classDef d) fun found _ => ?_
        cases found with
        | none => exact .pure .none
        | some c =>
          cases hsuper : c.superclass with
          | none => simp only [hsuper]; exact .pure .none
          | some super =>
            simp only [hsuper]
            refine (neat_expand (Ty.NearNormal.substitute _ _ hargs)).bind fun type htype => ?_
            split
            · exact ih _ _ (Ty.NearNormal.class_iff.mp htype)
            · exact .pure .none

theorem neat_asSupertype? {t : Ty} (ht : Neat t) (target : DeclRef) :
    Neatly (env.asSupertype? t target) := by
  unfold TypeEnv.asSupertype?
  refine (neat_expand ht).bind fun type htype => ?_
  split
  · exact Neatly.bind (n := Query) (neat_get.bind fun s _ => .pure trivial) fun count _ =>
      neat_climb _ _ _ _ (Ty.NearNormal.class_iff.mp htype)
  · exact .pure .none

theorem neat_superclassDef {super : Option Ty} (hsuper : Neat super) :
    Neatly (superclassDef super) := by
  cases super with
  | none => exact .pure .none
  | some super =>
    refine (neat_expand hsuper.of_some).bind fun type htype => ?_
    split
    · exact neat_classDef _
    · exact .pure .none

theorem neat_chainFrom (n : Nat) (seen : List Site) {next : Option ClassDef} (hnext : Neat next) :
    Neatly (env.chainFrom n seen next) := by
  induction n generalizing seen next with
  | zero =>
    cases next with
    | none => exact .pure .nil
    | some c =>
      unfold TypeEnv.chainFrom
      split
      · exact .pure .nil
      · exact .pure .nil
  | succ n ih =>
    cases next with
    | none => exact .pure .nil
    | some c =>
      rw [chainFrom_succ]
      split
      · exact .pure .nil
      · refine (neat_superclassDef hnext.of_some).bind fun next hdef => ?_
        exact (ih _ hdef).bind fun rest hrest => .pure (Neat.cons hnext.of_some hrest)

theorem neat_ancestors (d : DeclRef) : Neatly (ancestors d) := by
  refine neat_remembered (fun s hs => hs.chains)
    (fun s chains hs h => ⟨hs.classes, hs.aliases, h⟩) ?_
  exact Neatly.bind (n := Query) (neat_classDef d) fun c hc =>
    Neatly.bind (n := Query) (neat_get.bind fun s _ => .pure trivial) fun count _ =>
      neat_chainFrom _ _ hc

theorem neat_membersOfClass (d : DeclRef) : Neatly (membersOfClass d) := by
  refine neat_remembered (fun s hs site a _ => trivial)
    (fun s members hs _ => hs.of_tables rfl rfl rfl) ?_
  exact (neat_ancestors d).bind fun chain _ => .pure trivial

theorem neat_memberOfClass? (d : DeclRef) (name : String) (kind : MemberKind) :
    Neatly (memberOfClass? d name kind) :=
  (neat_membersOfClass d).bind fun _ _ => .pure fun _ _ => trivial

theorem neat_hasUnknownAncestor (d : DeclRef) : Neatly (hasUnknownAncestor d) :=
  (neat_ancestors d).bind fun _ _ => .pure trivial

end Session

end PklAnalysis
