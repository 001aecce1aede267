import Mathlib.Order.Defs.PartialOrder
import PklAnalysis.Proofs.Lattice.ReachedAliases
import PklAnalysis.Proofs.Modules.ProperStores
import PklAnalysis.Proofs.Resolution.OneVersion

/-!
# Worlds

A store changes while references are followed: projects are noted, and modules are loaded.  A world
is what a store has become in this way.  Sessions over the store come by trees and forget and
remember answers; the definitions of type aliases that they read from trees are those that the store
defines.

A store is founded if all its modules are there and no alias reaches itself.  It has finitely many
aliases then, so whatever their definitions, every type can be taken apart to the end.
-/

namespace PklAnalysis

namespace Store

/-- What a store becomes when references are followed. -/
inductive LeadsTo (V : Store) : Store → Prop
  | refl : LeadsTo V V
  | resolve {W : Store} (h : LeadsTo V W) (uri : String) (importer : ModuleId) :
      LeadsTo V (Store.resolve uri importer W).2

namespace LeadsTo

variable {U V W : Store}

theorem trans (h : U.LeadsTo V) (h' : V.LeadsTo W) : U.LeadsTo W := by
  induction h' with
  | refl => exact h
  | resolve _ uri importer ih => exact ih.resolve uri importer

theorem tree? (h : V.LeadsTo W) {id : ModuleId} {t : Tree} (ht : V.tree? id = some t) :
    W.tree? id = some t := by
  induction h with
  | refl => exact ht
  | resolve _ uri importer ih => exact (resolves_resolve uri importer _).grows id t ih

theorem held (h : V.LeadsTo W) : V.held ⊆ W.held := fun _ => Or.imp_right h.tree?

theorem hasPlace (h : V.LeadsTo W) {site : Site} : V.HasPlace site → W.HasPlace site :=
  fun ⟨t, ht, hplace⟩ => ⟨t, h.held ht, hplace⟩

theorem isFiled (h : V.LeadsTo W) (hV : V.IsFiled) : W.IsFiled := by
  induction h with
  | refl => exact hV
  | resolve _ uri importer ih => exact ih.resolve uri importer

theorem base (h : V.LeadsTo W) (hV : V.tree? BaseModule.id = none) :
    W.tree? BaseModule.id = none := by
  induction h with
  | refl => exact hV
  | resolve _ uri importer ih => exact base_resolve ih uri importer

theorem trees (h : V.LeadsTo W) (hV : V.loader = none) :
    W.loader = none ∧ W.trees = V.trees := by
  induction h with
  | refl => exact ⟨hV, rfl⟩
  | resolve _ uri importer ih =>
    obtain ⟨hloader, htrees⟩ := ih
    obtain ⟨hloader', htrees'⟩ := resolve_of_loader hloader uri importer
    exact ⟨hloader', htrees'.trans htrees⟩

/-- Modules of proper stores that have a tree go on having it. -/
theorem current? (h : V.LeadsTo W) (hV : V.IsProper) {id : ModuleId} {t : Tree}
    (ht : V.current? id = some t) : W.current? id = some t := by
  have hW : W.IsProper := ⟨h.isFiled hV.toIsFiled, h.base hV.base⟩
  rw [hV.current?_eq] at ht
  split at ht
  · next hid => rwa [hW.current?_eq, if_pos hid]
  · exact Store.current?_of_tree? (h.tree? ht)

end LeadsTo

end Store

namespace Session

/-- The sessions that come about over a store by adopting its trees or that of the base module,
looking trees up, following URIs, and remembering or forgetting answers. -/
inductive Roams (W : Store) : Session → Prop
  | new : Roams W (new W)
  | adopt {s : Session} {t : Tree} (hs : Roams W s)
      (ht : t ∈ s.store.held) : Roams W (adopt t s).2
  | byId {s : Session} (hs : Roams W s) (id : ModuleId) : Roams W (tree? id s).2
  | byUri {s : Session} (hs : Roams W s) (importer : Tree) (uri : String) :
      Roams W (resolveModule importer uri s).2
  | remember {s s' : Session} (hs : Roams W s) (h : SameModules s s') : Roams W s'

theorem decl_of_aliasAt? {t : Tree} {d : DeclRef} {s : Session} {a : AliasDef}
    (h : (aliasAt? t d s).1 = some a) :
    a.decl = d ∧ ∃ header, t.kind? d.site.node = some (.typeAlias header) := by
  generalize hq : aliasAt? t d = q at h
  unfold aliasAt? at hq
  split at hq
  · next header hkind =>
    subst hq
    exact ⟨Option.some.inj h ▸ rfl, header, hkind⟩
  · subst hq
    cases h

/-- What a tree declares at a place is the alias of this place. -/
theorem decl_of_declaredAlias? {d : DeclRef} {s : Session} {a : AliasDef}
    (h : (declaredAlias? d s).1 = some a) : a.decl = d ∧ ∃ t header,
      (tree? d.site.module s).1 = some t ∧ t.kind? d.site.node = some (.typeAlias header) := by
  rw [declaredAlias?, bind_apply] at h
  cases hfound : (tree? d.site.module s).1 with
  | none =>
    rw [hfound] at h
    cases h
  | some t =>
    rw [hfound] at h
    obtain ⟨hdecl, header, hkind⟩ := decl_of_aliasAt? h
    exact ⟨hdecl, t, header, rfl, hkind⟩

end Session

/-- The definitions of type aliases that sessions over a store read from the trees. -/
def Store.Defines (W : Store) (a : AliasDef) : Prop :=
  ∃ s, Session.Roams W s ∧ (Session.declaredAlias? a.decl s).1 = some a

/-- A store and what it has become.  In some worlds types are judged: the base module is the only
one with its identity there. -/
structure World where
  origin : Store
  store : Store
  reached : origin.LeadsTo store
  isFiled : origin.IsFiled
  judgesTypes : Prop
  base : judgesTypes → origin.tree? BaseModule.id = none

namespace World

instance : Preorder World where
  le V W := V.origin = W.origin ∧ V.judgesTypes = W.judgesTypes ∧ V.store.LeadsTo W.store
  le_refl _ := ⟨rfl, rfl, .refl⟩
  le_trans _ _ _ h h' := ⟨h.1.trans h'.1, h.2.1.trans h'.2.1, h.2.2.trans h'.2.2⟩

variable {V W : World}

theorem keyed (W : World) : W.store.IsKeyed := (W.reached.isFiled W.isFiled).keyed

/-- The store of a world in which types are judged is proper. -/
theorem isProper (W : World) (h : W.judgesTypes) : W.store.IsProper :=
  ⟨W.reached.isFiled W.isFiled, W.reached.base (W.base h)⟩

/-- The world in which a reference has been followed. -/
def follow (W : World) (uri : String) (importer : ModuleId) : World :=
  { W with
    store := (Store.resolve uri importer W.store).2
    reached := W.reached.resolve uri importer }

theorem le_follow (W : World) (uri : String) (importer : ModuleId) :
    W ≤ W.follow uri importer := by
  have hstore : (W.follow uri importer).store = (Store.resolve uri importer W.store).2 := by
    rw [follow]
  exact ⟨by rw [follow], by rw [follow], hstore ▸ .resolve .refl uri importer⟩

theorem judgesTypes_of_le (h : V ≤ W) (hW : W.judgesTypes) : V.judgesTypes := h.2.1 ▸ hW

end World

namespace Store

/-! ## Founded stores -/

/-- There are no modules to be loaded, and no alias reaches itself through alias heads, question
marks and unions alone, whichever of its definitions are used. -/
structure IsFounded (W : Store) : Prop where
  loader : W.loader = none
  aliases : ∀ a, W.Defines a → ¬Ty.ReachesAlias W.Defines a a.decl.site

/-- A definition of an alias that has a place in a tree of the store. -/
def Provides (W : Store) (a : AliasDef) : Prop := W.Defines a ∧ W.HasPlace a.decl.site

variable {W : Store}

theorem HasPlace.mem_sites {site : Site} (h : W.HasPlace site) : site ∈ W.sites := by
  obtain ⟨t, ht, hid, hplace⟩ := h
  obtain ⟨kind, hkind⟩ := Option.isSome_iff_exists.mp hplace
  have hsite : site = Session.siteOf t site.node := by rw [Session.siteOf, hid]
  rw [hsite]
  exact Store.mem_sites ht (Tree.mem_indices_of_kind? hkind)

/-- Every type of a founded store can be taken apart to the end. -/
theorem IsFounded.wellFounded (h : W.IsFounded) (base : BaseTypes) :
    WellFounded (Ty.Beneath W.Provides base) := by
  have hfinite : {site | ∃ a, W.Provides a ∧ a.decl.site = site}.Finite := by
    refine W.sites.finite_toSet.subset ?_
    rintro _ ⟨a, ⟨-, hplace⟩, rfl⟩
    exact hplace.mem_sites
  refine ⟨Ty.comesToEnd (fun a ha => ?_) hfinite⟩
  rintro ⟨d, args, hreaches, hsite⟩
  exact h.aliases a ha.1 ⟨d, args, hreaches.mono fun _ => And.left, hsite⟩

end Store

end PklAnalysis
