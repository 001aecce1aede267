import PklAnalysis.Proofs.Resolution.Faithful
import PklAnalysis.Proofs.Resolution.Worlds

/-!
# Faithful queries

A session is faithful to a world if its store is that of the world and what it remembers is borne
out there.  A query is faithful if it keeps sessions faithful, up to references that are followed
meanwhile, and has answers that are faithful to the world as it is then; over a founded store it must
also do the same within all bounds that are deep enough.  Annotations, definitions, ancestors and
members are found so, about any trees that their modules have: arguments are cut or filled up
wherever a name is applied to them.
-/

namespace PklAnalysis.Session

/-! ## Faithful sessions and queries -/

/-- A session is in a world that bears out what it remembers. -/
structure IsFaithfulTo (W : World) (s : Session) : Prop where
  store : s.store = W.store
  roams : s.Roams W.origin
  trees : ∀ id t, s.trees.get? id = some t → t.id = id ∧ Faithful W t
  classes : ∀ site c, s.classes.get? site = some c →
    (∀ k ∈ c, k.decl.site = site) ∧ Faithful W c
  aliases : ∀ site a, s.aliases.get? site = some a →
    (∀ k ∈ a, k.decl.site = site) ∧ Faithful W a
  chains : ∀ site c, s.chains.get? site = some c → Faithful W c
  members : ∀ site c, s.members.get? site = some c → Faithful W c

variable {V W : World} {s : Session}

/-- The world of a store to begin with. -/
def start (W : Store) (hW : W.IsFiled) (judgesTypes : Prop)
    (hbase : judgesTypes → W.tree? BaseModule.id = none) : World :=
  ⟨W, W, .refl, hW, judgesTypes, hbase⟩

theorem IsFaithfulTo.new (W : Store) (hW : W.IsFiled) (judgesTypes : Prop)
    (hbase : judgesTypes → W.tree? BaseModule.id = none) :
    (new W).IsFaithfulTo (start W hW judgesTypes hbase) where
  store := rfl
  roams := .new
  trees _ _ h := nomatch (show none = some _ from h)
  classes _ _ h := nomatch (show none = some _ from h)
  aliases _ _ h := nomatch (show none = some _ from h)
  chains _ _ h := nomatch (show none = some _ from h)
  members _ _ h := nomatch (show none = some _ from h)

/-- What is remembered of classes stays faithful when references are followed. -/
theorem IsFaithfulTo.grow (h : s.IsFaithfulTo V) (hVW : V ≤ W) {s' : Session}
    (hstore : s'.store = W.store) (hroams : s'.Roams W.origin)
    (htrees : ∀ id t, s'.trees.get? id = some t → t.id = id ∧ Faithful W t)
    (hclasses : s'.classes = s.classes) (haliases : s'.aliases = s.aliases)
    (hchains : s'.chains = s.chains) (hmembers : s'.members = s.members) : s'.IsFaithfulTo W where
  store := hstore
  roams := hroams
  trees := htrees
  classes site c hc := (h.classes site c (hclasses ▸ hc)).imp_right (·.mono hVW)
  aliases site a ha := (h.aliases site a (haliases ▸ ha)).imp_right (·.mono hVW)
  chains site c hc := (h.chains site c (hchains ▸ hc)).mono hVW
  members site c hc := (h.members site c (hmembers ▸ hc)).mono hVW

/-- A query leaves a session faithful to some later world and has an answer that is faithful
there. -/
def KeepsFaith {α : Type} [Reporting α] (W : World) (q : Query α) (s : Session) : Prop :=
  ∃ U, W ≤ U ∧ (q s).2.IsFaithfulTo U ∧ Faithful U (q s).1

/-- From some depth on a query does the same in a session within all bounds, and nothing is done
beyond them. -/
def SettlesAt {α : Type} (q : [Bounds] → Query α) (s : Session) : Prop :=
  ∃ depth a s', ∀ B : Bounds, depth ≤ B.depth → @q B s = (a, s')

/-- From some world on, a query keeps sessions faithful and has faithful answers, however deep types
are followed; over a founded store it settles. -/
def FaithfulQuery {α : Type} [Reporting α] (V : World) (q : [Bounds] → Query α) : Prop :=
  ∀ W s, V ≤ W → s.IsFaithfulTo W →
    (∀ depth, KeepsFaith W (@q (.atDepth depth)) s) ∧ (W.origin.IsFounded → SettlesAt q s)

namespace FaithfulQuery

variable {α β : Type} [Reporting α] [Reporting β]

/-- A query for which no types are followed settles at once. -/
theorem of_keepsFaith {q : Query α} (h : ∀ W s, V ≤ W → s.IsFaithfulTo W → KeepsFaith W q s) :
    FaithfulQuery V q :=
  fun W s hW hs => ⟨fun _ => h W s hW hs, fun _ => ⟨0, (q s).1, (q s).2, fun _ _ => rfl⟩⟩

theorem pure {a : α} (ha : Faithful V a) : FaithfulQuery V (Pure.pure a) :=
  of_keepsFaith fun W _ hW hs => ⟨W, le_rfl, hs, ha.mono hW⟩

theorem bind {q : [Bounds] → Query α} {f : [Bounds] → α → Query β} (hq : FaithfulQuery V q)
    (hf : ∀ U a, V ≤ U → Faithful U a → FaithfulQuery U (f a)) : FaithfulQuery V (q >>= f) := by
  intro W s hW hs
  obtain ⟨hkeeps, hsettles⟩ := hq W s hW hs
  refine ⟨fun depth => ?_, fun hfounded => ?_⟩
  · obtain ⟨U, hU, hs', ha⟩ := hkeeps depth
    obtain ⟨U', hU', hs'', hb⟩ := (hf U _ (hW.trans hU) ha U _ le_rfl hs').1 depth
    exact ⟨U', hU.trans hU', hs'', hb⟩
  · obtain ⟨depth, a, s', hquery⟩ := hsettles hfounded
    obtain ⟨U, hU, hs', ha⟩ := hkeeps depth
    rw [hquery _ le_rfl] at hs' ha
    obtain ⟨depth', b, s'', hrest⟩ :=
      (hf U a (hW.trans hU) ha U s' le_rfl hs').2 (hU.1 ▸ hfounded)
    refine ⟨max depth depth', b, s'', fun B hB => ?_⟩
    have hfirst : @q B s = (a, s') := hquery B (le_trans (Nat.le_max_left ..) hB)
    change (@q B >>= @f B) s = (b, s'')
    rw [bind_apply, hfirst]
    exact hrest B (le_trans (Nat.le_max_right ..) hB)

theorem mono {q : [Bounds] → Query α} (hq : FaithfulQuery V q) (hVW : V ≤ W) :
    FaithfulQuery W q :=
  fun U s hU hs => hq U s (hVW.trans hU) hs

end FaithfulQuery

/-- A monad over queries with a notion of faithful computations. -/
class FaithfulMonad (n : Type → Type) [Monad n] [MonadLiftT Query n] where
  Faithfully : {α : Type} → [Reporting α] → World → ([Bounds] → n α) → Prop
  pure : ∀ {α : Type} [Reporting α] {V : World} {a : α}, Faithful V a →
    Faithfully V fun [Bounds] => (Pure.pure a : n α)
  bind : ∀ {α β : Type} [Reporting α] [Reporting β] {V : World} {x : [Bounds] → n α}
    {f : [Bounds] → α → n β}, Faithfully V @x →
    (∀ U a, V ≤ U → Faithful U a → Faithfully U (f a)) → Faithfully V (x >>= f)
  lift : ∀ {α : Type} [Reporting α] {V : World} {q : [Bounds] → Query α}, FaithfulQuery V q →
    Faithfully V fun [Bounds] => (monadLift q : n α)
  mono : ∀ {α : Type} [Reporting α] {V W : World} {x : [Bounds] → n α}, Faithfully V @x → V ≤ W →
    Faithfully W @x

/-- From some world on, a computation keeps sessions faithful and has faithful answers. -/
def Faithfully {n : Type → Type} [Monad n] [MonadLiftT Query n] [FaithfulMonad n] {α : Type}
    [Reporting α] (V : World) (x : [Bounds] → n α) : Prop := FaithfulMonad.Faithfully V x

instance : FaithfulMonad Query where
  Faithfully := FaithfulQuery
  pure := .pure
  bind := .bind
  lift h := h
  mono := .mono

/-- A query that may fail is faithful as a query for an answer, if there is one. -/
instance : FaithfulMonad (OptionT Query) where
  Faithfully V x := FaithfulQuery V (OptionT.run x)
  pure ha := .pure (.some ha)
  bind {α β _ _ V x f} hx hf := by
    change FaithfulQuery V (OptionT.run x >>= fun o => match o with
      | some a => OptionT.run (f a)
      | none => pure none)
    refine .bind hx fun U o hU ho => ?_
    cases o with
    | none => exact .pure .none
    | some a => exact hf U a hU ho.of_some
  lift {α _ V q} hq := by
    change FaithfulQuery V (q >>= fun a => pure (some a))
    exact .bind hq fun U a _ ha => .pure ha.some
  mono hx hVW := FaithfulQuery.mono hx hVW

/-- A query with pairs of types is faithful if it is for all pairs of faithful types. -/
instance : FaithfulMonad (StateT Pending Query) where
  Faithfully V x := ∀ U (p : Pending), V ≤ U → Faithful U p → FaithfulQuery U (StateT.run x p)
  pure ha U p hU hp := .pure ⟨ha.mono hU, hp⟩
  bind {α β _ _ V x f} hx hf U p hU hp := by
    change FaithfulQuery U (StateT.run x p >>= fun a => StateT.run (f a.1) a.2)
    exact .bind (hx U p hU hp) fun U' a hU' ha =>
      hf U' a.1 (hU.trans hU') ha.1 U' a.2 le_rfl ha.2
  lift {α _ V q} hq U p hU hp := by
    change FaithfulQuery U (q >>= fun a => pure (a, p))
    exact .bind (hq.mono hU) fun U' a hU' ha => .pure ⟨ha, hp.mono hU'⟩
  mono hx hVW U p hU hp := hx U p (hVW.trans hU) hp

namespace Faithfully

variable {n : Type → Type} [Monad n] [MonadLiftT Query n] [FaithfulMonad n]
variable {α β γ : Type} [Reporting α] [Reporting β]

protected theorem pure {a : α} (ha : Faithful V a) :
    Faithfully V fun [Bounds] => (pure a : n α) :=
  FaithfulMonad.pure ha

protected theorem bind {x : [Bounds] → n α} {f : [Bounds] → α → n β} (hx : Faithfully V x)
    (hf : ∀ U a, V ≤ U → Faithful U a → Faithfully U (f a)) : Faithfully V (x >>= f) :=
  FaithfulMonad.bind hx hf

theorem lift {q : [Bounds] → Query α} (hq : Faithfully V q) :
    Faithfully V fun [Bounds] => (monadLift q : n α) :=
  FaithfulMonad.lift hq

theorem mono {x : [Bounds] → n α} (hx : Faithfully V x) (hVW : V ≤ W) : Faithfully W x :=
  FaithfulMonad.mono hx hVW

protected theorem map [LawfulMonad n] {x : [Bounds] → n α} {f : α → β} (hx : Faithfully V x)
    (hf : ∀ U a, V ≤ U → Faithful U a → Faithful U (f a)) : Faithfully V (f <$> x) := by
  simp only [map_eq_pure_bind]
  exact hx.bind fun U a hU ha => .pure (hf U a hU ha)

theorem and {x y : [Bounds] → n Bool} (hx : Faithfully V x) (hy : Faithfully V y) :
    Faithfully V (x <&&> y) := by
  refine hx.bind fun U b hU _ => ?_
  cases b with
  | false => exact .pure trivial
  | true => exact hy.mono hU

theorem or {x y : [Bounds] → n Bool} (hx : Faithfully V x) (hy : Faithfully V y) :
    Faithfully V (x <||> y) := by
  refine hx.bind fun U b hU _ => ?_
  cases b with
  | false => exact hy.mono hU
  | true => exact .pure trivial

theorem allM {f : [Bounds] → γ → n Bool} {l : List γ} (h : ∀ c ∈ l, Faithfully V (f c)) :
    Faithfully V (l.allM f) := by
  induction l generalizing V with
  | nil => exact .pure trivial
  | cons c l ih =>
    have ⟨hc, hl⟩ := List.forall_mem_cons.mp h
    refine hc.bind fun U b hU _ => ?_
    cases b with
    | false => exact .pure trivial
    | true => exact ih fun c hc => (hl c hc).mono hU

theorem anyM {f : [Bounds] → γ → n Bool} {l : List γ} (h : ∀ c ∈ l, Faithfully V (f c)) :
    Faithfully V (l.anyM f) := by
  induction l generalizing V with
  | nil => exact .pure trivial
  | cons c l ih =>
    have ⟨hc, hl⟩ := List.forall_mem_cons.mp h
    refine hc.bind fun U b hU _ => ?_
    cases b with
    | false => exact ih fun c hc => (hl c hc).mono hU
    | true => exact .pure trivial

theorem mapM [LawfulMonad n] {f : [Bounds] → γ → n α} {l : List γ}
    (h : ∀ c ∈ l, Faithfully V (f c)) : Faithfully V (l.mapM f) := by
  induction l generalizing V with
  | nil =>
    simp only [List.mapM_nil]
    exact .pure .nil
  | cons c l ih =>
    have ⟨hc, hl⟩ := List.forall_mem_cons.mp h
    simp only [List.mapM_cons]
    refine hc.bind fun U a hU ha => ?_
    refine (ih fun c hc => (hl c hc).mono hU).bind fun U' as hU' has => ?_
    exact .pure (.cons (ha.mono hU') has)

theorem firstAnswer {f : [Bounds] → γ → n (Option α)} {l : List γ}
    (h : ∀ c ∈ l, Faithfully V (f c)) : Faithfully V (Session.firstAnswer f l) := by
  induction l generalizing V with
  | nil => exact .pure .none
  | cons c l ih =>
    have ⟨hc, hl⟩ := List.forall_mem_cons.mp h
    refine hc.bind fun U o hU ho => ?_
    cases o with
    | none => exact ih fun c hc => (hl c hc).mono hU
    | some a => exact .pure ho

theorem optionMapM [LawfulMonad n] {f : [Bounds] → γ → n α} {o : Option γ}
    (h : ∀ c ∈ o, Faithfully V (f c)) : Faithfully V (o.mapM f) := by
  cases o with
  | none => exact .pure .none
  | some c => exact (h c rfl).map fun _ a _ ha => ha.some

theorem failure : Faithfully V fun [Bounds] => (failure : OptionT Query α) :=
  FaithfulQuery.pure .none

theorem run {x : [Bounds] → OptionT Query α} (hx : Faithfully V x) :
    Faithfully V (OptionT.run x) := hx

/-- A faithful query keeps a session faithful and has a faithful answer. -/
theorem keepsFaith {q : [Bounds] → Query α} (hq : Faithfully V q) (hVW : V ≤ W)
    (hs : s.IsFaithfulTo W) (depth : Nat) :
    KeepsFaith W (@q (.atDepth depth)) s := (hq W s hVW hs).1 depth

theorem run' {x : [Bounds] → StateT Pending Query α} (hx : Faithfully V x) {p : Pending}
    (hp : Faithful V p) : Faithfully V (StateT.run' x p) := by
  have hrun : Faithfully V (StateT.run x p) := hx V p le_rfl hp
  exact hrun.map fun _ a _ ha => ha.1

end Faithfully

/-! ## Trees and modules -/

/-- The tree that is looked up for a module is one that it has. -/
theorem IsFaithfulTo.tree?_spec (h : s.IsFaithfulTo W) (id : ModuleId) :
    (∀ t, (tree? id s).1 = some t → t.id = id ∧ Faithful W t) ∧
      (tree? id s).2.IsFaithfulTo W := by
  have hroams := h.roams.byId id
  rw [tree?_apply] at hroams ⊢
  split at hroams
  · next hid =>
    rw [if_pos hid]
    refine ⟨?_, h⟩
    rintro t ⟨⟩
    exact ⟨hid.symm, .base⟩
  · next hid =>
    rw [if_neg hid]
    cases hown : s.trees.get? id with
    | some own =>
      refine ⟨?_, h⟩
      rintro t ⟨⟩
      exact h.trees id own hown
    | none =>
      cases hstored : s.store.tree? id with
      | none => exact ⟨(fun t ht => nomatch ht), h⟩
      | some stored =>
        rw [hown, hstored] at hroams
        have hid := W.keyed id stored (h.store ▸ hstored)
        have hfaithful : Faithful W stored := .inr (by rw [hid, ← h.store, hstored])
        refine ⟨?_, h.grow le_rfl h.store hroams (fun id' t ht => ?_) rfl rfl rfl rfl⟩
        · rintro t ⟨⟩
          exact ⟨hid, hfaithful⟩
        · rw [get?_trees_setTree] at ht
          split at ht
          · next hid' => exact Option.some.inj ht ▸ ⟨hid', hfaithful⟩
          · exact h.trees id' t ht

theorem faithful_get : Faithfully V fun [Bounds] => (get : Query Session) :=
  FaithfulQuery.of_keepsFaith fun W _ _ hs => ⟨W, le_rfl, hs, trivial⟩

theorem faithful_tree? (id : ModuleId) : Faithfully V (tree? id) := by
  refine FaithfulQuery.of_keepsFaith fun W s hW hs => ?_
  obtain ⟨hanswer, hs'⟩ := hs.tree?_spec id
  exact ⟨W, le_rfl, hs', fun t ht => (hanswer t ht).2⟩

/-- What follows when the tree of a module has been looked up may rely on its being the tree of that
module. -/
theorem faithful_tree?_bind {α : Type} [Reporting α] (id : ModuleId)
    {f : [Bounds] → Option Tree → Query α}
    (hnone : Faithfully V (f none))
    (hsome : ∀ t, t.id = id → ∀ U, V ≤ U → Faithful U t → Faithfully U (f (some t))) :
    Faithfully V (tree? id >>= f) := by
  intro W s hW hs
  obtain ⟨hanswer, hs'⟩ := hs.tree?_spec id
  have hrest : FaithfulQuery W (f (tree? id s).1) := by
    cases hfound : (tree? id s).1 with
    | none => exact Faithfully.mono hnone hW
    | some t =>
      obtain ⟨hid, ht⟩ := hanswer t hfound
      exact hsome t hid W hW ht
  exact hrest W _ le_rfl hs'

theorem faithful_resolveModule {importer : Tree} (uri : String) :
    Faithfully V (resolveModule importer uri) := by
  refine FaithfulQuery.of_keepsFaith fun W s hW hs => ?_
  have hroams := hs.roams.byUri importer uri
  have hresolves := Store.resolves_resolve uri importer.id s.store
  have hfollow : (W.follow uri importer.id).store = (Store.resolve uri importer.id s.store).2 := by
    rw [hs.store]
    rfl
  have hkeyed := W.keyed
  rw [← hs.store] at hkeyed
  rw [resolveModule_apply] at hroams
  rw [KeepsFaith, resolveModule_apply]
  -- left in place, what the store finds would be computed
  generalize Store.resolve uri importer.id s.store = resolved at hroams hresolves hfollow ⊢
  split at hroams
  · next huri =>
    rw [if_pos huri]
    refine ⟨W, le_rfl, hs, ?_⟩
    rintro t ⟨⟩
    exact .base
  · next huri =>
    rw [if_neg huri]
    split at hroams
    · exact ⟨W, le_rfl, hs, fun t ht => nomatch ht⟩
    · next id _ =>
      obtain ⟨hanswer, hs'⟩ := hs.tree?_spec id
      refine ⟨W, le_rfl, hs', fun t ht => ?_⟩
      simp only at ht
      split at ht
      · next u hu =>
        obtain rfl := Except.ok.inj ht
        exact (hanswer u hu).2
      · cases ht
    · -- the store may have loaded the module that is found
      have hle := W.le_follow uri importer.id
      have hfound (t : Tree) (ht : resolved.1 = .ok t) : Faithful (W.follow uri importer.id) t :=
        .inr (hfollow ▸ hresolves.stored hkeyed t ht)
      refine ⟨_, hle, hs.grow hle hfollow.symm hroams (fun id t ht => ?_) rfl rfl rfl rfl, hfound⟩
      rcases get?_trees_following.mp ht with ht | ⟨-, ht, hid⟩
      · exact (hs.trees id t ht).imp_right (·.mono hle)
      · exact ⟨hid, hfound t ht⟩

theorem faithful_resolveModule? (importer : Tree) (uri : String) :
    Faithfully V (resolveModule? importer uri) := by
  refine (faithful_resolveModule uri).bind fun U found _ hfound => .pure fun t ht => ?_
  exact hfound t (eq_ok_of_toOption ht)

theorem faithful_supermodule? (t : Tree) : Faithfully V (supermodule? t) := by
  unfold supermodule?
  split
  · exact .pure .none
  · exact faithful_resolveModule? t _

theorem faithful_supermodulesFrom (n : Nat) (seen : List ModuleId) {first : Option Tree}
    (hfirst : Faithful V first) : Faithfully V (supermodulesFrom n seen first) := by
  induction n generalizing V seen first with
  | zero =>
    unfold supermodulesFrom
    split
    · exact .pure .nil
    · split
      · exact .pure .nil
      · exact .pure .nil
  | succ n ih =>
    unfold supermodulesFrom
    split
    · exact .pure .nil
    · next t =>
      split
      · exact .pure .nil
      · refine (faithful_supermodule? t).bind fun U next hU hnext => ?_
        refine (ih _ hnext).bind fun U' rest hU' hrest => .pure ?_
        exact .cons (hfirst.of_some.mono (hU.trans hU')) hrest

theorem faithful_supermodules (t : Tree) : Faithfully V (supermodules t) :=
  (faithful_supermodule? t).bind fun _ _ _ hfirst => faithful_get.bind fun _ _ hU _ =>
    faithful_supermodulesFrom _ _ (hfirst.mono hU)

/-! ## Annotations -/

theorem faithful_importTarget? (t : Tree) (name : String) :
    Faithfully V (importTarget? t name) := by
  unfold importTarget?
  split
  · exact faithful_resolveModule? t _
  · exact .pure .none

theorem faithful_qualifiedType? (t : Tree) (binding name : String) {args : List Ty}
    (hargs : Faithful V args) : Faithfully V (qualifiedType? t binding name args) := by
  unfold qualifiedType?
  refine (faithful_importTarget? t binding).bind fun U found hU hfound => ?_
  cases found with
  | none => exact .pure .none
  | some m =>
    refine (faithful_supermodules m).bind fun U' ms hU' hms => .pure ?_
    exact .firstExported? (.cons (hfound.of_some.mono hU') hms) name (hargs.mono (hU.trans hU'))

theorem faithful_simpleType? {t : Tree} (ht : Faithful V t) (name : String) {args : List Ty}
    (hargs : Faithful V args) : Faithfully V (simpleType? t name args) := by
  unfold simpleType?
  split
  · next found hfound => exact .pure (hfound ▸ ht.typeIn? name hargs)
  · refine (faithful_supermodules t).bind fun U ms hU hms => ?_
    have hinherited := hms.firstExported? name (hargs.mono hU)
    split
    · next found hfound => exact .pure (hfound ▸ hinherited)
    · refine (faithful_importTarget? t name).bind fun U' found hU' hfound => ?_
      cases found with
      | some m => exact .pure (.some hfound.of_some.moduleType)
      | none => exact .pure (Faithful.base.typeIn? name (hargs.mono (hU.trans hU')))

theorem faithful_namedType {t : Tree} (ht : Faithful V t) (name : String) {args : List Ty}
    (hargs : Faithful V args) : Faithfully V (namedType t name args) := by
  have hfound (U : World) (found : Option Ty) (hfound : Faithful U found) :
      Faithfully U fun [Bounds] => (pure (found.getD .unknown) : Query Ty) :=
    .pure (hfound.getD Faithful.unknown)
  unfold namedType
  simp only
  split
  · exact (faithful_qualifiedType? t _ _ hargs).bind fun U found _ => hfound U found
  · exact (faithful_simpleType? ht name hargs).bind fun U found _ => hfound U found

mutual

theorem faithful_resolveType {V : World} {t : Tree} (ht : Faithful V t) (context : Nat)
    (a : TypeExpr) : Faithfully V (resolveType t context a) := by
  cases a with
  | unknown => exact .pure Faithful.unknown
  | nothing => exact .pure Faithful.nothing
  | enclosingModule => exact .pure ht.moduleType
  | literal text => exact .pure (Faithful.literal text)
  | nullable a =>
    rw [resolveType]
    exact (faithful_resolveType ht context a).bind fun _ _ _ htype => .pure htype.orNull
  | union as =>
    rw [resolveType]
    exact (faithful_resolveTypes ht context as).bind fun _ _ _ htypes => .pure htypes.unionOf
  | function ps r =>
    rw [resolveType]
    refine (faithful_resolveTypes ht context ps).bind fun U params hU hparams => ?_
    refine (faithful_resolveType (ht.mono hU) context r).bind fun U' result hU' hresult => ?_
    exact .pure (Faithful.function_iff.mpr ⟨hparams.mono hU', hresult⟩)
  | named name args =>
    rw [resolveType]
    split
    · next param hparam =>
      split at hparam
      · exact .pure (ht.typeParam? context name param hparam)
      · cases hparam
    · exact (faithful_resolveTypes ht context args).bind fun U types hU htypes =>
        faithful_namedType (ht.mono hU) name htypes
termination_by structural a

theorem faithful_resolveTypes {V : World} {t : Tree} (ht : Faithful V t) (context : Nat)
    (as : List TypeExpr) : Faithfully V (resolveTypes t context as) := by
  cases as with
  | nil => exact .pure .nil
  | cons a as =>
    rw [resolveTypes]
    refine (faithful_resolveType ht context a).bind fun U type hU htype => ?_
    refine (faithful_resolveTypes (ht.mono hU) context as).bind fun U' types hU' htypes => ?_
    exact .pure (.cons (htype.mono hU') htypes)
termination_by structural as

end

/-! ## Definitions -/

/-- A table whose answers are borne out by the world of a faithful session and are about the places
for which they are remembered, and in which such answers can be remembered. -/
structure IsReliable {α : Type} [Reporting α] (IsAbout : Site → α → Prop)
    (table : Session → Dict Site α) (store : Session → Dict Site α → Session) : Prop where
  recalled : ∀ {W s}, IsFaithfulTo W s → ∀ site a, (table s).get? site = some a →
    IsAbout site a ∧ Faithful W a
  kept : ∀ {W s} {d : Dict Site α}, IsFaithfulTo W s →
    (∀ site a, d.get? site = some a → IsAbout site a ∧ Faithful W a) → (store s d).IsFaithfulTo W

theorem faithful_remembered {α : Type} [Reporting α] {site : Site} {IsAbout : Site → α → Prop}
    {table : Session → Dict Site α} {store : Session → Dict Site α → Session} {compute : Query α}
    (h : IsReliable IsAbout table store) (hcompute : Faithfully V compute)
    (habout : ∀ s, IsAbout site (compute s).1) :
    Faithfully V (remembered site table store compute) := by
  refine FaithfulQuery.of_keepsFaith fun W s hW hs => ?_
  rw [KeepsFaith, remembered_apply]
  split
  · next a ha => exact ⟨W, le_rfl, hs, (h.recalled hs site a ha).2⟩
  · obtain ⟨U, hU, hs', ha⟩ := hcompute.keepsFaith hW hs 0
    refine ⟨U, hU, h.kept hs' fun site' a' hget => ?_, ha⟩
    rw [Dict.get?_insertNew, Option.or_eq_some_iff] at hget
    rcases hget with hget | ⟨-, hget⟩
    · exact h.recalled hs' site' a' hget
    · obtain ⟨hsite, hget⟩ := Option.ite_none_right_eq_some.mp hget
      exact Option.some.inj hget ▸ ⟨beq_iff_eq.mp hsite ▸ habout s, ha⟩

theorem isReliable_classes : IsReliable (fun site c => ∀ k ∈ c, k.decl.site = site) (·.classes)
    fun s classes => { s with classes } :=
  ⟨fun h => h.classes, fun h hd => ⟨h.store, h.roams.remember ⟨rfl, rfl, rfl⟩, h.trees, hd,
    h.aliases, h.chains, h.members⟩⟩

theorem isReliable_aliases : IsReliable (fun site a => ∀ k ∈ a, k.decl.site = site) (·.aliases)
    fun s aliases => { s with aliases } :=
  ⟨fun h => h.aliases, fun h hd => ⟨h.store, h.roams.remember ⟨rfl, rfl, rfl⟩, h.trees, h.classes,
    hd, h.chains, h.members⟩⟩

theorem isReliable_chains : IsReliable (fun _ _ => True) (·.chains)
    fun s chains => { s with chains } :=
  ⟨fun h site c hc => ⟨trivial, h.chains site c hc⟩, fun h hd => ⟨h.store,
    h.roams.remember ⟨rfl, rfl, rfl⟩, h.trees, h.classes, h.aliases,
    fun site c hc => (hd site c hc).2, h.members⟩⟩

theorem isReliable_members : IsReliable (fun _ _ => True) (·.members)
    fun s members => { s with members } :=
  ⟨fun h site c hc => ⟨trivial, h.members site c hc⟩, fun h hd => ⟨h.store,
    h.roams.remember ⟨rfl, rfl, rfl⟩, h.trees, h.classes, h.aliases, h.chains,
    fun site c hc => (hd site c hc).2⟩⟩

theorem faithful_superclassOf {t : Tree} (ht : Faithful V t) (n : Nat) (h : ClassHeader) :
    Faithfully V (superclassOf t n h) := by
  unfold superclassOf
  split
  · exact (faithful_resolveType ht n _).map fun _ _ _ ha => ha.some
  · split
    · split
      · exact .pure .none
      · exact .pure (.some (.plain (by simp [BaseTypes.plainDecls])))
    · exact .pure (.some (.plain (by simp [BaseTypes.plainDecls])))

theorem faithful_moduleSuperclass (t : Tree) : Faithfully V (moduleSuperclass t) := by
  unfold moduleSuperclass
  split
  · exact .pure (.plain (by simp [BaseTypes.plainDecls]))
  · refine (faithful_resolveModule? t _).bind fun U parent _ hparent => ?_
    cases parent with
    | none => exact .pure Faithful.unknown
    | some parent => exact .pure hparent.of_some.moduleType

/-- The definition at a place is found in the tree of its module. -/
theorem faithful_classAt? {t : Tree} (ht : Faithful V t) {d : DeclRef}
    (hid : t.id = d.site.module) : Faithfully V (classAt? t d) := by
  have hsig {U : World} (hU : V ≤ U) (hjudged : U.judgesTypes) :
      U.store.signature? d.site = (t.kind? d.site.node).bind Signature.ofKind? := by
    rw [← (ht.mono hU).signature?_eq hjudged, siteOf, hid]
  unfold classAt?
  split
  · next hkind =>
    refine (faithful_superclassOf ht _ _).bind fun U super hU hsuper => .pure (.some ?_)
    refine ⟨fun hjudged => (hsig hU hjudged).trans (by rw [hkind]; rfl),
      ⟨t, ht.mono hU, hid, Option.isSome_of_mem hkind⟩, hsuper, (ht.mono hU).membersOf _ _⟩
  · next hkind =>
    refine (faithful_moduleSuperclass t).bind fun U super hU hsuper => .pure (.some ?_)
    refine ⟨fun hjudged => (hsig hU hjudged).trans (by rw [hkind]; rfl),
      ⟨t, ht.mono hU, hid, Option.isSome_of_mem hkind⟩, hsuper.some, (ht.mono hU).membersOf _ _⟩
  · exact .pure .none

theorem decl_of_classAt? {t : Tree} {d : DeclRef} {c : ClassDef}
    (h : (classAt? t d s).1 = some c) : c.decl = d := by
  generalize hq : classAt? t d = q at h
  unfold classAt? at hq
  split at hq
  · subst hq
    exact Option.some.inj h ▸ rfl
  · subst hq
    exact Option.some.inj h ▸ rfl
  · subst hq
    cases h

/-- The definition that the tree of its module gives a class is that of this class. -/
theorem decl_of_tree?_classAt? {d : DeclRef} {c : ClassDef}
    (h : ((do match ← tree? d.site.module with
      | some t => classAt? t d
      | none => return none : Query (Option ClassDef)) s).1 = some c) : c.decl = d := by
  rw [bind_apply] at h
  cases hfound : (tree? d.site.module s).1 with
  | none =>
    rw [hfound] at h
    cases h
  | some t =>
    rw [hfound] at h
    exact decl_of_classAt? h

theorem faithful_classDef (d : DeclRef) : Faithfully V (classDef d) :=
  faithful_remembered isReliable_classes (faithful_tree?_bind _ (.pure .none)
    fun _ hid _ _ ht => faithful_classAt? ht hid) fun _ _ hc =>
      congrArg DeclRef.site (decl_of_tree?_classAt? hc)

theorem faithful_target (d : DeclRef) :
    Faithfully V fun [Bounds] =>
      (do return (← declaredAlias? d).map AliasDef.target : Query (Option Ty)) := by
  unfold declaredAlias?
  rw [bind_assoc]
  refine (faithful_tree? _).bind fun U found _ hfound => ?_
  cases found with
  | none => exact .pure .none
  | some t =>
    simp only [aliasAt?]
    split
    · exact (faithful_resolveType hfound.of_some _ _).bind fun _ _ _ htype => .pure htype.some
    · exact .pure .none

/-- The definition of an alias is one that the store defines. -/
theorem faithful_declaredAlias? (d : DeclRef) : Faithfully V (declaredAlias? d) := by
  refine FaithfulQuery.of_keepsFaith fun W s hW hs => ?_
  obtain ⟨U, hU, hs', htarget⟩ := (faithful_target d).keepsFaith hW hs 0
  refine ⟨U, hU, hs', fun a ha => ?_⟩
  obtain ⟨hdecl, t, header, ht, hkind⟩ := decl_of_declaredAlias? ha
  obtain ⟨hid, hheld⟩ := (hs.tree?_spec d.site.module).1 t ht
  refine ⟨hU.1 ▸ ⟨s, hs.roams, ?_⟩, ?_, ?_⟩
  · rw [hdecl]
    exact ha
  · rw [hdecl]
    exact ⟨t, hheld.mono hU, hid, Option.isSome_of_mem hkind⟩
  · exact htarget a.target (congrArg (Option.map AliasDef.target) ha)

theorem faithful_aliasDef (d : DeclRef) : Faithfully V (aliasDef d) := by
  rw [aliasDef_eq]
  refine faithful_remembered isReliable_aliases (faithful_declaredAlias? d) fun s a ha => ?_
  exact congrArg DeclRef.site (decl_of_declaredAlias? ha).1

/-! ## Aliases and superclasses -/

theorem faithful_expandFrom (n : Nat) (seen : List Site) {t : Ty} (ht : Faithful V t) :
    Faithfully V (env.expandFrom n seen t) := by
  induction n generalizing V seen t with
  | zero =>
    unfold TypeEnv.expandFrom
    split
    · split
      · exact .pure Faithful.unknown
      · exact .pure Faithful.unknown
    · exact .pure ht
  | succ n ih =>
    unfold TypeEnv.expandFrom
    split
    · next d args =>
      split
      · exact .pure Faithful.unknown
      · refine Faithfully.bind (n := Query) (faithful_aliasDef d) fun U found hU hfound => ?_
        cases found with
        | none => exact .pure Faithful.unknown
        | some a =>
          have htarget : Faithful U a.target := hfound.of_some.2.2
          exact ih _ (htarget.substitute _ (ht.typeAlias_args.mono hU))
    · exact .pure ht

theorem faithful_expand {t : Ty} (ht : Faithful V t) : Faithfully V (env.expand t) :=
  faithful_expandFrom _ _ ht

theorem faithful_climb (target : Site) (n : Nat) (seen : List Site) (d : DeclRef) {args : List Ty}
    (hargs : Faithful V args) : Faithfully V (env.climb target n seen d args) := by
  induction n generalizing V seen d args with
  | zero =>
    unfold TypeEnv.climb
    split
    · exact .pure hargs.some
    · split
      · exact .pure .none
      · exact .pure .none
  | succ n ih =>
    unfold TypeEnv.climb
    split
    · exact .pure hargs.some
    · split
      · exact .pure .none
      · refine Faithfully.bind (n := Query) (faithful_classDef d) fun U found hU hfound => ?_
        cases found with
        | none => exact .pure .none
        | some c =>
          cases hsuper : c.superclass with
          | none =>
            simp only [hsuper]
            exact .pure .none
          | some super =>
            have hfaithful : Faithful U (some super) := hsuper ▸ hfound.of_some.2.2.1
            simp only [hsuper]
            refine (faithful_expand (hfaithful.of_some.substitute _ (hargs.mono hU))).bind
              fun U' type hU' htype => ?_
            split
            · exact ih _ _ htype.class_args
            · exact .pure .none

theorem faithful_asSupertype? {t : Ty} (ht : Faithful V t) (target : DeclRef) :
    Faithfully V (env.asSupertype? t target) := by
  unfold TypeEnv.asSupertype?
  refine (faithful_expand ht).bind fun U type _ htype => ?_
  split
  · exact Faithfully.bind (n := Query) (faithful_get.bind fun _ _ _ _ => .pure trivial)
      fun U' count hU' _ => faithful_climb _ _ _ _ (htype.class_args.mono hU')
  · exact .pure .none

theorem faithful_superclassDef {super : Option Ty} (hsuper : Faithful V super) :
    Faithfully V (superclassDef super) := by
  cases super with
  | none => exact .pure .none
  | some super =>
    refine (faithful_expand hsuper.of_some).bind fun U type _ _ => ?_
    split
    · exact faithful_classDef _
    · exact .pure .none

theorem faithful_chainFrom (n : Nat) (seen : List Site) {next : Option ClassDef}
    (hnext : Faithful V next) : Faithfully V (env.chainFrom n seen next) := by
  induction n generalizing V seen next with
  | zero =>
    cases next with
    | none => exact .pure .nil
    | some c =>
      unfold TypeEnv.chainFrom
      split
      · exact .pure .nil
      · exact .pure .nil
  | succ n ih =>
    cases next with
    | none => exact .pure .nil
    | some c =>
      rw [chainFrom_succ]
      split
      · exact .pure .nil
      · refine (faithful_superclassDef hnext.of_some.2.2.1).bind fun U next hU hdef => ?_
        refine (ih _ hdef).bind fun U' rest hU' hrest => .pure ?_
        exact Faithful.cons (hnext.of_some.mono (hU.trans hU')) hrest

theorem faithful_ancestors (d : DeclRef) : Faithfully V (ancestors d) := by
  refine faithful_remembered isReliable_chains ?_ fun _ => trivial
  exact Faithfully.bind (n := Query) (faithful_classDef d) fun _ _ _ hc =>
    Faithfully.bind (n := Query) (faithful_get.bind fun _ _ _ _ => .pure trivial)
      fun _ _ hU _ => faithful_chainFrom _ _ (hc.mono hU)

theorem faithful_membersOfClass (d : DeclRef) : Faithfully V (membersOfClass d) := by
  refine faithful_remembered isReliable_members ?_ fun _ => trivial
  exact (faithful_ancestors d).bind fun U chain _ hchain =>
    .pure (show Faithful U chain.classes from hchain).build

theorem faithful_memberOfClass? (d : DeclRef) (name : String) (kind : MemberKind) :
    Faithfully V (memberOfClass? d name kind) :=
  (faithful_membersOfClass d).bind fun _ _ _ hmembers =>
    .pure fun m hm => (hmembers name kind m hm).1

theorem faithful_hasUnknownAncestor (d : DeclRef) : Faithfully V (hasUnknownAncestor d) :=
  (faithful_ancestors d).bind fun _ _ _ _ => .pure trivial

end PklAnalysis.Session
