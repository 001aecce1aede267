import PklAnalysis.Analysis.Diagnostics
import PklAnalysis.Proofs.Resolution.Grounding
import PklAnalysis.Resolution.Receivers

/-!
# Steady queries

What a session remembers is right if it would be found out again over any store that agrees with
what the session knows: the store holds the trees that the session knows, and URIs lead where they
have led.  Answers depend on nothing else in a store.  A session is current if its trees are those
of its store; otherwise some of them are older.

A query is steady if it does not show what a session remembers: it keeps the session current, and
its answer is grounded and is that of a new session over any store that agrees with what the session
knows afterwards.  Steady queries can be put together; the same rules hold for queries that may fail
and for queries with the pairs of types that are being proved.
-/

namespace PklAnalysis.Session

/-- The trees that a session knows. -/
def known (s : Session) : Set Tree := {t | t = BaseModule.tree ∨ s.trees.get? t.id = some t}

/-- URIs lead in a store where they have led in a session. -/
def LeadsAs (s : Session) (V : Store) : Prop :=
  ∀ importer uri target, s.targets.get? (importer, uri) = some target →
    (V.find uri importer).map (·.id) = target

/-- A store agrees with what a session knows of trees and URIs. -/
structure Agrees (s : Session) (V : Store) : Prop where
  trees : s.known ⊆ V.held
  leads : s.LeadsAs V

/-- A session knows what another one knows. -/
structure GrowsInto (s s' : Session) : Prop where
  known : s.known ⊆ s'.known
  targets : ∀ key target, s.targets.get? key = some target → s'.targets.get? key = some target

theorem GrowsInto.refl (s : Session) : s.GrowsInto s := ⟨subset_rfl, fun _ _ h => h⟩

theorem GrowsInto.trans {s s' s'' : Session} (h : s.GrowsInto s') (h' : s'.GrowsInto s'') :
    s.GrowsInto s'' :=
  ⟨h.known.trans h'.known, fun key target ht => h'.targets key target (h.targets key target ht)⟩

theorem GrowsInto.of_known {s s' : Session} (hknown : s.known ⊆ s'.known)
    (htargets : s'.targets = s.targets) : s.GrowsInto s' :=
  ⟨hknown, fun key target h => by rw [htargets, h]⟩

/-- A store that agrees with more agrees with less. -/
theorem Agrees.mono {s s' : Session} {V : Store} (h : s'.Agrees V) (hgrows : s.GrowsInto s') :
    s.Agrees V :=
  ⟨hgrows.known.trans h.trees, fun importer uri target htarget =>
    h.leads importer uri target (hgrows.targets _ target htarget)⟩

/-- Nothing has been followed but URIs that stand in known trees. -/
def Stands (s : Session) : Prop :=
  ∀ importer uri target, s.targets.get? (importer, uri) = some target →
    ∃ t ∈ s.known, t.id = importer ∧ ∃ n, uriAt? t n = some uri

/-- A table holds what would be found out again about its places in a new session over any store
that agrees with a session. -/
def Recalls {α : Type} [Grounding α] (s : Session) (table : Dict Site α)
    (ask : DeclRef → Query α) : Prop :=
  ∀ site a, table.get? site = some a → ∃ d, d.site = site ∧ Grounded s.known d ∧
    Grounded s.known a ∧ ∀ V, V.IsPlain → s.Agrees V → (ask d (new V)).1 = a

/-- What a session may remember of a URI: to the letter it is not that of the base module, the
module to which it has led is known, and it has led there in a store of the same configuration. -/
structure WasFollowed (W : Store) (s : Session) (importer : ModuleId) (uri : String)
    (target : Except ResolveError ModuleId) : Prop where
  ne_base : uri ≠ BaseModule.uri
  known : ∀ id, target = .ok id → ∃ t ∈ s.known, t.id = id
  led : ∃ V : Store, V.config = W.config ∧ (V.find uri importer).map (·.id) = target

theorem WasFollowed.mono {W : Store} {s s' : Session} {importer : ModuleId} {uri : String}
    {target : Except ResolveError ModuleId} (h : WasFollowed W s importer uri target)
    (hknown : s.known ⊆ s'.known) : WasFollowed W s' importer uri target :=
  ⟨h.ne_base, fun id hid => (h.known id hid).imp fun _ ht => ⟨hknown ht.1, ht.2⟩, h.led⟩

/-- What a session remembers over a store is right for the trees that it knows and for where URIs
have led, and no tree is newer than that of the store. -/
structure IsTruthful (W : Store) (s : Session) : Prop where
  store : ∃ answers, s.store = W.withAnswers answers
  bare : s.store.IsBare
  keys : s.trees.keys.Nodup
  trees : ∀ id t, s.trees.get? id = some t →
    ∃ stored, W.tree? id = some stored ∧ (t = stored ∨ t.version < stored.version)
  classes : Recalls s s.classes classDef
  aliases : Recalls s s.aliases aliasDef
  chains : Recalls s s.chains ancestors
  members : Recalls s s.members membersOfClass
  targets : ∀ importer uri target, s.targets.get? (importer, uri) = some target →
    WasFollowed W s importer uri target

/-- A session knows no trees but those of the store. -/
structure IsCurrent (W : Store) (s : Session) : Prop extends IsTruthful W s where
  current : ∀ id t, s.trees.get? id = some t → W.tree? id = some t

theorem Recalls.empty {α : Type} [Grounding α] {s : Session} {ask : DeclRef → Query α} :
    Recalls s Dict.empty ask :=
  fun _ _ h => nomatch h

/-- What is right for a session stays so when it knows more. -/
theorem Recalls.mono {α : Type} [Grounding α] {s s' : Session} {table : Dict Site α}
    {ask : DeclRef → Query α} (h : Recalls s table ask) (hgrows : s.GrowsInto s') :
    Recalls s' table ask := by
  intro site a ha
  obtain ⟨d, hsite, hd, hground, hask⟩ := h site a ha
  exact ⟨d, hsite, hd.mono hgrows.known, hground.mono hgrows.known, fun V hV hagrees =>
    hask V hV (hagrees.mono hgrows)⟩

variable {W : Store} {s : Session}

theorem IsTruthful.tree?_store (h : IsTruthful W s) (id : ModuleId) :
    s.store.tree? id = W.tree? id := by
  obtain ⟨answers, hstore⟩ := h.store
  rw [hstore, Store.tree?_withAnswers]

theorem IsCurrent.known_subset (h : IsCurrent W s) : s.known ⊆ W.held :=
  fun t ht => ht.imp_right (h.current t.id t)

/-- A store agrees with a current session if URIs still lead where they have led. -/
theorem IsCurrent.agrees (h : IsCurrent W s) (hleads : s.LeadsAs W) : s.Agrees W :=
  ⟨h.known_subset, hleads⟩

/-- A new session remembers nothing. -/
theorem IsCurrent.new (hW : W.IsPlain) : IsCurrent W (new W) where
  store := ⟨W.projects.answers, rfl⟩
  bare := hW.bare
  keys := List.nodup_nil
  trees _ _ h := nomatch h
  classes := .empty
  aliases := .empty
  chains := .empty
  members := .empty
  targets _ _ _ h := nomatch h
  current _ _ h := nomatch h

theorem leadsAs_new (W V : Store) : (Session.new W).LeadsAs V := fun _ _ _ h => nomatch h

/-- A session that has come to know more is current if it knows trees of the store only and still
remembers what was right before. -/
theorem IsCurrent.grow {s' : Session} (hgrows : s.GrowsInto s')
    (hstore : ∃ answers, s'.store = W.withAnswers answers) (hbare : s'.store.IsBare)
    (hkeys : s'.trees.keys.Nodup)
    (hcurrent : ∀ id t, s'.trees.get? id = some t → W.tree? id = some t)
    (hclasses : Recalls s s'.classes classDef) (haliases : Recalls s s'.aliases aliasDef)
    (hchains : Recalls s s'.chains ancestors) (hmembers : Recalls s s'.members membersOfClass)
    (htargets : ∀ importer uri target, s'.targets.get? (importer, uri) = some target →
      WasFollowed W s' importer uri target) : IsCurrent W s' where
  store := hstore
  bare := hbare
  keys := hkeys
  trees id t ht := ⟨t, hcurrent id t ht, .inl rfl⟩
  classes := hclasses.mono hgrows
  aliases := haliases.mono hgrows
  chains := hchains.mono hgrows
  members := hmembers.mono hgrows
  targets := htargets
  current := hcurrent

/-- What a session remembers stays right when its store changes, as long as no tree that it knows
becomes newer than that of the store. -/
theorem IsTruthful.withStore (h : IsTruthful W s) {V : Store} {store : Store}
    (hconfig : V.config = W.config) (hstore : ∃ answers, store = V.withAnswers answers)
    (hbare : store.IsBare)
    (htrees : ∀ id t, s.trees.get? id = some t →
      ∃ stored, V.tree? id = some stored ∧ (t = stored ∨ t.version < stored.version)) :
    IsTruthful V { s with store } := by
  have hgrows : s.GrowsInto { s with store } := .of_known subset_rfl rfl
  exact {
    store := hstore
    bare := hbare
    keys := h.keys
    trees := htrees
    classes := h.classes.mono hgrows
    aliases := h.aliases.mono hgrows
    chains := h.chains.mono hgrows
    members := h.members.mono hgrows
    targets := fun importer uri target htarget => by
      obtain ⟨hbase, hknown, U, hU, hled⟩ := h.targets importer uri target htarget
      exact ⟨hbase, hknown, U, hU.trans hconfig.symm, hled⟩ }

/-- What else a current session remembers, as long as it is right, makes no difference. -/
theorem IsCurrent.recall (h : IsCurrent W s) {s' : Session} (hstore : s'.store = s.store)
    (htrees : s'.trees = s.trees) (htargets : s'.targets = s.targets)
    (hclasses : Recalls s s'.classes classDef) (haliases : Recalls s s'.aliases aliasDef)
    (hchains : Recalls s s'.chains ancestors) (hmembers : Recalls s s'.members membersOfClass) :
    IsCurrent W s' := by
  have hknown : s.known ⊆ s'.known := by rw [Session.known, Session.known, htrees]
  refine .grow (.of_known hknown htargets) (hstore ▸ h.store) (hstore ▸ h.bare) (htrees ▸ h.keys)
    (htrees ▸ h.current) hclasses haliases hchains hmembers ?_
  rw [htargets]
  exact fun importer uri target hget => (h.targets importer uri target hget).mono hknown

/-! ## Steady queries -/

/-- What a steady query does in a current session over a store. -/
structure SteadyAt {α : Type} [Grounding α] (W : Store) (T : Set Tree) (s : Session)
    (q : Query α) : Prop where
  current : IsCurrent W (q s).2
  grows : s.GrowsInto (q s).2
  grounded : Grounded (T ∪ (q s).2.known) (q s).1
  fresh : ∀ V, V.IsPlain → T ⊆ V.held → (q s).2.Agrees V → (q s).1 = (q (new V)).1
  leads : s.LeadsAs W → (q s).2.LeadsAs W
  stands : T ⊆ s.known → s.Stands → (q s).2.Stands

/-- A query about some trees does not show what a session remembers. -/
def SteadyQuery {α : Type} [Grounding α] (T : Set Tree) (q : Query α) : Prop :=
  ∀ W s, W.IsPlain → T ⊆ W.held → IsCurrent W s → SteadyAt W T s q

/-- A store goes on agreeing with a session if its URIs lead where they have led so far. -/
theorem SteadyAt.agrees {α : Type} [Grounding α] {W : Store} {T : Set Tree} {s : Session}
    {q : Query α} (h : SteadyAt W T s q) (hleads : s.LeadsAs W) : (q s).2.Agrees W :=
  h.current.agrees (h.leads hleads)

namespace SteadyQuery

variable {α β : Type} [Grounding α] [Grounding β] {T : Set Tree}

theorem pure {a : α} (ha : Grounded T a) : SteadyQuery T (Pure.pure a) :=
  fun _ _ _ _ hs => ⟨hs, .refl _, ha.mono Set.subset_union_left, fun _ _ _ _ => rfl,
    fun hleads => hleads, fun _ hstands => hstands⟩

/-- Two sessions give the same answer over a store that agrees with both. -/
theorem answer_eq {q : Query α} (hq : SteadyQuery T q) {W : Store} {s s' : Session}
    (hW : W.IsPlain) (hT : T ⊆ W.held) (hs : IsCurrent W s) (hs' : IsCurrent W s')
    (hleads : s.LeadsAs W) (hleads' : s'.LeadsAs W) : (q s).1 = (q s').1 := by
  have h := hq W s hW hT hs
  have h' := hq W s' hW hT hs'
  rw [h.fresh W hW hT (h.agrees hleads), h'.fresh W hW hT (h'.agrees hleads')]

/-- About the trees of the store a steady query keeps a session current and the answer grounded. -/
theorem keeps {W : Store} {s : Session} {q : Query α} (hq : SteadyQuery W.held q)
    (hW : W.IsPlain) (hs : IsCurrent W s) : IsCurrent W (q s).2 ∧ Grounded W.held (q s).1 := by
  have h := hq W s hW subset_rfl hs
  exact ⟨h.current, h.grounded.mono (Set.union_subset subset_rfl h.current.known_subset)⟩

omit [Grounding β] in
/-- After a steady query it is enough that what follows agrees on grounded answers. -/
theorem bind_congr {W : Store} {s : Session} {q : Query α} {f g : α → Query β}
    (hq : SteadyQuery W.held q) (hW : W.IsPlain) (hs : IsCurrent W s)
    (h : ∀ a s', Grounded W.held a → IsCurrent W s' → f a s' = g a s') :
    (q >>= f) s = (q >>= g) s := by
  obtain ⟨hcurrent, ha⟩ := hq.keeps hW hs
  rw [bind_apply, bind_apply, h _ _ ha hcurrent]

theorem bind {q : Query α} {f : α → Query β} (hq : SteadyQuery T q)
    (hf : ∀ U a, T ⊆ U → Grounded U a → SteadyQuery U (f a)) : SteadyQuery T (q >>= f) := by
  intro W s hW hT hs
  have h₁ := hq W s hW hT hs
  -- the rest of the query is about the trees that are known by now as well
  have hU : T ∪ (q s).2.known ⊆ W.held := Set.union_subset hT h₁.current.known_subset
  have hrest := hf _ (q s).1 Set.subset_union_left h₁.grounded
  have h₂ := hrest W (q s).2 hW hU h₁.current
  refine ⟨h₂.current, h₁.grows.trans h₂.grows, ?_, fun V hV hTV hagrees => ?_,
    fun hleads => h₂.leads (h₁.leads hleads), fun hTs hstands => ?_⟩
  · refine h₂.grounded.mono ?_
    rw [Set.union_assoc]
    exact Set.union_subset_union_right T (Set.union_subset h₂.grows.known subset_rfl)
  · have hagrees₁ := hagrees.mono h₂.grows
    have hUV : T ∪ (q s).2.known ⊆ V.held := Set.union_subset hTV hagrees₁.trees
    have h₁' := hq V (new V) hV hTV (.new hV)
    rw [bind_apply, bind_apply, h₂.fresh V hV hUV hagrees, ← h₁.fresh V hV hTV hagrees₁]
    exact hrest.answer_eq hV hUV (.new hV) h₁'.current (leadsAs_new V V)
      (h₁'.leads (leadsAs_new V V))
  · have hknown : T ∪ (q s).2.known ⊆ (q s).2.known :=
      Set.union_subset (hTs.trans h₁.grows.known) subset_rfl
    exact h₂.stands hknown (h₁.stands hTs hstands)

theorem mono {q : Query α} (hq : SteadyQuery T q) {U : Set Tree} (hTU : T ⊆ U) :
    SteadyQuery U q := by
  intro W s hW hU hs
  have h := hq W s hW (hTU.trans hU) hs
  exact ⟨h.current, h.grows, h.grounded.mono (Set.union_subset_union_left _ hTU),
    fun V hV hUV hagrees => h.fresh V hV (hTU.trans hUV) hagrees, h.leads,
    fun hUs hstands => h.stands (hTU.trans hUs) hstands⟩

/-- A query that comes down to a steady one, whichever of a sequence it is from some point on. -/
theorem of_eventually {q : Query α} {r : Nat → Query α} (hr : ∀ n, SteadyQuery T (r n))
    (h : ∀ W, W.IsPlain → T ⊆ W.held → ∃ N, ∀ n ≥ N, ∀ s, IsCurrent W s → q s = r n s) :
    SteadyQuery T q := by
  intro W s hW hT hs
  obtain ⟨N, hN⟩ := h W hW hT
  have hsteady := hr N W s hW hT hs
  have hq := hN N le_rfl s hs
  refine ⟨hq ▸ hsteady.current, hq ▸ hsteady.grows, hq ▸ hsteady.grounded,
    fun V hV hTV hagrees => ?_, hq ▸ hsteady.leads, hq ▸ hsteady.stands⟩
  obtain ⟨M, hM⟩ := h V hV hTV
  have hleft := hN (max N M) (Nat.le_max_left N M) s hs
  have hright := hM (max N M) (Nat.le_max_right N M) (new V) (.new hV)
  rw [hleft] at hagrees
  rw [hleft, hright]
  exact (hr (max N M) W s hW hT hs).fresh V hV hTV hagrees

end SteadyQuery

/-! ## Steady computations -/

/-- A monad over queries with a notion of steady computations. -/
class SteadyMonad (n : Type → Type) [Monad n] [MonadLiftT Query n] where
  Steady : {α : Type} → [Grounding α] → Set Tree → n α → Prop
  pure : ∀ {α : Type} [Grounding α] {T : Set Tree} {a : α}, Grounded T a →
    Steady T (Pure.pure a : n α)
  bind : ∀ {α β : Type} [Grounding α] [Grounding β] {T : Set Tree} {x : n α} {f : α → n β},
    Steady T x → (∀ U a, T ⊆ U → Grounded U a → Steady U (f a)) → Steady T (x >>= f)
  lift : ∀ {α : Type} [Grounding α] {T : Set Tree} {q : Query α}, SteadyQuery T q →
    Steady T (monadLift q : n α)
  mono : ∀ {α : Type} [Grounding α] {T U : Set Tree} {x : n α}, Steady T x → T ⊆ U → Steady U x

/-- What a computation about some trees gives does not show what a session remembers. -/
def Steady {n : Type → Type} [Monad n] [MonadLiftT Query n] [SteadyMonad n] {α : Type}
    [Grounding α] (T : Set Tree) (x : n α) : Prop := SteadyMonad.Steady T x

instance : SteadyMonad Query where
  Steady := SteadyQuery
  pure := .pure
  bind := .bind
  lift h := h
  mono hq hTU := hq.mono hTU

/-- A query that may fail is steady as a query for an answer, if there is one. -/
instance : SteadyMonad (OptionT Query) where
  Steady T x := SteadyQuery T x.run
  pure ha := .pure (.some ha)
  bind {α β _ _ T x f} hx hf := by
    change SteadyQuery T (x.run >>= fun o => match o with
      | some a => (f a).run
      | none => pure none)
    refine .bind hx fun U o hU ho => ?_
    cases o with
    | none => exact .pure .none
    | some a => exact hf U a hU ho.of_some
  lift {α _ T q} hq := by
    change SteadyQuery T (q >>= fun a => pure (some a))
    exact .bind hq fun U a _ ha => .pure ha.some
  mono hx hTU := SteadyQuery.mono hx hTU

/-- A query with pairs of types is steady if it is for all pairs about the same trees. -/
instance : SteadyMonad (StateT Pending Query) where
  Steady T x := ∀ (U : Set Tree) (p : Pending), T ⊆ U → Grounded U p → SteadyQuery U (x.run p)
  pure ha U p hU hp := .pure ⟨ha.mono hU, hp⟩
  bind {α β _ _ T x f} hx hf U p hU hp := by
    change SteadyQuery U (x.run p >>= fun a => (f a.1).run a.2)
    exact .bind (hx U p hU hp) fun V a hV ha =>
      hf V a.1 (hU.trans hV) ha.1 V a.2 subset_rfl ha.2
  lift {α _ T q} hq U p hU hp := by
    change SteadyQuery U (q >>= fun a => pure (a, p))
    exact .bind (hq.mono hU) fun V a hV ha => .pure ⟨ha, hp.mono hV⟩
  mono hx hTU V p hUV hp := hx V p (hTU.trans hUV) hp

namespace Steady

variable {n : Type → Type} [Monad n] [MonadLiftT Query n] [SteadyMonad n]
variable {α β : Type} [Grounding α] [Grounding β] {T : Set Tree}

protected theorem pure {a : α} (ha : Grounded T a) : Steady T (pure a : n α) :=
  SteadyMonad.pure ha

protected theorem bind {x : n α} {f : α → n β} (hx : Steady T x)
    (hf : ∀ U a, T ⊆ U → Grounded U a → Steady U (f a)) : Steady T (x >>= f) :=
  SteadyMonad.bind hx hf

theorem lift {q : Query α} (hq : Steady T q) : Steady T (monadLift q : n α) :=
  SteadyMonad.lift hq

theorem mono {x : n α} (hx : Steady T x) {U : Set Tree} (hTU : T ⊆ U) : Steady U x :=
  SteadyMonad.mono hx hTU

protected theorem map [LawfulMonad n] {x : n α} {f : α → β} (hx : Steady T x)
    (hf : ∀ U a, T ⊆ U → Grounded U a → Grounded U (f a)) : Steady T (f <$> x) := by
  rw [map_eq_pure_bind]
  exact hx.bind fun U a hU ha => .pure (hf U a hU ha)

theorem and {x y : n Bool} (hx : Steady T x) (hy : Steady T y) : Steady T (x <&&> y) := by
  refine hx.bind fun U b hU _ => ?_
  cases b with
  | false => exact .pure trivial
  | true => exact hy.mono hU

theorem or {x y : n Bool} (hx : Steady T x) (hy : Steady T y) : Steady T (x <||> y) := by
  refine hx.bind fun U b hU _ => ?_
  cases b with
  | false => exact hy.mono hU
  | true => exact .pure trivial

section Lists

variable {γ : Type}

theorem allM {f : γ → n Bool} {l : List γ} (h : ∀ c ∈ l, Steady T (f c)) :
    Steady T (l.allM f) := by
  induction l generalizing T with
  | nil => exact .pure trivial
  | cons c l ih =>
    have ⟨hc, hl⟩ := List.forall_mem_cons.mp h
    refine hc.bind fun U b hU _ => ?_
    cases b with
    | false => exact .pure trivial
    | true => exact ih fun c hc => (hl c hc).mono hU

theorem anyM {f : γ → n Bool} {l : List γ} (h : ∀ c ∈ l, Steady T (f c)) :
    Steady T (l.anyM f) := by
  induction l generalizing T with
  | nil => exact .pure trivial
  | cons c l ih =>
    have ⟨hc, hl⟩ := List.forall_mem_cons.mp h
    refine hc.bind fun U b hU _ => ?_
    cases b with
    | false => exact ih fun c hc => (hl c hc).mono hU
    | true => exact .pure trivial

theorem mapM [LawfulMonad n] {f : γ → n α} {l : List γ} (h : ∀ c ∈ l, Steady T (f c)) :
    Steady T (l.mapM f) := by
  induction l generalizing T with
  | nil =>
    rw [List.mapM_nil]
    exact .pure .nil
  | cons c l ih =>
    have ⟨hc, hl⟩ := List.forall_mem_cons.mp h
    rw [List.mapM_cons]
    refine hc.bind fun U a hU ha => ?_
    refine (ih fun c hc => (hl c hc).mono hU).bind fun V as hV has => ?_
    exact .pure (.cons (ha.mono hV) has)

/-- The first answer on a list is about the trees that the answers are about. -/
theorem firstAnswer {f : γ → n (Option α)} {l : List γ} (h : ∀ c ∈ l, Steady T (f c)) :
    Steady T (Session.firstAnswer f l) := by
  induction l generalizing T with
  | nil => exact .pure .none
  | cons c l ih =>
    have ⟨hc, hl⟩ := List.forall_mem_cons.mp h
    refine hc.bind fun U o hU ho => ?_
    cases o with
    | none => exact ih fun c hc => (hl c hc).mono hU
    | some a => exact .pure ho

theorem optionMapM [LawfulMonad n] {f : γ → n α} {o : Option γ} (h : ∀ c ∈ o, Steady T (f c)) :
    Steady T (o.mapM f) := by
  cases o with
  | none => exact .pure .none
  | some c => exact (h c rfl).map fun U a _ ha => ha.some

end Lists

theorem failure : Steady T (failure : OptionT Query α) := SteadyQuery.pure .none

theorem run {x : OptionT Query α} (hx : Steady T x) : Steady T x.run := hx

theorem run' {x : StateT Pending Query α} (hx : Steady T x) {p : Pending} (hp : Grounded T p) :
    Steady T (x.run' p) := by
  have hrun : Steady T (x.run p) := hx T p subset_rfl hp
  exact hrun.map fun U a _ ha => ha.1

end Steady

end PklAnalysis.Session
