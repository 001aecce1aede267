import PklAnalysis.Proofs.Resolution.SteadyAncestors

/-!
# Lookups of trees

A question comes by trees in two ways: it asks the session for the tree of a module, or follows a
URI.  What is so for both and stays so when queries are put together is so for every lookup of a
definition (`TreeClosed`, `LookupClosed`).  `LooksUp` tells which lookups a query about a tree makes
and in which sessions; apart from them a query only adopts its tree, counts nodes and remembers
answers.  The lookups of queries that are put together follow one another, so those of all questions
can be told.
-/

namespace PklAnalysis.Session

/-! ## Queries put together from lookups -/

/-- The definition of a class that the tree of its module gives. -/
def declaredClass? (d : DeclRef) : Query (Option ClassDef) := do
  match ← tree? d.site.module with
  | some t => classAt? t d
  | none => return none

theorem classDef_eq (d : DeclRef) : classDef d =
    remembered d.site (·.classes) (fun s classes => { s with classes }) (declaredClass? d) := rfl

/-- The definition of a type alias that the tree of its module gives. -/
def declaredAlias? (d : DeclRef) : Query (Option AliasDef) := do
  match ← tree? d.site.module with
  | some t => aliasAt? t d
  | none => return none

theorem aliasDef_eq (d : DeclRef) : aliasDef d =
    remembered d.site (·.aliases) (fun s aliases => { s with aliases }) (declaredAlias? d) := rfl

/-- A kind of queries to which those belong that look up trees, and with them all that are put
together from them. -/
structure TreeClosed (P : {α : Type} → Query α → Prop) : Prop where
  pure : ∀ {α : Type} (a : α), P (pure a : Query α)
  bind : ∀ {α β : Type} {q : Query α} {f : α → Query β}, P q → (∀ a, P (f a)) → P (q >>= f)
  capacity : P (fun s => (s.capacity, s) : Query Nat)
  byId : ∀ id, P (tree? id)
  byUri : ∀ importer uri, P (resolveModule importer uri)

/-- A kind of queries to which also those belong that look up the definitions of classes and type
aliases. -/
structure LookupClosed (P : {α : Type} → Query α → Prop) : Prop extends TreeClosed P where
  ofClass : ∀ d, P (declaredClass? d) → P (classDef d)
  ofAlias : ∀ d, P (declaredAlias? d) → P (aliasDef d)

namespace TreeClosed

variable {P : {α : Type} → Query α → Prop} (h : TreeClosed P)
include h

theorem map {α β : Type} {q : Query α} (hq : P q) (f : α → β) : P (f <$> q) := by
  rw [map_eq_pure_bind]
  exact h.bind hq fun a => h.pure (f a)

/-- Of the session itself only its number of nodes is asked. -/
theorem withCapacity {α : Type} {f : Nat → Query α} (hf : ∀ n, P (f n)) :
    P (get >>= fun s => f s.capacity) := by
  change P ((fun s => (s.capacity, s) : Query Nat) >>= f)
  exact h.bind h.capacity hf

theorem resolveModule? (importer : Tree) (uri : String) : P (resolveModule? importer uri) :=
  h.bind (h.byUri importer uri) fun found => h.pure found.toOption

theorem supermodule? (m : Tree) : P (supermodule? m) := by
  unfold Session.supermodule?
  split
  · exact h.pure none
  · exact h.resolveModule? m _

theorem supermodulesFrom (n : Nat) (seen : List ModuleId) (first : Option Tree) :
    P (supermodulesFrom n seen first) := by
  induction n generalizing seen first with
  | zero =>
    unfold Session.supermodulesFrom
    split
    · exact h.pure []
    · split <;> exact h.pure []
  | succ n ih =>
    unfold Session.supermodulesFrom
    split
    · exact h.pure []
    · next m =>
      split
      · exact h.pure []
      · exact h.bind (h.supermodule? m) fun next => h.bind (ih _ next) fun rest => h.pure _

theorem supermodules (m : Tree) : P (supermodules m) :=
  h.bind (h.supermodule? m) fun first =>
    h.withCapacity fun _ => h.supermodulesFrom _ _ first

theorem importTarget? (m : Tree) (name : String) : P (importTarget? m name) := by
  unfold Session.importTarget?
  split
  · exact h.resolveModule? m _
  · exact h.pure none

theorem qualifiedType? (m : Tree) (binding name : String) (args : List Ty) :
    P (qualifiedType? m binding name args) := by
  refine h.bind (h.importTarget? m binding) fun found => ?_
  cases found with
  | none => exact h.pure none
  | some m => exact h.bind (h.supermodules m) fun ms => h.pure _

theorem simpleType? (m : Tree) (name : String) (args : List Ty) :
    P (simpleType? m name args) := by
  unfold Session.simpleType?
  split
  · exact h.pure _
  · refine h.bind (h.supermodules m) fun ms => ?_
    split
    · exact h.pure _
    · refine h.bind (h.importTarget? m name) fun found => ?_
      cases found with
      | some m => exact h.pure _
      | none => exact h.pure _

theorem namedType (m : Tree) (name : String) (args : List Ty) : P (namedType m name args) := by
  unfold Session.namedType
  simp only
  split
  · exact h.bind (h.qualifiedType? m _ _ args) fun found => h.pure _
  · exact h.bind (h.simpleType? m name args) fun found => h.pure _

mutual

theorem resolveType (m : Tree) (context : Nat) (a : TypeExpr) : P (resolveType m context a) := by
  cases a with
  | unknown | nothing | enclosingModule | literal text => exact h.pure _
  | nullable a =>
    rw [Session.resolveType]
    exact h.bind (resolveType m context a) fun type => h.pure _
  | union as =>
    rw [Session.resolveType]
    exact h.bind (resolveTypes m context as) fun types => h.pure _
  | function ps r =>
    rw [Session.resolveType]
    exact h.bind (resolveTypes m context ps) fun params =>
      h.bind (resolveType m context r) fun result => h.pure _
  | named name args =>
    rw [Session.resolveType]
    split
    · exact h.pure _
    · exact h.bind (resolveTypes m context args) fun types => h.namedType m name types
termination_by structural a

theorem resolveTypes (m : Tree) (context : Nat) (as : List TypeExpr) :
    P (resolveTypes m context as) := by
  cases as with
  | nil => exact h.pure []
  | cons a as =>
    rw [Session.resolveTypes]
    exact h.bind (resolveType m context a) fun type =>
      h.bind (resolveTypes m context as) fun types => h.pure _
termination_by structural as

end

theorem superclassOf (m : Tree) (n : Nat) (header : ClassHeader) :
    P (superclassOf m n header) := by
  unfold Session.superclassOf
  split
  · exact h.map (h.resolveType m n _) some
  · split <;> exact h.pure _

theorem moduleSuperclass (m : Tree) : P (moduleSuperclass m) := by
  unfold Session.moduleSuperclass
  split
  · exact h.pure _
  · refine h.bind (h.resolveModule? m _) fun parent => ?_
    cases parent <;> exact h.pure _

theorem classAt? (m : Tree) (d : DeclRef) : P (classAt? m d) := by
  unfold Session.classAt?
  split
  · exact h.bind (h.superclassOf m _ _) fun superclass => h.pure _
  · exact h.bind (h.moduleSuperclass m) fun superclass => h.pure _
  · exact h.pure none

theorem aliasAt? (m : Tree) (d : DeclRef) : P (aliasAt? m d) := by
  unfold Session.aliasAt?
  split
  · exact h.bind (h.resolveType m _ _) fun target => h.pure _
  · exact h.pure none

theorem declaredClass? (d : DeclRef) : P (declaredClass? d) := by
  refine h.bind (h.byId _) fun found => ?_
  cases found with
  | some m => exact h.classAt? m d
  | none => exact h.pure none

theorem declaredAlias? (d : DeclRef) : P (declaredAlias? d) := by
  refine h.bind (h.byId _) fun found => ?_
  cases found with
  | some m => exact h.aliasAt? m d
  | none => exact h.pure none

end TreeClosed

namespace LookupClosed

variable {P : {α : Type} → Query α → Prop} (h : LookupClosed P)
include h

theorem classDef (d : DeclRef) : P (classDef d) := h.ofClass d (h.declaredClass? d)

theorem aliasDef (d : DeclRef) : P (aliasDef d) := h.ofAlias d (h.declaredAlias? d)

theorem expandFrom (n : Nat) (seen : List Site) (a : Ty) : P (env.expandFrom n seen a) := by
  induction n generalizing seen a with
  | zero =>
    unfold TypeEnv.expandFrom
    split
    · split <;> exact h.pure _
    · exact h.pure _
  | succ n ih =>
    unfold TypeEnv.expandFrom
    split
    · next d args =>
      split
      · exact h.pure _
      · refine h.bind (h.aliasDef d) fun found => ?_
        cases found with
        | none => exact h.pure _
        | some a => exact ih _ _
    · exact h.pure _

theorem expand (a : Ty) : P (env.expand a) := h.expandFrom _ _ a

theorem climb (target : Site) (n : Nat) (seen : List Site) (d : DeclRef) (args : List Ty) :
    P (env.climb target n seen d args) := by
  induction n generalizing seen d args with
  | zero =>
    unfold TypeEnv.climb
    split
    · exact h.pure _
    · split <;> exact h.pure _
  | succ n ih =>
    unfold TypeEnv.climb
    split
    · exact h.pure _
    · split
      · exact h.pure none
      · refine h.bind (h.classDef d) fun found => ?_
        cases found with
        | none => exact h.pure none
        | some c =>
          cases hsuper : c.superclass with
          | none =>
            simp only [hsuper]
            exact h.pure none
          | some super =>
            simp only [hsuper]
            refine h.bind (h.expand _) fun type => ?_
            split
            · exact ih _ _ _
            · exact h.pure none

theorem asSupertype? (a : Ty) (target : DeclRef) : P (env.asSupertype? a target) := by
  refine h.bind (h.expand a) fun type => ?_
  split
  · exact h.withCapacity fun n => h.climb _ n.succ _ _ _
  · exact h.pure none

theorem superclassDef (super : Option Ty) : P (superclassDef super) := by
  cases super with
  | none => exact h.pure none
  | some super =>
    refine h.bind (h.expand super) fun type => ?_
    split
    · exact h.classDef _
    · exact h.pure none

theorem chainFrom (n : Nat) (seen : List Site) (next : Option ClassDef) :
    P (env.chainFrom n seen next) := by
  induction n generalizing seen next with
  | zero =>
    unfold TypeEnv.chainFrom
    split
    · exact h.pure _
    · split <;> exact h.pure _
  | succ n ih =>
    cases next with
    | none => exact h.pure _
    | some c =>
      rw [chainFrom_succ]
      split
      · exact h.pure _
      · exact h.bind (h.superclassDef _) fun next => h.bind (ih _ next) fun rest => h.pure _

theorem ancestors (d : DeclRef) : P (env.ancestors d) :=
  h.bind (h.classDef d) fun found => h.withCapacity fun n => h.chainFrom n.succ _ found

end LookupClosed

/-! ## Lookups of queries -/

/-- A way of coming by a tree. -/
inductive Lookup where
  | byId (id : ModuleId)
  | byUri (importer : Tree) (uri : String)

/-- The tree that a lookup gives in a session. -/
def Lookup.tree? : Lookup → Session → Option Tree
  | .byId id, s => (Session.tree? id s).1
  | .byUri importer uri, s => (resolveModule importer uri s).1.toOption

/-- A session that has the modules of another one; it may remember other answers. -/
structure SameModules (s s' : Session) : Prop where
  store : s'.store = s.store
  trees : s'.trees = s.trees
  targets : s'.targets = s.targets

/-- The tables in which answers about classes and type aliases are remembered, each with the query
whose answer is remembered in it for a place. -/
inductive IsMemo : {α : Type} → Site → (Session → Dict Site α) →
    (Session → Dict Site α → Session) → Query α → Prop
  | classes (d : DeclRef) :
      IsMemo d.site (·.classes) (fun s classes => { s with classes }) (declaredClass? d)
  | aliases (d : DeclRef) :
      IsMemo d.site (·.aliases) (fun s aliases => { s with aliases }) (declaredAlias? d)
  | chains (d : DeclRef) :
      IsMemo d.site (·.chains) (fun s chains => { s with chains }) (env.ancestors d)
  | members (d : DeclRef) : IsMemo d.site (·.members) (fun s members => { s with members }) (do
      return MemberCache.build (← ancestors d).classes)

/-- The lookups of a query about a tree, each with the session in which it is made.  To adopt the
tree is to look it up from then on under the identity of its module. -/
inductive LooksUp (t : Tree) : {α : Type} → Query α → Session → List (Lookup × Session) → Prop
  | pure {α : Type} (a : α) (s : Session) : LooksUp t (pure a) s []
  | bind {α β : Type} {q : Query α} {f : α → Query β} {s : Session}
      {log log' : List (Lookup × Session)} (hq : LooksUp t q s log)
      (hf : LooksUp t (f (q s).1) (q s).2 log') : LooksUp t (q >>= f) s (log ++ log')
  | adopt (s : Session) : LooksUp t (adopt t) s [(.byId t.id, (adopt t s).2)]
  | byId (id : ModuleId) (s : Session) : LooksUp t (tree? id) s [(.byId id, s)]
  | byUri (importer : Tree) (uri : String) (s : Session) :
      LooksUp t (resolveModule importer uri) s [(.byUri importer uri, s)]
  | capacity (s : Session) : LooksUp t (fun s => (s.capacity, s)) s []
  | recalled {α : Type} {site : Site} {table : Session → Dict Site α}
      {store : Session → Dict Site α → Session} {compute : Query α} {s : Session} {a : α}
      (ha : (table s).get? site = some a) : LooksUp t (remembered site table store compute) s []
  | computed {α : Type} {site : Site} {table : Session → Dict Site α}
      {store : Session → Dict Site α → Session} {compute : Query α} {s : Session}
      {log : List (Lookup × Session)} (hnone : (table s).get? site = none)
      (hmemo : IsMemo site table store compute) (hcompute : LooksUp t compute s log) :
      LooksUp t (remembered site table store compute) s log

/-- What the steps of queries about a tree leave as it is: adopting the tree, looking trees up, and
remembering an answer that has been found out. -/
structure KeptBySteps (t : Tree) (I : Session → Prop) : Prop where
  adopt : ∀ s, I s → I (adopt t s).2
  byId : ∀ id s, I s → I (tree? id s).2
  byUri : ∀ importer uri s, I s → I (resolveModule importer uri s).2
  computed : ∀ {α : Type} {site : Site} {table : Session → Dict Site α}
    {store : Session → Dict Site α → Session} {compute : Query α} {s : Session},
    IsMemo site table store compute → I s → I (compute s).2 →
    (table s).get? site = none → I (remembered site table store compute s).2

/-- What the steps of a query keep, the query keeps, and it is so at each of its lookups. -/
theorem LooksUp.keeps {t : Tree} {I : Session → Prop} (hI : KeptBySteps t I) {α : Type}
    {q : Query α} {s : Session} {log : List (Lookup × Session)} (h : LooksUp t q s log) (hs : I s) :
    I (q s).2 ∧ ∀ e ∈ log, I e.2 := by
  induction h with
  | pure a s => exact ⟨hs, List.forall_mem_nil _⟩
  | bind _ _ ihq ihf =>
    obtain ⟨hs', hlog⟩ := ihq hs
    obtain ⟨hs'', hlog'⟩ := ihf hs'
    exact ⟨hs'', List.forall_mem_append.mpr ⟨hlog, hlog'⟩⟩
  | adopt s => exact ⟨hI.adopt s hs, List.forall_mem_singleton.mpr (hI.adopt s hs)⟩
  | byId id s => exact ⟨hI.byId id s hs, List.forall_mem_singleton.mpr hs⟩
  | byUri importer uri s => exact ⟨hI.byUri importer uri s hs, List.forall_mem_singleton.mpr hs⟩
  | capacity s => exact ⟨hs, List.forall_mem_nil _⟩
  | recalled ha =>
    rw [remembered_apply, ha]
    exact ⟨hs, List.forall_mem_nil _⟩
  | computed hnone hmemo _ ih =>
    obtain ⟨hs', hlog⟩ := ih hs
    exact ⟨hI.computed hmemo hs hs' hnone, hlog⟩

/-- What adopting a tree, looking trees up and remembering answers leave as it is. -/
structure Kept (t : Tree) (I : Session → Prop) : Prop where
  adopt : ∀ s, I s → I (adopt t s).2
  byId : ∀ id s, I s → I (tree? id s).2
  byUri : ∀ importer uri s, I s → I (resolveModule importer uri s).2
  remember : ∀ s s', SameModules s s' → I s → I s'

theorem IsMemo.sameModules {α : Type} {site : Site} {table : Session → Dict Site α}
    {store : Session → Dict Site α → Session} {compute : Query α}
    (h : IsMemo site table store compute) (s : Session) (d : Dict Site α) :
    SameModules s (store s d) := by
  cases h <;> exact ⟨rfl, rfl, rfl⟩

/-- What does not depend on the answers that are remembered is kept by remembering one. -/
theorem Kept.keptBySteps {t : Tree} {I : Session → Prop} (hI : Kept t I) : KeptBySteps t I where
  adopt := hI.adopt
  byId := hI.byId
  byUri := hI.byUri
  computed hmemo _ hs' hnone := by
    rw [remembered_apply, hnone]
    exact hI.remember _ _ (hmemo.sameModules _ _) hs'

theorem LooksUp.invariant {t : Tree} {I : Session → Prop} (hI : Kept t I) {α : Type} {q : Query α}
    {s : Session} {log : List (Lookup × Session)} (h : LooksUp t q s log) (hs : I s) :
    I (q s).2 ∧ ∀ e ∈ log, I e.2 :=
  h.keeps hI.keptBySteps hs

/-- The lookups of a query can be told, whatever the session is. -/
def TracedQuery {α : Type} (t : Tree) (q : Query α) : Prop := ∀ s, ∃ log, LooksUp t q s log

namespace TracedQuery

variable {α β : Type} {t : Tree}

theorem pure (a : α) : TracedQuery t (Pure.pure a) := fun s => ⟨[], .pure a s⟩

theorem bind {q : Query α} {f : α → Query β} (hq : TracedQuery t q)
    (hf : ∀ a, TracedQuery t (f a)) : TracedQuery t (q >>= f) := by
  intro s
  obtain ⟨log, hlog⟩ := hq s
  obtain ⟨log', hlog'⟩ := hf (q s).1 (q s).2
  exact ⟨log ++ log', hlog.bind hlog'⟩

end TracedQuery

/-! ## Traced computations -/

/-- A monad over queries with a notion of computations whose lookups can be told. -/
class TracedMonad (n : Type → Type) [Monad n] [MonadLiftT Query n] where
  Traced : {α : Type} → Tree → n α → Prop
  pure : ∀ {α : Type} {t : Tree} (a : α), Traced t (Pure.pure a : n α)
  bind : ∀ {α β : Type} {t : Tree} {x : n α} {f : α → n β}, Traced t x →
    (∀ a, Traced t (f a)) → Traced t (x >>= f)
  lift : ∀ {α : Type} {t : Tree} {q : Query α}, TracedQuery t q → Traced t (monadLift q : n α)

/-- The lookups of a computation about a tree can be told. -/
def Traced {n : Type → Type} [Monad n] [MonadLiftT Query n] [TracedMonad n] {α : Type} (t : Tree)
    (x : n α) : Prop := TracedMonad.Traced t x

instance : TracedMonad Query where
  Traced := TracedQuery
  pure := .pure
  bind := .bind
  lift h := h

instance : TracedMonad (OptionT Query) where
  Traced t x := TracedQuery t x.run
  pure _ := .pure _
  bind {α β t x f} hx hf := by
    change TracedQuery t (x.run >>= fun o => match o with
      | some a => (f a).run
      | none => pure none)
    refine .bind hx fun o => ?_
    cases o with
    | none => exact .pure none
    | some a => exact hf a
  lift {α t q} hq := by
    change TracedQuery t (q >>= fun a => pure (some a))
    exact .bind hq fun a => .pure (some a)

instance : TracedMonad (StateT Pending Query) where
  Traced t x := ∀ p : Pending, TracedQuery t (x.run p)
  pure _ _ := .pure _
  bind {α β t x f} hx hf p := by
    change TracedQuery t (x.run p >>= fun a => (f a.1).run a.2)
    exact .bind (hx p) fun a => hf a.1 a.2
  lift {α t q} hq p := by
    change TracedQuery t (q >>= fun a => pure (a, p))
    exact .bind hq fun a => .pure (a, p)

namespace Traced

variable {n : Type → Type} [Monad n] [MonadLiftT Query n] [TracedMonad n]
variable {α β γ : Type} {t : Tree}

protected theorem pure (a : α) : Traced t (pure a : n α) := TracedMonad.pure a

protected theorem bind {x : n α} {f : α → n β} (hx : Traced t x) (hf : ∀ a, Traced t (f a)) :
    Traced t (x >>= f) := TracedMonad.bind hx hf

theorem lift {q : Query α} (hq : Traced t q) : Traced t (monadLift q : n α) := TracedMonad.lift hq

protected theorem map [LawfulMonad n] {x : n α} (hx : Traced t x) (f : α → β) :
    Traced t (f <$> x) := by
  rw [map_eq_pure_bind]
  exact hx.bind fun a => .pure (f a)

theorem and {x y : n Bool} (hx : Traced t x) (hy : Traced t y) : Traced t (x <&&> y) := by
  refine hx.bind fun b => ?_
  cases b with
  | false => exact .pure false
  | true => exact hy

theorem or {x y : n Bool} (hx : Traced t x) (hy : Traced t y) : Traced t (x <||> y) := by
  refine hx.bind fun b => ?_
  cases b with
  | false => exact hy
  | true => exact .pure true

theorem allM {f : γ → n Bool} (h : ∀ c, Traced t (f c)) (l : List γ) : Traced t (l.allM f) := by
  induction l with
  | nil => exact .pure true
  | cons c l ih =>
    refine (h c).bind fun b => ?_
    cases b with
    | false => exact .pure false
    | true => exact ih

theorem anyM {f : γ → n Bool} (h : ∀ c, Traced t (f c)) (l : List γ) : Traced t (l.anyM f) := by
  induction l with
  | nil => exact .pure false
  | cons c l ih =>
    refine (h c).bind fun b => ?_
    cases b with
    | false => exact ih
    | true => exact .pure true

theorem mapM [LawfulMonad n] {f : γ → n α} (h : ∀ c, Traced t (f c)) (l : List γ) :
    Traced t (l.mapM f) := by
  induction l with
  | nil =>
    rw [List.mapM_nil]
    exact .pure []
  | cons c l ih =>
    rw [List.mapM_cons]
    exact (h c).bind fun a => ih.bind fun as => .pure (a :: as)

theorem firstAnswer {f : γ → n (Option α)} (h : ∀ c, Traced t (f c)) (l : List γ) :
    Traced t (Session.firstAnswer f l) := by
  induction l with
  | nil => exact .pure none
  | cons c l ih =>
    refine (h c).bind fun o => ?_
    cases o with
    | none => exact ih
    | some a => exact .pure (some a)

theorem optionMapM [LawfulMonad n] {f : γ → n α} (h : ∀ c, Traced t (f c)) (o : Option γ) :
    Traced t (o.mapM f) := by
  cases o with
  | none => exact .pure none
  | some c => exact (h c).map some

theorem failure : Traced t (failure : OptionT Query α) := TracedQuery.pure none

theorem run {x : OptionT Query α} (hx : Traced t x) : Traced t x.run := hx

theorem run' {x : StateT Pending Query α} (hx : Traced t x) (p : Pending) :
    Traced t (x.run' p) := by
  have hrun : Traced t (x.run p) := hx p
  exact hrun.map Prod.fst

end Traced

variable (t : Tree)

/-! ## Lookups of definitions -/

theorem traced_adopt : Traced t (adopt t) := fun s => ⟨_, .adopt s⟩

theorem traced_remembered {α : Type} {site : Site} {table : Session → Dict Site α}
    {store : Session → Dict Site α → Session} {compute : Query α}
    (hmemo : IsMemo site table store compute) (hcompute : Traced t compute) :
    Traced t (remembered site table store compute) := by
  intro s
  cases hget : (table s).get? site with
  | some a => exact ⟨[], .recalled hget⟩
  | none =>
    obtain ⟨log, hlog⟩ := hcompute s
    exact ⟨log, .computed hget hmemo hlog⟩

/-- The lookups of queries that are put together from lookups can be told. -/
theorem traced_lookups : LookupClosed (Traced t) where
  pure := .pure
  bind := .bind
  capacity s := ⟨[], .capacity s⟩
  byId id s := ⟨_, .byId id s⟩
  byUri importer uri s := ⟨_, .byUri importer uri s⟩
  ofClass d := traced_remembered t (.classes d)
  ofAlias d := traced_remembered t (.aliases d)

theorem traced_ancestors (d : DeclRef) : Traced t (ancestors d) :=
  traced_remembered t (.chains d) ((traced_lookups t).ancestors d)

theorem traced_memberOfClass? (d : DeclRef) (name : String) (kind : MemberKind) :
    Traced t (memberOfClass? d name kind) := by
  refine Traced.bind (n := Query) (traced_remembered t (.members _) ?_)
    fun members => .pure _
  exact (traced_ancestors t d).bind fun _ => .pure _

theorem traced_hasUnknownAncestor (d : DeclRef) : Traced t (hasUnknownAncestor d) :=
  (traced_ancestors t d).bind fun _ => .pure _

end PklAnalysis.Session
