import PklAnalysis.Proofs.Lattice.MemberLookup
import PklAnalysis.Proofs.Resolution.FaithfulQueries
import PklAnalysis.Proofs.Resolution.OneVersion

/-!
# Overridden members and the members of a class

What a member overrides or implements is found by a search that stops at the first visible
declaration among the ancestors; the members of a class remember what they implement from a run
through the whole chain.  Both answers come from the same chain of classes, and the class itself has
the members that its tree declares: `IsCoherent` says so of what a session remembers, and every
session is coherent.  What is left is about one chain, `agreesWith_build`.
-/

namespace PklAnalysis

namespace MemberCache

/-- A member of a chain of classes is declared after another one in the same class, or in a class
further up. -/
def ComesAfter (classes : List ClassDef) (o a : MemberDef) : Prop :=
  ∃ below c above, classes = below ++ c :: above ∧
    ((∃ before after, c.members = before ++ o :: after ∧ a ∈ after) ∨
      o ∈ c.members ∧ ∃ c' ∈ above, a ∈ c'.members)

/-- What a cache says of a member of the first class of a chain, if the search for the member that
it overrides or implements ends so.  Only of no chain at all does a cache say nothing. -/
structure AgreesWith (classes : List ClassDef) (cache : MemberCache) (m : MemberDef)
    (found : Option SuperMember) : Prop where
  implements : ∀ a, found = some ⟨a, .implements⟩ →
    ∃ e, cache.lookup m.name m.kind = some e ∧ e.member.site = m.site ∧ e.implements = some a
  overrides : ∀ o, found = some ⟨o, .overrides⟩ →
    ∃ e, cache.lookup m.name m.kind = some e ∧ e.member.site = m.site ∧
      ∀ a ∈ e.implements, a.isAbstract = true ∧ ComesAfter (classes.drop 1) o a
  none : found = none →
    (∃ e, cache.lookup m.name m.kind = some e ∧ e.member.site = m.site ∧ e.implements = none) ∨
      classes = []

/-! ## One chain -/

/-- The visible declarations of a name and a kind in a chain of ancestors. -/
def inherited (name : String) (kind : MemberKind) (rest : List ClassDef) : List MemberDef :=
  rest.flatMap fun c => c.members.filter fun m => m.kind = kind && !m.isLocal && m.name = name

theorem filter_declares_visible (c : ClassDef) (rest : List ClassDef) (name : String)
    (kind : MemberKind) : (visible (c :: rest)).filter (declares name kind) =
      c.members.filter (declares name kind) ++ inherited name kind rest := by
  rw [visible, List.filter_append, List.filter_flatMap, inherited]
  refine congrArg _ (List.flatMap_congr fun a _ => ?_)
  rw [List.filter_filter]
  refine List.filter_congr fun m _ => ?_
  rw [declares, Bool.and_right_comm]

/-- The search for an overridden member finds the first visible declaration. -/
theorem findSome?_visibleMember? (name : String) (kind : MemberKind) (rest : List ClassDef) :
    rest.findSome? (Session.visibleMember? name kind) = (inherited name kind rest).head? := by
  rw [inherited, List.head?_flatMap]
  exact congrArg (rest.findSome? ·) (funext fun c => List.head?_filter.symm)

/-- Of two visible declarations of a chain the later one is declared after the other. -/
theorem comesAfter_of_inherited {name : String} {kind : MemberKind} {rest : List ClassDef}
    {o a : MemberDef} {later : List MemberDef} (h : inherited name kind rest = o :: later)
    (ha : a ∈ later) : ComesAfter rest o a := by
  induction rest with
  | nil => cases h
  | cons c rest ih =>
    rw [inherited, List.flatMap_cons] at h
    rcases List.append_eq_cons_iff.mp h with ⟨hown, hrest⟩ | ⟨own, hown, hlater⟩
    · obtain ⟨below, c', above, rfl, hdeclared⟩ := ih hrest
      exact ⟨c :: below, c', above, rfl, hdeclared⟩
    · refine ⟨[], c, rest, rfl, ?_⟩
      obtain ⟨before, after, hsplit, -, -, hafter⟩ := List.filter_eq_cons_iff.mp hown
      rw [hlater, ← hafter, List.mem_append] at ha
      rcases ha with ha | ha
      · exact .inl ⟨before, after, hsplit, List.mem_of_mem_filter ha⟩
      · obtain ⟨c', hc', ha⟩ := List.mem_flatMap.mp ha
        rw [hsplit]
        exact .inr ⟨by simp, c', hc', List.mem_of_mem_filter ha⟩

/-- If all declarations of a name and a kind in a class are concrete and at one place, then they
make the entry, which implements the first abstract one of the visible declarations further up. -/
theorem exists_lookup_build {c : ClassDef} {m : MemberDef}
    (hm : ∃ m' ∈ c.members, declares m.name m.kind m' = true)
    (hown : ∀ m' ∈ c.members, declares m.name m.kind m' = true →
      m'.site = m.site ∧ m'.isAbstract = false) (rest : List ClassDef) :
    ∃ e, (build (c :: rest)).lookup m.name m.kind = some e ∧ e.member.site = m.site ∧
      e.implements = (inherited m.name m.kind rest).find? (·.isAbstract) := by
  rw [lookup_build_eq, filter_declares_visible]
  generalize hfilter : c.members.filter (declares m.name m.kind) = own
  have hall : ∀ m' ∈ own, m'.site = m.site ∧ m'.isAbstract = false := by
    rw [← hfilter]
    exact fun m' hm' => hown m' (List.mem_filter.mp hm').1 (List.mem_filter.mp hm').2
  cases own with
  | nil =>
    obtain ⟨m', hm', hdeclares⟩ := hm
    exact absurd hdeclares (List.filter_eq_nil_iff.mp hfilter m' hm')
  | cons first others =>
    obtain ⟨⟨hsite, hconcrete⟩, hothers⟩ := List.forall_mem_cons.mp hall
    refine ⟨_, by rw [List.cons_append, foldl_meet], hsite, ?_⟩
    have hnone : others.find? (·.isAbstract) = none :=
      List.find?_eq_none.mpr fun m' hm' => by simp [(hothers m' hm').2]
    rw [implemented?, hconcrete, if_neg Bool.false_ne_true, List.find?_append, hnone,
      Option.none_or]

/-- A search along the ancestors of a class says what the members of the class say of a member that
is concrete and the only one of its name and kind in the class. -/
theorem agreesWith_build {c : ClassDef} {m : MemberDef}
    (hm : ∃ m' ∈ c.members, declares m.name m.kind m' = true)
    (hown : ∀ m' ∈ c.members, declares m.name m.kind m' = true →
      m'.site = m.site ∧ m'.isAbstract = false) (rest : List ClassDef) :
    AgreesWith (c :: rest) (build (c :: rest)) m
      ((rest.findSome? (Session.visibleMember? m.name m.kind)).map fun a =>
        ⟨a, if a.isAbstract then .implements else .overrides⟩) := by
  rw [findSome?_visibleMember?]
  obtain ⟨e, he, hsite, himplements⟩ := exists_lookup_build hm hown rest
  cases hinherited : inherited m.name m.kind rest with
  | nil =>
    rw [hinherited] at himplements
    exact ⟨fun _ h => (nomatch h), fun _ h => (nomatch h),
      fun _ => .inl ⟨e, he, hsite, himplements⟩⟩
  | cons a later =>
    rw [hinherited] at himplements
    rw [List.head?_cons, Option.map_some]
    cases habstract : a.isAbstract with
    | true =>
      rw [List.find?_cons_of_pos habstract] at himplements
      rw [if_pos rfl]
      refine ⟨fun a' h => ?_, fun _ h => (nomatch h), fun h => (nomatch h)⟩
      obtain rfl : a = a' := congrArg SuperMember.member (Option.some.inj h)
      exact ⟨e, he, hsite, himplements⟩
    | false =>
      rw [List.find?_cons_of_neg (by simp [habstract])] at himplements
      rw [if_neg Bool.false_ne_true]
      refine ⟨fun _ h => (nomatch h), fun o h => ⟨e, he, hsite, fun a' ha' => ?_⟩,
        fun h => (nomatch h)⟩
      obtain rfl : a = o := congrArg SuperMember.member (Option.some.inj h)
      rw [himplements] at ha'
      exact ⟨List.find?_some ha',
        comesAfter_of_inherited hinherited (List.mem_of_find?_eq_some ha')⟩

end MemberCache

namespace Session

open MemberCache

/-! ## What lookups leave as it is -/

/-- The tree that a session goes by for a module. -/
def Holds (s : Session) (id : ModuleId) (t : Tree) : Prop :=
  if id = BaseModule.id then t = BaseModule.tree else s.trees.get? id = some t

theorem Holds.unique {s : Session} {id : ModuleId} {t u : Tree} (ht : s.Holds id t)
    (hu : s.Holds id u) : t = u := by
  rw [Holds] at ht hu
  split at ht
  · next hid =>
    rw [if_pos hid] at hu
    rw [ht, hu]
  · next hid =>
    rw [if_neg hid, ht] at hu
    exact Option.some.inj hu

/-- A session goes by the trees by which another one has gone and remembers its classes, but no
further ancestors. -/
structure GrowsTo (s s' : Session) : Prop where
  keyed : s'.IsKeyed
  trees : ∀ id t, s.trees.get? id = some t → s'.trees.get? id = some t
  classes : ∀ site found, s.classes.get? site = some found → s'.classes.get? site = some found
  chains : s'.chains = s.chains

variable {s s' : Session}

theorem GrowsTo.refl (h : s.IsKeyed) : s.GrowsTo s :=
  ⟨h, fun _ _ ht => ht, fun _ _ hfound => hfound, rfl⟩

theorem GrowsTo.trans {s'' : Session} (h : s.GrowsTo s') (h' : s'.GrowsTo s'') :
    s.GrowsTo s'' where
  keyed := h'.keyed
  trees id t ht := h'.trees id t (h.trees id t ht)
  classes site found hfound := h'.classes site found (h.classes site found hfound)
  chains := h'.chains.trans h.chains

theorem Holds.mono {id : ModuleId} {t : Tree} (ht : s.Holds id t)
    (h : ∀ id t, s.trees.get? id = some t → s'.trees.get? id = some t) : s'.Holds id t := by
  rw [Holds] at ht ⊢
  split at ht
  · next hid => rwa [if_pos hid]
  · next hid => rw [if_neg hid, h id t ht]

/-- Looking up a tree may only take the tree over. -/
theorem exists_tree?_eq (id : ModuleId) (s : Session) :
    ∃ trees, (tree? id s).2 = { s with trees := trees } := by
  rw [tree?_apply]
  split
  · exact ⟨_, rfl⟩
  · split
    · exact ⟨_, rfl⟩
    · split <;> exact ⟨_, rfl⟩

/-- A session remembers the same of classes and type aliases as another one. -/
structure SameAnswers (s s' : Session) : Prop where
  classes : s'.classes = s.classes
  aliases : s'.aliases = s.aliases
  chains : s'.chains = s.chains
  members : s'.members = s.members

/-- Taking a tree over leaves as it is what is remembered of classes and type aliases. -/
theorem sameAnswers_following (s : Session) (store : Store) (importer : ModuleId) (uri : String)
    (found : Except ResolveError Tree) : SameAnswers s (s.following store importer uri found) :=
  ⟨rfl, rfl, rfl, rfl⟩

/-- A query only makes a session grow. -/
def Grows {α : Type} (q : Query α) : Prop := ∀ s : Session, s.IsKeyed → s.GrowsTo (q s).2

theorem Grows.pure {α : Type} (a : α) : Grows (pure a) := fun _ hs => .refl hs

theorem Grows.bind {α β : Type} {q : Query α} {f : α → Query β} (hq : Grows q)
    (hf : ∀ a, Grows (f a)) : Grows (q >>= f) := by
  intro s hs
  exact (hq s hs).trans (hf _ _ (hq s hs).keyed)

theorem grows_tree? (id : ModuleId) : Grows (tree? id) := by
  intro s hs
  obtain ⟨trees, heq⟩ := exists_tree?_eq id s
  refine ⟨hs.tree? id, fun _ _ ht => get?_trees_tree?_of_some hs ht, ?_, ?_⟩ <;> rw [heq]
  exact fun _ _ h => h

theorem grows_resolveModule (importer : Tree) (uri : String) :
    Grows (resolveModule importer uri) := by
  intro s hs
  refine resolveModule_induction importer uri (.refl hs) (fun id => grows_tree? id s hs)
    fun hnew => ?_
  have hkeyed := (kept_isKeyed importer).byUri importer uri s hs
  rw [resolveModule_new hnew] at hkeyed
  obtain ⟨hclasses, -, hchains, -⟩ := sameAnswers_following s
    (Store.resolve uri importer.id s.store).2 importer.id uri
    (Store.resolve uri importer.id s.store).1
  exact ⟨hkeyed, fun _ _ ht => get?_trees_following.mpr (.inl ht),
    fun _ _ h => by rwa [hclasses], hchains⟩

theorem Grows.remembered {α : Type} {site : Site} {table : Session → Dict Site α}
    {store : Session → Dict Site α → Session} {compute : Query α} (hcompute : Grows compute)
    (hstore : ∀ (s : Session) a, s.IsKeyed →
      s.GrowsTo (store s ((table s).insertNew site a))) :
    Grows (remembered site table store compute) := by
  intro s hs
  rw [remembered_apply]
  split
  · exact .refl hs
  · exact (hcompute s hs).trans (hstore _ _ (hcompute s hs).keyed)

/-- The tables to which lookups add answers are those of classes and type aliases. -/
theorem grows_lookups : LookupClosed Grows where
  pure := .pure
  bind := .bind
  capacity _ hs := .refl hs
  byId := grows_tree?
  byUri := grows_resolveModule
  ofClass d hclass := hclass.remembered fun s found hs =>
    ⟨⟨hs.store, hs.trees⟩, fun _ _ h => h,
      fun site found hfound => by rw [Dict.get?_insertNew, hfound, Option.some_or], rfl⟩
  ofAlias d halias := halias.remembered fun s found hs =>
    ⟨⟨hs.store, hs.trees⟩, fun _ _ h => h, fun _ _ h => h, rfl⟩

/-- Looking up trees leaves as it is what is remembered of classes and type aliases. -/
theorem treeClosed_answers : TreeClosed fun q => ∀ s : Session, SameAnswers s (q s).2 where
  pure _ _ := ⟨rfl, rfl, rfl, rfl⟩
  bind hq hf s := by
    obtain ⟨hclasses, haliases, hchains, hmembers⟩ := hf _ _
    exact ⟨hclasses.trans (hq s).classes, haliases.trans (hq s).aliases,
      hchains.trans (hq s).chains, hmembers.trans (hq s).members⟩
  capacity _ := ⟨rfl, rfl, rfl, rfl⟩
  byId id s := by
    obtain ⟨trees, heq⟩ := exists_tree?_eq id s
    rw [heq]
    exact ⟨rfl, rfl, rfl, rfl⟩
  byUri importer uri s := by
    refine resolveModule_induction (I := SameAnswers s) importer uri ⟨rfl, rfl, rfl, rfl⟩
      (fun id => ?_) fun _ => sameAnswers_following ..
    obtain ⟨trees, heq⟩ := exists_tree?_eq id s
    rw [heq]
    exact ⟨rfl, rfl, rfl, rfl⟩

/-! ## Coherent sessions -/

/-- What a session remembers of classes fits together: the members of a class are those that the
tree of its module declares, its ancestors begin with it, and what it shows is made from them. -/
structure IsCoherent (s : Session) : Prop extends IsKeyed s where
  classes : ∀ site c, s.classes.get? site = some (some c) →
    ∃ t, s.Holds site.module t ∧ c.members = membersOf t site.node c.decl
  chains : ∀ site chain, s.chains.get? site = some chain →
    s.classes.get? site = some chain.classes.head?
  members : ∀ site cache, s.members.get? site = some cache →
    ∃ chain, s.chains.get? site = some chain ∧ cache = build chain.classes

namespace IsCoherent

/-- A session that remembers nothing of classes. -/
theorem of_forgotten (h : s.IsKeyed) (hclasses : s.classes = Dict.empty)
    (hchains : s.chains = Dict.empty) (hmembers : s.members = Dict.empty) : s.IsCoherent where
  toIsKeyed := h
  classes _ _ hc := nomatch (hclasses ▸ hc :)
  chains _ _ hchain := nomatch (hchains ▸ hchain :)
  members _ _ hcache := nomatch (hmembers ▸ hcache :)

/-- More trees make no difference. -/
theorem mono (h : s.IsCoherent) (hkeyed : s'.IsKeyed)
    (htrees : ∀ id t, s.trees.get? id = some t → s'.trees.get? id = some t)
    (hclasses : s'.classes = s.classes) (hchains : s'.chains = s.chains)
    (hmembers : s'.members = s.members) : s'.IsCoherent where
  toIsKeyed := hkeyed
  classes site c hc := by
    obtain ⟨t, ht, hmembers⟩ := h.classes site c (hclasses ▸ hc)
    exact ⟨t, ht.mono htrees, hmembers⟩
  chains site chain hchain := hclasses ▸ h.chains site chain (hchains ▸ hchain)
  members site cache hcache := hchains ▸ h.members site cache (hmembers ▸ hcache)

theorem insertClass (h : s.IsCoherent) {site : Site} {found : Option ClassDef}
    (hfound : ∀ c, found = some c →
      ∃ t, s.Holds site.module t ∧ c.members = membersOf t site.node c.decl) :
    IsCoherent { s with classes := s.classes.insertNew site found } where
  toIsKeyed := ⟨h.store, h.trees⟩
  classes site' c hc := by
    rw [Dict.get?_insertNew, Option.or_eq_some_iff] at hc
    rcases hc with hc | ⟨-, hc⟩
    · exact h.classes site' c hc
    · split at hc
      · next hsite =>
        obtain rfl := beq_iff_eq.mp hsite
        exact hfound c (Option.some.inj hc)
      · cases hc
  chains site' chain hchain := by
    rw [Dict.get?_insertNew, h.chains site' chain hchain, Option.some_or]
  members := h.members

theorem insertChain (h : s.IsCoherent) {site : Site} {chain : AncestorChain}
    (hchain : s.classes.get? site = some chain.classes.head?) :
    IsCoherent { s with chains := s.chains.insertNew site chain } where
  toIsKeyed := ⟨h.store, h.trees⟩
  classes := h.classes
  chains site' chain' hchain' := by
    rw [Dict.get?_insertNew, Option.or_eq_some_iff] at hchain'
    rcases hchain' with hchain' | ⟨-, hchain'⟩
    · exact h.chains site' chain' hchain'
    · split at hchain'
      · next hsite =>
        obtain rfl := beq_iff_eq.mp hsite
        rw [← Option.some.inj hchain']
        exact hchain
      · cases hchain'
  members site' cache hcache := by
    obtain ⟨chain', hchain', hbuilt⟩ := h.members site' cache hcache
    exact ⟨chain', by rw [Dict.get?_insertNew, hchain', Option.some_or], hbuilt⟩

theorem insertMembers (h : s.IsCoherent) {site : Site} {chain : AncestorChain}
    (hchain : s.chains.get? site = some chain) :
    IsCoherent { s with members := s.members.insertNew site (build chain.classes) } where
  toIsKeyed := ⟨h.store, h.trees⟩
  classes := h.classes
  chains := h.chains
  members site' cache hcache := by
    rw [Dict.get?_insertNew, Option.or_eq_some_iff] at hcache
    rcases hcache with hcache | ⟨-, hcache⟩
    · exact h.members site' cache hcache
    · split at hcache
      · next hsite =>
        obtain rfl := beq_iff_eq.mp hsite
        exact ⟨chain, hchain, (Option.some.inj hcache).symm⟩
      · cases hcache

end IsCoherent

/-! ## Answers about classes -/

theorem members_of_classAt? {t : Tree} {d : DeclRef} {c : ClassDef}
    (h : (classAt? t d s).1 = some c) : c.members = membersOf t d.site.node c.decl := by
  generalize hq : classAt? t d = q at h
  unfold classAt? at hq
  split at hq
  · subst hq
    exact Option.some.inj h ▸ rfl
  · subst hq
    exact Option.some.inj h ▸ rfl
  · subst hq
    cases h

theorem holds_of_tree? (hs : s.IsKeyed) {id : ModuleId} {t : Tree} (h : (tree? id s).1 = some t) :
    (tree? id s).2.Holds id t := by
  rw [Holds]
  rw [tree?_apply] at h ⊢
  by_cases hid : id = BaseModule.id
  · rw [if_pos hid] at h ⊢
    exact (Option.some.inj h).symm
  rw [if_neg hid] at h ⊢
  cases hown : s.trees.get? id with
  | some own =>
    rw [hown] at h
    rw [if_neg hid]
    exact hown.trans h
  | none =>
    cases hstored : s.store.tree? id with
    | none =>
      rw [hown, hstored] at h
      cases h
    | some stored =>
      rw [hown, hstored] at h
      rw [if_neg hid]
      simp only [get?_trees_setTree, hs.store _ _ hstored, if_true]
      exact h

/-- The members of a class are those that the tree of its module declares. -/
theorem members_of_declaredClass? (hs : s.IsKeyed) {d : DeclRef} {c : ClassDef}
    (hc : (declaredClass? d s).1 = some c) :
    ∃ t, (declaredClass? d s).2.Holds d.site.module t ∧
      c.members = membersOf t d.site.node c.decl := by
  rw [declaredClass?, bind_apply] at hc ⊢
  cases hfound : (tree? d.site.module s).1 with
  | none =>
    rw [hfound] at hc
    cases hc
  | some t =>
    rw [hfound] at hc
    exact ⟨t, (holds_of_tree? hs hfound).mono
      (grows_lookups.classAt? t d _ (hs.tree? d.site.module)).trees, members_of_classAt? hc⟩

/-- The definition of a class is remembered as it is answered. -/
theorem get?_classes_classDef (d : DeclRef) (s : Session) :
    (classDef d s).2.classes.get? d.site = some (classDef d s).1 := by
  rw [classDef_eq, remembered_apply]
  split
  · next hfound => exact hfound
  · next hnone =>
    rw [Dict.get?_insertNew, (treeClosed_answers.declaredClass? d s).classes, hnone,
      Option.none_or,
      if_pos (beq_self_eq_true d.site)]

theorem head?_chainFrom (n : Nat) (next : Option ClassDef) (s : Session) :
    (env.chainFrom (n + 1) [] next s).1.classes.head? = next := by
  cases next with
  | none => rfl
  | some c =>
    rw [chainFrom_succ]
    rfl

/-- The ancestors of a class begin with it. -/
theorem get?_classes_ancestors (hs : s.IsKeyed) (d : DeclRef) :
    (env.ancestors d s).2.classes.get? d.site =
      some (env.ancestors d s).1.classes.head? := by
  have hclass := get?_classes_classDef d s
  have hkeyed := (grows_lookups.classDef d s hs).keyed
  generalize hfound : classDef d s = found at hclass hkeyed
  have heq : env.ancestors d s = env.chainFrom (found.2.capacity + 1) [] found.1 found.2 := by
    rw [← hfound]
    rfl
  rw [heq, head?_chainFrom]
  exact (grows_lookups.chainFrom _ _ _ _ hkeyed).classes _ _ hclass

/-- The ancestors of a class are remembered as they are answered. -/
theorem get?_chains_ancestors (hs : s.IsKeyed) (d : DeclRef) :
    (ancestors d s).2.chains.get? d.site = some (ancestors d s).1 := by
  rw [ancestors, remembered_apply]
  split
  · next hfound => exact hfound
  · next hnone =>
    rw [Dict.get?_insertNew, (grows_lookups.ancestors d s hs).chains, hnone, Option.none_or,
      if_pos (beq_self_eq_true d.site)]

/-! ## Every session is coherent -/

theorem get?_trees_of_arrival {t : Tree} (h : s.arrival t = .first) :
    s.trees.get? t.id = none := by
  cases hown : s.trees.get? t.id with
  | none => rfl
  | some own =>
    rw [arrival, hown] at h
    simp only at h
    split at h <;> cases h

theorem IsCoherent.forget (h : s.IsKeyed) : s.invalidate.IsCoherent :=
  .of_forgotten h.invalidate rfl rfl rfl

theorem IsCoherent.adopt (h : s.IsCoherent) (t : Tree) : (adopt t s).2.IsCoherent := by
  rw [adopt_apply]
  cases harrival : s.arrival t with
  | known =>
    simp only
    split
    · exact h
    · exact .forget (h.toIsKeyed.foldl_setTree _)
  | first =>
    simp only
    split
    · refine h.mono (h.toIsKeyed.setTree t) (fun id u hu => ?_) rfl rfl rfl
      have hne : t.id ≠ id := by
        rintro rfl
        rw [get?_trees_of_arrival harrival] at hu
        cases hu
      rw [get?_trees_setTree, if_neg hne, hu]
    · exact .forget (h.toIsKeyed.foldl_setTree _)
  | replaces => exact .forget (h.toIsKeyed.foldl_setTree _)

theorem IsCoherent.tree? (h : s.IsCoherent) (id : ModuleId) : (tree? id s).2.IsCoherent := by
  have hgrows := grows_tree? id s h.toIsKeyed
  obtain ⟨trees, heq⟩ := exists_tree?_eq id s
  rw [heq] at hgrows ⊢
  exact h.mono hgrows.keyed hgrows.trees rfl rfl rfl

/-- What is remembered of classes is kept coherent by all steps of queries. -/
theorem keptBySteps_isCoherent (t : Tree) : KeptBySteps t IsCoherent where
  adopt s h := h.adopt t
  byId id s h := h.tree? id
  byUri importer uri s h := by
    refine resolveModule_induction importer uri h h.tree? fun hnew => ?_
    have hgrows := grows_resolveModule importer uri s h.toIsKeyed
    rw [resolveModule_new hnew] at hgrows
    obtain ⟨hclasses, -, hchains, hmembers⟩ := sameAnswers_following s
      (Store.resolve uri importer.id s.store).2 importer.id uri
      (Store.resolve uri importer.id s.store).1
    exact h.mono hgrows.keyed hgrows.trees hclasses hchains hmembers
  computed hmemo h h' hnone := by
    rw [remembered_apply, hnone]
    cases hmemo with
    | classes d => exact h'.insertClass fun c hc => members_of_declaredClass? h.toIsKeyed hc
    | aliases d =>
      exact h'.mono ⟨h'.store, h'.trees⟩ (fun _ _ ht => ht) rfl rfl rfl
    | chains d => exact h'.insertChain (get?_classes_ancestors h.toIsKeyed d)
    | members d => exact h'.insertMembers (get?_chains_ancestors h.toIsKeyed d)

/-- The sessions that come about by questions, by updates of trees and by changes of the store, if
the stores hold each tree under its own identity. -/
inductive Used : Session → Prop
  | new {W : Store} (hW : W.IsKeyed) : Used (new W)
  | change {s : Session} (hs : Used s) {W : Store} (hW : W.IsKeyed) : Used { s with store := W }
  | update {s : Session} (hs : Used s) (t : Tree) : Used (s.updateModule t)
  | ask {s : Session} (hs : Used s) (t : Tree) (q : Question) : Used (ask t q s).2

theorem Used.isCoherent (hs : Used s) : s.IsCoherent := by
  induction hs with
  | new hW => exact .of_forgotten ⟨hW, fun _ _ h => nomatch h⟩ rfl rfl rfl
  | change _ hW ih =>
    exact ih.mono ⟨hW, ih.trees⟩ (fun _ _ ht => ht) rfl rfl rfl
  | update _ t ih => exact .forget (ih.toIsKeyed.setTree t)
  | ask _ t q ih =>
    obtain ⟨rest, hask, htraced⟩ := exists_ask_eq (t := t) q
    obtain ⟨log, hlog⟩ := htraced (adopt t _).2
    rw [hask]
    exact (hlog.keeps (keptBySteps_isCoherent t) (ih.adopt t)).1

/-! ## Members that a tree declares -/

/-- A member is declared by a child of the node of its class. -/
theorem child_of_mem_membersOf {t : Tree} {n : Nat} {owner : DeclRef} {m : MemberDef}
    (hm : m ∈ membersOf t n owner) : m.site.module = t.id ∧ m.site.node ∈ t.children n ∧
      (t.kind? m.site.node).bind memberName? = some (m.name, m.kind) := by
  obtain ⟨c, hc, hm⟩ := List.mem_filterMap.mp hm
  split at hm
  · next hkind =>
    obtain rfl := Option.some.inj hm
    simp only [siteOf, hkind, hc, Option.bind_some, memberName?, and_self]
  · next hkind =>
    obtain rfl := Option.some.inj hm
    simp only [siteOf, hkind, hc, Option.bind_some, memberName?, and_self]
  · cases hm

/-- By whatever name their class is called, the members are the same otherwise. -/
theorem membersOf_owner (t : Tree) (n : Nat) (d d' : DeclRef) :
    membersOf t n d' = (membersOf t n d).map fun m => { m with owner := d' } := by
  rw [membersOf, membersOf, List.map_filterMap]
  refine List.filterMap_congr fun c _ => ?_
  split <;> rfl

theorem module_of_ownerOf? {t : Tree} {n : Nat} {owner : DeclRef} (h : ownerOf? t n = some owner) :
    owner.site.module = t.id := by
  obtain ⟨p, -, h⟩ := Option.bind_eq_some_iff.mp h
  split at h
  · exact module_of_declOf? h
  · exact module_of_declOf? h
  · cases h

/-! ## Both answers -/

theorem superMember?_apply {t : Tree} {n : Nat} {owner : DeclRef} {name : String}
    {kind : MemberKind} (hname : (t.kind? n).bind memberName? = some (name, kind))
    (howner : ownerOf? t n = some owner) (s : Session) :
    superMember? t n s =
      ((((ancestors owner (adopt t s).2).1.classes.drop 1).findSome? (visibleMember? name kind)).map
          fun a => ⟨a, if a.isAbstract then .implements else .overrides⟩,
        (ancestors owner (adopt t s).2).2) := by
  rw [superMember?, bind_apply, hname, howner]
  rfl

theorem holds_ancestors (hs : s.IsKeyed) (d : DeclRef) {id : ModuleId} {t : Tree}
    (ht : s.Holds id t) : (ancestors d s).2.Holds id t := by
  rw [ancestors, remembered_apply]
  split
  · exact ht
  · exact ht.mono (grows_lookups.ancestors d s hs).trees

theorem ancestors_of_get? {d : DeclRef} {chain : AncestorChain}
    (h : s.chains.get? d.site = some chain) : ancestors d s = (chain, s) := by
  rw [ancestors, remembered_apply, h]

theorem membersOfClass_of_get? (hs : s.IsCoherent) {d : DeclRef} {chain : AncestorChain}
    (h : s.chains.get? d.site = some chain) :
    (membersOfClass d s).1 = build chain.classes := by
  rw [membersOfClass, remembered_apply]
  split
  · next cache hcache =>
    obtain ⟨chain', hchain', rfl⟩ := hs.members d.site cache hcache
    rw [h] at hchain'
    rw [Option.some.inj hchain']
  · rw [bind_apply, ancestors_of_get? h]
    rfl

/-- Whatever a session has been used for, what it says of the member that a concrete member
overrides or implements agrees with what it says of the members of the class, if no other member of
the class has the name and the kind. -/
theorem superMember?_agreesWith (hs : s.Used) {t : Tree} (ht : (adopt t s).2.Holds t.id t)
    {n : Nat} {owner : DeclRef} (howner : ownerOf? t n = some owner) {m : MemberDef}
    (hm : m ∈ membersOf t owner.site.node owner) (hnode : m.site.node = n)
    (honly : ∀ m' ∈ membersOf t owner.site.node owner, m'.name = m.name → m'.kind = m.kind → m' = m)
    (hconcrete : m.isAbstract = false) :
    let s' := (superMember? t n s).2
    AgreesWith (ancestors owner s').1.classes (membersOfClass owner s').1 m
      (superMember? t n s).1 := by
  have hcoherent : (superMember? t n s).2.IsCoherent := (hs.ask t (.superMember n)).isCoherent
  have hname : (t.kind? n).bind memberName? = some (m.name, m.kind) :=
    hnode ▸ (child_of_mem_membersOf hm).2.2
  have hkeyed := (hs.isCoherent.adopt t).toIsKeyed
  rw [superMember?_apply hname howner] at hcoherent ⊢
  simp only at hcoherent ⊢
  -- the chain of the class is remembered, so both answers are about it
  have hchain := get?_chains_ancestors hkeyed owner
  have hholds := holds_ancestors hkeyed owner ht
  generalize ancestors owner (adopt t s).2 = asked at hchain hholds hcoherent ⊢
  obtain ⟨chain, s'⟩ := asked
  simp only at hchain hholds hcoherent ⊢
  rw [ancestors_of_get? hchain, membersOfClass_of_get? hcoherent hchain]
  cases hclasses : chain.classes with
  | nil =>
    exact ⟨fun _ h => (nomatch h), fun _ h => (nomatch h), fun _ => .inr rfl⟩
  | cons c rest =>
    rw [List.drop_succ_cons, List.drop_zero]
    have hclass := hcoherent.chains _ _ hchain
    rw [hclasses, List.head?_cons] at hclass
    obtain ⟨u, hu, hmembers⟩ := hcoherent.classes _ _ hclass
    rw [module_of_ownerOf? howner] at hu
    obtain rfl := hu.unique hholds
    rw [membersOf_owner u owner.site.node owner] at hmembers
    refine agreesWith_build ⟨{ m with owner := c.decl }, ?_, ?_⟩ ?_ rest
    · rw [hmembers]
      exact List.mem_map_of_mem hm
    · exact declares_iff.mpr ⟨rfl, rfl⟩
    · intro m' hm' hdeclares
      rw [hmembers] at hm'
      obtain ⟨declared, hdeclared, rfl⟩ := List.mem_map.mp hm'
      obtain ⟨hkind, hname⟩ := declares_iff.mp hdeclares
      obtain rfl := honly declared hdeclared hname hkind
      exact ⟨rfl, hconcrete⟩

/-! ## An abstract declaration further up -/

/-- A module with an abstract property that a class implements, whose property is overridden. -/
def figures : Source.Module :=
  { bareModule "file:///w/m.pkl" with
    classes := [
      ⟨"Shape", [], none, [.abstract], [⟨"area", none, [.abstract], none, none, none⟩], [], none⟩,
      ⟨"Figure", [], some (.simple "Shape"), [.open], [⟨"area", none, [], none, none, none⟩], [],
        none⟩,
      ⟨"Square", [], some (.simple "Figure"), [], [⟨"area", none, [], none, none, none⟩], [],
        none⟩] }

def figuresTree : Tree := figures.treeAs (Store.idOf figures.uri) 1

def figuresStore : Store := Store.ofSources default .none [figures]

theorem isKeyed_figuresStore : figuresStore.IsKeyed := fun _ _ =>
  (Store.isPlain_ofSources ProjectIndex.manifestIn?_none (by decide)).keyed

/-- The last class of the module. -/
def square : DeclRef := ⟨⟨figuresTree.id, 5⟩, "Square"⟩

/-- Its property. -/
def squareArea : MemberDef := ⟨"area", .property, ⟨figuresTree.id, 6⟩, square, false, false⟩

/-- The property of the last class overrides that of the second one and implements that of the
first one. -/
theorem superMember?_agreesWith_figures :
    let s' := (superMember? figuresTree 6 (new figuresStore)).2
    (superMember? figuresTree 6 (new figuresStore)).1.map (fun o => (o.member.site.node, o.kind)) =
        some (4, .overrides) ∧
      AgreesWith (ancestors square s').1.classes (membersOfClass square s').1 squareArea
        (superMember? figuresTree 6 (new figuresStore)).1 := by
  have hheld : figuresStore.tree? figuresTree.id = some figuresTree :=
    Store.tree?_ofSources_singleton figures
  have hid : figuresTree.id ≠ BaseModule.id := by decide
  have hholds : (adopt figuresTree (new figuresStore)).2.Holds figuresTree.id figuresTree := by
    rw [Holds, if_neg hid, adopt_new hheld, get?_trees_setTree, if_pos rfl]
  have howner : ownerOf? figuresTree 6 = some square := by decide
  have hmembers : membersOf figuresTree square.site.node square = [squareArea] := by
    decide
  have hmem : squareArea ∈ membersOf figuresTree square.site.node square := by
    rw [hmembers]
    exact List.mem_singleton_self squareArea
  have honly : ∀ m ∈ membersOf figuresTree square.site.node square, m.name = squareArea.name →
      m.kind = squareArea.kind → m = squareArea := by
    intro m hm _ _
    rw [hmembers] at hm
    exact List.mem_singleton.mp hm
  have hagrees := superMember?_agreesWith (.new isKeyed_figuresStore) hholds howner hmem rfl honly
    rfl
  exact ⟨by decide +kernel, hagrees⟩

end Session

end PklAnalysis
