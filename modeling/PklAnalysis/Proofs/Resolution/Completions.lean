import Mathlib.Data.List.Find
import Mathlib.Data.List.Pairwise
import PklAnalysis.Analysis.Completion
import PklAnalysis.Proofs.Resolution.OverriddenMembers

/-!
# What is completed and what is found

The completions of a type are put together from all members of all classes that the type shows,
while a member is looked up class by class until one has it.  Both take the first member of a name
and a kind, so exactly the members that are found are completed, each with the class that declares
it.  Both go by the members that a session remembers of a class, and these are always told apart by
their names and kinds.
-/

namespace PklAnalysis

/-! ## Lists without clashes -/

namespace Completion

variable {a b c : Completion}

theorem clashes_iff : a.clashes b = true ↔ a.name = b.name ∧ a.kind = b.kind := by
  rw [clashes, Bool.and_eq_true, decide_eq_true_eq, decide_eq_true_eq]

theorem clashes_self (c : Completion) : c.clashes c = true := clashes_iff.mpr ⟨rfl, rfl⟩

theorem clashes_comm (a b : Completion) : a.clashes b = b.clashes a := by
  simp only [clashes, eq_comm]

/-- Completions that clash with each other clash with the same ones. -/
theorem clashes_congr (h : a.clashes b = true) (c : Completion) : c.clashes a = c.clashes b := by
  obtain ⟨hname, hkind⟩ := clashes_iff.mp h
  rw [clashes, clashes, hname, hkind]

/-- No two completions of a list are of the same name and kind. -/
def Distinct (cs : List Completion) : Prop := cs.Pairwise fun a b => a.clashes b = false

theorem distinct_addNew {given : List Completion} (h : Distinct given) (more : List Completion) :
    Distinct (addNew given more) := by
  induction more generalizing given with
  | nil => exact h
  | cons c more ih =>
    rw [addNew, List.foldl_cons]
    split
    · exact ih h
    · next hany =>
      refine ih (List.pairwise_append.mpr ⟨h, List.pairwise_singleton _ _, fun a ha b hb => ?_⟩)
      rw [List.mem_singleton.mp hb, clashes_comm]
      exact Bool.eq_false_of_not_eq_true fun hclash => hany (List.any_eq_true.mpr ⟨a, ha, hclash⟩)

/-- Completions that are left out clash with earlier ones, so the first one of a name and a kind
stays. -/
theorem find?_addNew (c : Completion) (given more : List Completion) :
    (addNew given more).find? c.clashes = (given ++ more).find? c.clashes := by
  induction more generalizing given with
  | nil => rw [List.append_nil]; rfl
  | cons d more ih =>
    rw [addNew, List.foldl_cons]
    split
    · next hany =>
      obtain ⟨a, ha, hclash⟩ := List.any_eq_true.mp hany
      refine (ih given).trans ?_
      rw [List.find?_append, List.find?_append, List.find?_cons]
      cases hd : c.clashes d with
      | false => rfl
      | true =>
        -- what clashes with the one left out clashes with the earlier one
        have hfound : (given.find? c.clashes).isSome :=
          List.find?_isSome.mpr ⟨a, ha, (clashes_congr hclash c).symm.trans hd⟩
        obtain ⟨first, hfirst⟩ := Option.isSome_iff_exists.mp hfound
        rw [hfirst, Option.some_or, Option.some_or]
    · refine (ih _).trans ?_
      rw [List.append_assoc, List.singleton_append]

/-- A completion of a list without clashes is the first one of its name and kind. -/
theorem mem_iff_find? {cs : List Completion} (h : Distinct cs) :
    c ∈ cs ↔ cs.find? c.clashes = some c := by
  refine ⟨fun hc => ?_, List.mem_of_find?_eq_some⟩
  have hsome : (cs.find? c.clashes).isSome := List.find?_isSome.mpr ⟨c, hc, clashes_self c⟩
  obtain ⟨first, hfirst⟩ := Option.isSome_iff_exists.mp hsome
  have hclash : c.clashes first = true := List.find?_some hfirst
  have hsymm : Std.Symm fun a b : Completion => a.clashes b = false :=
    ⟨fun a b hab => (clashes_comm b a).trans hab⟩
  have hsame : c = first := by
    by_contra hne
    have hdistinct := h.forall hc (List.mem_of_find?_eq_some hfirst) hne
    exact Bool.false_ne_true (hdistinct.symm.trans hclash)
  rw [hfirst, ← hsame]

end Completion

/-! ## The completions of one class -/

namespace MemberCache

open Completion

/-- The members that a cache shows, properties first. -/
def completions (cache : MemberCache) : List Completion :=
  (cache.properties ++ cache.methods).map fun e => ofMember e.member

/-- An entry of a table into which a declaration is entered is about the declaration or about a
member of the table. -/
theorem member_of_mem_note {table : List CachedMember} {d : MemberDef} {e : CachedMember}
    (h : e ∈ note table d) : e.member = d ∨ ∃ e' ∈ table, e'.member = e.member := by
  rw [note] at h
  split at h
  · obtain ⟨e', he', rfl⟩ := List.mem_map.mp h
    refine .inr ⟨e', he', ?_⟩
    split <;> rfl
  · rcases List.mem_append.mp h with h | h
    · exact .inr ⟨e, h, rfl⟩
    · exact .inl (congrArg CachedMember.member (List.mem_singleton.mp h))

theorem table_add (cache : MemberCache) (d : MemberDef) (kind : MemberKind) :
    (cache.add d).table kind =
      if d.kind = kind then note (cache.table kind) d else cache.table kind := by
  rw [add]
  cases d.kind <;> cases kind <;> rfl

/-- Each table of a cache holds members of its kind. -/
theorem kind_of_mem_table_build (cs : List ClassDef) (kind : MemberKind) :
    ∀ e ∈ (build cs).table kind, e.member.kind = kind := by
  have hrun : ∀ ms : List MemberDef, ∀ e ∈ (ms.foldl add ⟨[], []⟩).table kind,
      e.member.kind = kind := by
    intro ms
    induction ms using List.reverseRecOn with
    | nil => cases kind <;> exact fun e he => absurd he List.not_mem_nil
    | append_singleton ms d ih =>
      rw [List.foldl_append, List.foldl_cons, List.foldl_nil, table_add]
      intro e he
      split at he
      · next hd =>
        rcases member_of_mem_note he with hmember | ⟨e', he', hmember⟩
        · rw [hmember, hd]
        · rw [← hmember, ih e' he']
      · exact ih e he
  exact hrun _

/-- What a cache completes under a name and a kind is what is looked up in it. -/
theorem find?_completions_build (cs : List ClassDef) (c : Completion) :
    (build cs).completions.find? c.clashes
      = ((build cs).lookup c.name c.kind).map fun e => ofMember e.member := by
  have htable (kind : MemberKind) :
      ((build cs).table kind).find? (c.clashes ∘ fun e => ofMember e.member) =
        if c.kind = kind then (build cs).lookup c.name kind else none := by
    rw [lookup]
    split
    · next hkind =>
      refine List.find?_congr fun e he => ?_
      rw [Function.comp_apply, clashes, ofMember, kind_of_mem_table_build cs kind e he]
      simp [hkind, eq_comm]
    · next hkind =>
      refine List.find?_eq_none.mpr fun e he hclash => hkind ?_
      rw [← kind_of_mem_table_build cs kind e he]
      exact (clashes_iff.mp hclash).2
  have hproperties := htable .property
  have hmethods := htable .method
  simp only [table] at hproperties hmethods
  rw [completions, List.find?_map, List.find?_append, hproperties, hmethods]
  cases c.kind <;> simp

end MemberCache

namespace Session

variable {s s' : Session}

/-! ## What is remembered of members -/

/-- What a session remembers of the members of a class has been put together from some chain of
classes. -/
def HasBuilt (s : Session) : Prop :=
  ∀ site cache, s.members.get? site = some cache → ∃ cs, cache = .build cs

theorem HasBuilt.of_members_eq (h : s.HasBuilt) (hmembers : s'.members = s.members) :
    s'.HasBuilt := by
  rw [HasBuilt, hmembers]
  exact h

theorem hasBuilt_of_forgotten (h : s.members = Dict.empty) : s.HasBuilt := by
  rw [HasBuilt, h]
  exact fun _ _ hcache => nomatch hcache

theorem HasBuilt.adopt (h : s.HasBuilt) (t : Tree) : (adopt t s).2.HasBuilt := by
  rw [adopt_apply]
  cases s.arrival t with
  | known =>
    simp only
    split
    · exact h
    · exact hasBuilt_of_forgotten rfl
  | first =>
    simp only
    split
    · exact h.of_members_eq rfl
    · exact hasBuilt_of_forgotten rfl
  | replaces => exact hasBuilt_of_forgotten rfl

theorem HasBuilt.tree? (h : s.HasBuilt) (id : ModuleId) : (tree? id s).2.HasBuilt := by
  obtain ⟨trees, heq⟩ := exists_tree?_eq id s
  rw [heq]
  exact h.of_members_eq rfl

/-- All steps of queries remember members in the same way. -/
theorem keptBySteps_hasBuilt (t : Tree) : KeptBySteps t HasBuilt where
  adopt s h := h.adopt t
  byId id s h := h.tree? id
  byUri importer uri s h :=
    resolveModule_induction importer uri h h.tree? fun _ => h.of_members_eq rfl
  computed hmemo h h' hnone := by
    rw [remembered_apply, hnone]
    cases hmemo with
    | classes d => exact h'.of_members_eq rfl
    | aliases d => exact h'.of_members_eq rfl
    | chains d => exact h'.of_members_eq rfl
    | members d =>
      intro site cache hcache
      rw [Dict.get?_insertNew, Option.or_eq_some_iff] at hcache
      rcases hcache with hcache | ⟨-, hcache⟩
      · exact h' site cache hcache
      · split at hcache
        · exact ⟨_, (Option.some.inj hcache).symm⟩
        · cases hcache

/-- The sessions that come about by queries of any kind, by updates of trees and by changes of the
store. -/
inductive Queried : Session → Prop
  | new (W : Store) : Queried (new W)
  | change {s : Session} (hs : Queried s) (W : Store) : Queried { s with store := W }
  | update {s : Session} (hs : Queried s) (t : Tree) : Queried (s.updateModule t)
  | query {s : Session} (hs : Queried s) {α : Type} {t : Tree} {q : Query α} (hq : Traced t q) :
      Queried (q s).2

theorem Queried.hasBuilt (hs : s.Queried) : s.HasBuilt := by
  induction hs with
  | new W => exact hasBuilt_of_forgotten rfl
  | change _ W ih => exact ih
  | update _ t ih => exact hasBuilt_of_forgotten rfl
  | query _ hq ih =>
    obtain ⟨log, hlog⟩ := hq _
    exact (hlog.keeps (keptBySteps_hasBuilt _) ih).1

/-! ## Asking again -/

/-- What a session remembers of type aliases and members another one remembers as well. -/
structure Retains (s s' : Session) : Prop where
  aliases : ∀ site a, s.aliases.get? site = some a → s'.aliases.get? site = some a
  members : ∀ site a, s.members.get? site = some a → s'.members.get? site = some a

theorem Retains.refl (s : Session) : Retains s s := ⟨fun _ _ h => h, fun _ _ h => h⟩

theorem Retains.trans {s s' s'' : Session} (h : Retains s s') (h' : Retains s' s'') :
    Retains s s'' :=
  ⟨fun site a ha => h'.aliases site a (h.aliases site a ha),
    fun site a ha => h'.members site a (h.members site a ha)⟩

theorem Retains.of_eq (haliases : s'.aliases = s.aliases) (hmembers : s'.members = s.members) :
    Retains s s' :=
  ⟨fun _ _ ha => haliases ▸ ha, fun _ _ ha => hmembers ▸ ha⟩

/-- Looking up definitions forgets nothing and leaves the members as they are. -/
theorem retains_lookups :
    LookupClosed fun q => ∀ s : Session, Retains s (q s).2 ∧ (q s).2.members = s.members where
  pure _ s := ⟨.refl s, rfl⟩
  bind hq hf s :=
    ⟨(hq s).1.trans (hf _ _).1, (hf _ _).2.trans (hq s).2⟩
  capacity s := ⟨.refl s, rfl⟩
  byId id s := by
    have h := treeClosed_answers.byId id s
    exact ⟨.of_eq h.aliases h.members, h.members⟩
  byUri importer uri s := by
    have h := treeClosed_answers.byUri importer uri s
    exact ⟨.of_eq h.aliases h.members, h.members⟩
  ofClass d hd s := by
    rw [classDef_eq, remembered_apply]
    split
    · exact ⟨.refl s, rfl⟩
    · exact ⟨(hd s).1.trans (.of_eq rfl rfl), (hd s).2⟩
  ofAlias d hd s := by
    rw [aliasDef_eq, remembered_apply]
    split
    · exact ⟨.refl s, rfl⟩
    · refine ⟨(hd s).1.trans ⟨fun site a ha => ?_, fun _ _ ha => ha⟩, (hd s).2⟩
      rw [Dict.get?_insertNew, ha, Option.some_or]

theorem remembered_of_get? {α : Type} {site : Site} {table : Session → Dict Site α}
    {store : Session → Dict Site α → Session} {compute : Query α} {a : α}
    (h : (table s).get? site = some a) : remembered site table store compute s = (a, s) := by
  rw [remembered_apply, h]

theorem retains_ancestors (d : DeclRef) (s : Session) : Retains s (ancestors d s).2 ∧
    (ancestors d s).2.members = s.members := by
  rw [ancestors, remembered_apply]
  split
  · exact ⟨.refl s, rfl⟩
  · obtain ⟨hretains, hmembers⟩ := retains_lookups.ancestors d s
    exact ⟨hretains.trans (.of_eq rfl rfl), hmembers⟩

/-- The members of a class are remembered as they are answered. -/
theorem get?_members_membersOfClass (d : DeclRef) (s : Session) :
    (membersOfClass d s).2.members.get? d.site = some (membersOfClass d s).1 := by
  rw [membersOfClass, remembered_apply]
  split
  · next hfound => exact hfound
  · next hnone =>
    rw [bind_apply, Dict.get?_insertNew, if_pos (beq_self_eq_true d.site)]
    refine Option.or_eq_some_iff.mpr (.inr ⟨?_, rfl⟩)
    exact (congrArg (·.get? d.site) (retains_ancestors d s).2).trans hnone

theorem traced_membersOfClass (t : Tree) (d : DeclRef) : Traced t (membersOfClass d) :=
  traced_remembered t (.members d) ((traced_ancestors t d).bind fun _ => .pure _)

/-- A query that has the same answer whenever it is asked again and nothing has been forgotten. -/
structure IsRecalled {α : Type} (q : Query α) : Prop where
  retains : ∀ s, Retains s (q s).2
  same : ∀ s s', Retains (q s).2 s' → (q s').1 = (q s).1

namespace IsRecalled

variable {α β γ : Type}

theorem pure (a : α) : IsRecalled (Pure.pure a) := ⟨fun s => .refl s, fun _ _ _ => rfl⟩

theorem bind {q : Query α} {f : α → Query β} (hq : IsRecalled q) (hf : ∀ a, IsRecalled (f a)) :
    IsRecalled (q >>= f) where
  retains s := (hq.retains s).trans ((hf _).retains _)
  same s s' h := by
    rw [bind_apply] at h ⊢
    rw [bind_apply, hq.same s s' (((hf _).retains _).trans h)]
    exact (hf _).same _ _ (h.trans (hq.retains s'))

theorem mapM {f : γ → Query α} (hf : ∀ c, IsRecalled (f c)) (l : List γ) :
    IsRecalled (l.mapM f) := by
  induction l with
  | nil => exact .pure []
  | cons c l ih =>
    rw [List.mapM_cons]
    exact (hf c).bind fun a => ih.bind fun as => .pure (a :: as)

theorem optionBind {x : OptionT Query α} {f : α → OptionT Query β} (hx : IsRecalled x.run)
    (hf : ∀ a, IsRecalled (f a).run) : IsRecalled (x >>= f).run := by
  rw [OptionT.run_bind]
  refine hx.bind fun o => ?_
  cases o with
  | none => exact .pure none
  | some a => exact hf a

theorem optionMapM {f : γ → OptionT Query α} (hf : ∀ c, IsRecalled (f c).run) (l : List γ) :
    IsRecalled (l.mapM f).run := by
  induction l with
  | nil => exact .pure (some [])
  | cons c l ih =>
    rw [List.mapM_cons]
    exact (hf c).optionBind fun a => ih.optionBind fun as => .pure (some (a :: as))

theorem firstAnswer {f : γ → Query (Option α)} (hf : ∀ c, IsRecalled (f c)) (l : List γ) :
    IsRecalled (firstAnswer f l) := by
  induction l with
  | nil => exact .pure none
  | cons c l ih =>
    refine (hf c).bind fun o => ?_
    cases o with
    | none => exact ih
    | some a => exact .pure (some a)

/-- The definition of a type alias is remembered as it is answered. -/
theorem aliasDef (d : DeclRef) : IsRecalled (aliasDef d) where
  retains s := (retains_lookups.aliasDef d s).1
  same s s' h := by
    have hget : (Session.aliasDef d s).2.aliases.get? d.site
        = some (Session.aliasDef d s).1 := by
      rw [aliasDef_eq, remembered_apply]
      split
      · next hfound => exact hfound
      · next hnone =>
        rw [Dict.get?_insertNew, (treeClosed_answers.declaredAlias? d s).aliases, hnone,
          Option.none_or, if_pos (beq_self_eq_true d.site)]
    have hagain : Session.aliasDef d s' = ((Session.aliasDef d s).1, s') :=
      remembered_of_get? (h.aliases _ _ hget)
    rw [hagain]

theorem membersOfClass (d : DeclRef) : IsRecalled (membersOfClass d) where
  retains s := by
    rw [Session.membersOfClass, remembered_apply]
    split
    · exact .refl s
    · refine (retains_ancestors d s).1.trans ⟨fun _ _ ha => ha, fun site a ha => ?_⟩
      rw [bind_apply, Dict.get?_insertNew]
      exact Option.or_eq_some_iff.mpr (.inl ha)
  same s s' h := by
    have hagain : Session.membersOfClass d s' = ((Session.membersOfClass d s).1, s') :=
      remembered_of_get? (h.members _ _ (get?_members_membersOfClass d s))
    rw [hagain]

theorem expandFrom (n : Nat) (seen : List Site) (t : Ty) :
    IsRecalled (env.expandFrom n seen t) := by
  induction n generalizing seen t with
  | zero =>
    unfold TypeEnv.expandFrom
    split
    · split <;> exact .pure _
    · exact .pure _
  | succ n ih =>
    unfold TypeEnv.expandFrom
    split
    · next d args =>
      split
      · exact .pure _
      · refine (aliasDef d).bind fun found => ?_
        cases found with
        | none => exact .pure _
        | some a => exact ih _ _
    · exact .pure _

theorem receiverClassesWithin (depth : Nat) (t : Ty) :
    IsRecalled (receiverClassesWithin depth t).run := by
  unfold Session.receiverClassesWithin
  have hexpand : IsRecalled (monadLift (env.expand t : Query Ty) : OptionT Query Ty).run :=
    (expandFrom _ _ t).bind fun t => .pure (some t)
  refine hexpand.optionBind fun t => ?_
  split
  · exact .pure _
  · exact .pure _
  · split <;> exact .pure _
  · cases depth with
    | zero => exact .pure none
    | succ depth => exact (receiverClassesWithin depth _).optionBind fun ds => .pure _
  · cases depth with
    | zero => exact .pure none
    | succ depth =>
      exact (optionMapM (receiverClassesWithin depth) _).optionBind fun dss => .pure _
  all_goals exact .pure _
termination_by depth

theorem completeMembers (depth : Nat) (t : Ty) :
    IsRecalled (@completeMembers (.atDepth depth) t) := by
  unfold Session.completeMembers receiverClasses
  rw [bounded_atDepth]
  refine bind ((receiverClassesWithin depth t).bind fun ds => .pure _) fun ds => ?_
  exact (mapM (fun d => (membersOfClass d).bind fun cache => .pure _) ds).bind fun lists => .pure _

end IsRecalled

/-! ## Completions and members -/

/-- Completions that say of each name and kind what is found under them. -/
structure OffersFound (cs : List Completion) (found : String → MemberKind → Option MemberDef) :
    Prop where
  distinct : Completion.Distinct cs
  mem_iff : ∀ c, c ∈ cs ↔ ∃ m, found c.name c.kind = some m ∧ Completion.ofMember m = c

/-- The members of classes that a session remembers one after the other. -/
def cachesOf (ds : List DeclRef) : Query (List MemberCache) := ds.mapM membersOfClass

theorem cachesOf_cons (d : DeclRef) (ds : List DeclRef) (s : Session) :
    (cachesOf (d :: ds) s).1
      = (membersOfClass d s).1 :: (cachesOf ds (membersOfClass d s).2).1 := by
  rw [cachesOf, List.mapM_cons]
  rfl

theorem HasBuilt.membersOfClass (h : s.HasBuilt) (d : DeclRef) :
    (∃ cs, (membersOfClass d s).1 = .build cs) ∧ (membersOfClass d s).2.HasBuilt := by
  have hbuilt : (Session.membersOfClass d s).2.HasBuilt := by
    obtain ⟨log, hlog⟩ := traced_membersOfClass BaseModule.tree d s
    exact (hlog.keeps (keptBySteps_hasBuilt _) h).1
  exact ⟨hbuilt d.site _ (get?_members_membersOfClass d s), hbuilt⟩

theorem exists_build_of_mem_cachesOf (hs : s.HasBuilt) (ds : List DeclRef) :
    ∀ cache ∈ (cachesOf ds s).1, ∃ cs, cache = .build cs := by
  induction ds generalizing s with
  | nil => exact fun _ hcache => absurd hcache List.not_mem_nil
  | cons d ds ih =>
    obtain ⟨hbuilt, hs'⟩ := hs.membersOfClass d
    rw [cachesOf_cons]
    exact List.forall_mem_cons.mpr ⟨hbuilt, ih hs'⟩

theorem fst_mapM_completionsOf (ds : List DeclRef) (s : Session) :
    (ds.mapM completionsOf s).1 = (cachesOf ds s).1.map MemberCache.completions := by
  induction ds generalizing s with
  | nil => rfl
  | cons d ds ih =>
    rw [List.mapM_cons, cachesOf_cons, List.map_cons, ← ih]
    rfl

/-- Where the search stops makes no difference to what it finds. -/
theorem fst_firstMember? (name : String) (kind : MemberKind) (ds : List DeclRef) (s : Session) :
    (firstMember? name kind ds s).1
      = (cachesOf ds s).1.findSome? fun cache => (cache.lookup name kind).map (·.member) := by
  induction ds generalizing s with
  | nil => rfl
  | cons d ds ih =>
    rw [cachesOf_cons, List.findSome?_cons, ← ih, firstMember?, firstAnswer, bind_apply]
    have hfound : (memberOfClass? d name kind s).1
        = ((membersOfClass d s).1.lookup name kind).map (·.member) := rfl
    rw [hfound]
    cases (membersOfClass d s).1.lookup name kind <;> rfl

/-- What is found under a name and a kind in a list of caches is what is completed. -/
theorem offersFound_caches {caches : List MemberCache}
    (h : ∀ cache ∈ caches, ∃ cs, cache = .build cs) :
    OffersFound (Completion.addNew [] (caches.map MemberCache.completions).flatten)
      fun name kind => caches.findSome? fun cache => (cache.lookup name kind).map (·.member) := by
  have hdistinct := Completion.distinct_addNew List.Pairwise.nil
    (caches.map MemberCache.completions).flatten
  refine ⟨hdistinct, fun c => ?_⟩
  have hfind : (caches.map MemberCache.completions).flatten.find? c.clashes
      = (caches.findSome? fun cache => (cache.lookup c.name c.kind).map (·.member)).map
        Completion.ofMember := by
    induction caches with
    | nil => rfl
    | cons cache caches ih =>
      obtain ⟨⟨cs, rfl⟩, hrest⟩ := List.forall_mem_cons.mp h
      rw [List.map_cons, List.flatten_cons, List.find?_append,
        ih hrest (Completion.distinct_addNew List.Pairwise.nil _),
        MemberCache.find?_completions_build, List.findSome?_cons]
      cases (MemberCache.build cs).lookup c.name c.kind <;> rfl
  rw [Completion.mem_iff_find? hdistinct, Completion.find?_addNew, List.nil_append, hfind,
    Option.map_eq_some_iff]

theorem traced_receiverClasses (u : Tree) (depth : Nat) (t : Ty) :
    Traced u (@receiverClasses (.atDepth depth) t) := by
  unfold receiverClasses
  rw [bounded_atDepth]
  exact (traced_receiverClassesWithin u depth t).run.bind fun ds => .pure _

theorem traced_completeMembers (u : Tree) (depth : Nat) (t : Ty) :
    Traced u (@completeMembers (.atDepth depth) t) := by
  unfold completeMembers
  refine Traced.bind (n := Query) (traced_receiverClasses u depth t) fun ds => ?_
  exact (Traced.mapM (fun d => (traced_membersOfClass u d).bind fun cache => .pure _) ds).bind
    fun lists => .pure _

/-- Asked of the same session, the completions of a type say what is found in the type. -/
theorem offersFound_completeMembers (hs : s.Queried) (depth : Nat) (t : Ty) :
    OffersFound (@completeMembers (.atDepth depth) t s).1
      fun name kind => (@memberOfType? (.atDepth depth) t name kind s).1 := by
  generalize hds : @receiverClasses (.atDepth depth) t s = ds
  have hbuilt : ds.2.HasBuilt :=
    hds ▸ (hs.query (traced_receiverClasses BaseModule.tree depth t)).hasBuilt
  have hcompleted : (@completeMembers (.atDepth depth) t s).1
      = Completion.addNew [] ((cachesOf ds.1 ds.2).1.map MemberCache.completions).flatten := by
    rw [← fst_mapM_completionsOf, ← hds]
    rfl
  have hfound (name : String) (kind : MemberKind) :
      (@memberOfType? (.atDepth depth) t name kind s).1 =
        (cachesOf ds.1 ds.2).1.findSome? fun cache => (cache.lookup name kind).map (·.member) := by
    rw [← fst_firstMember?, ← hds]
    rfl
  rw [hcompleted]
  simp only [hfound]
  exact offersFound_caches (exists_build_of_mem_cachesOf hbuilt ds.1)

/-- Whatever a session has been used for, and however deep types are followed, the completions of a
type are told apart by name and kind, and they are those under whose name and kind a member is found
in the type, each with the owner of that member: whether the member is looked up in the same session
or in one that has forgotten nothing since then. -/
theorem completeMembers_offersFound (hs : s.Queried) (depth : Nat) (t : Ty) :
    OffersFound (@completeMembers (.atDepth depth) t s).1
        (fun name kind => (@memberOfType? (.atDepth depth) t name kind s).1) ∧
      ∀ s', s'.Queried → Retains (@completeMembers (.atDepth depth) t s).2 s' →
        OffersFound (@completeMembers (.atDepth depth) t s).1
          fun name kind => (@memberOfType? (.atDepth depth) t name kind s').1 := by
  refine ⟨offersFound_completeMembers hs depth t, fun s' hs' hretains => ?_⟩
  rw [← (IsRecalled.completeMembers depth t).same s s' hretains]
  exact offersFound_completeMembers hs' depth t

/-- Of three classes that have a property of the same name, the one that shows it is completed, and
no other one; and so it is still found afterwards. -/
theorem completeMembers_offersFound_figures :
    (new figuresStore).Queried ∧
      (∀ owner, (⟨"area", .property, owner⟩ : Completion) ∈
        (completeMembers (.nullable (.class square [])) (new figuresStore)).1 ↔ owner = "Square") ∧
      OffersFound (completeMembers (.nullable (.class square [])) (new figuresStore)).1
        fun name kind => (memberOfType? (.nullable (.class square [])) name kind
          (completeMembers (.nullable (.class square [])) (new figuresStore)).2).1 := by
  have h := completeMembers_offersFound (.new figuresStore) maxUnfolding
    (.nullable (.class square []))
  have hfound : (memberOfType? (.nullable (.class square [])) "area" .property
      (new figuresStore)).1.map Completion.ofMember = some ⟨"area", .property, "Square"⟩ := by
    decide +kernel
  refine ⟨.new _, fun owner => ?_, h.2 _ ?_ (.refl _)⟩
  · rw [h.1.mem_iff, ← Option.map_eq_some_iff, hfound]
    simp [eq_comm]
  · exact (Queried.new figuresStore).query (traced_completeMembers BaseModule.tree _ _)

end Session

end PklAnalysis
