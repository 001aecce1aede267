import PklAnalysis.Proofs.Resolution.ClimbedChains

/-!
# Members of values of union types

A value of a union type may be of any alternative of it.  What a name means after such a value is
put together from the alternatives: the member is the one that the first of them shows, and the
arguments for the class of the member are those that the first of them below that class gives.
Among classes these are the same alternative.  So the type of an access covers the types that the
other alternatives give to the member only if the one that the first gives to it does
(`Session.covers_accessType_iff`).
-/

namespace PklAnalysis.Session

variable {W : Store} {q : Typing} {t : Tree} {name : String} {kind : MemberKind}

/-! ## Types that end soon enough -/

/-- Taking a type apart takes fewer steps than a number. -/
inductive EndsWithin (W : Store) : Nat → Ty → Prop where
  | step {n : Nat} {type : Ty} (h : ∀ a, (definitions W).ComponentOf a type → EndsWithin W n a) :
    EndsWithin W (n + 1) type

theorem endsWithin_class (d : DeclRef) (args : List Ty) (n : Nat) :
    EndsWithin W (n + 1) (.class d args) := .step fun _ ha => (List.not_mem_nil ha).elim

theorem endsWithin_union {n : Nat} {ms : List Ty} (h : ∀ a ∈ ms, EndsWithin W n a) :
    EndsWithin W (n + 1) (.union ms) := .step h

/-- What has an answer about a type with one step more than about its components, has an answer
about each type within the steps that it takes to take it apart. -/
theorem EndsWithin.succeeds (hW : W.IsPlain) {α : Type} {f : Nat → Ty → OptionT Query α}
    (hstep : ∀ {type : Ty}, Grounded W.held type → ∀ {depth : Nat},
      (∀ a, (definitions W).ComponentOf a type → Succeeds W (f depth a)) →
        Succeeds W (f (depth + 1) type)) {n : Nat} {type : Ty}
    (h : EndsWithin W n type) (htype : Grounded W.held type) : Succeeds W (f n type) := by
  induction h with
  | step _ ih =>
    have hground := grounded_expand hW htype
    exact hstep htype fun a ha => ih a ha (grounded_component hground ha)

/-! ## Alternatives one after the other -/

namespace Answers

variable {α β γ : Type} {l : List γ}

theorem run_mapM {f : γ → OptionT Query α} {g : γ → α}
    (h : ∀ c ∈ l, Answers W (f c).run (some (g c))) :
    Answers W (l.mapM f).run (some (l.map g)) := by
  induction l with
  | nil =>
    rw [List.mapM_nil]
    exact .pure _
  | cons c l ih =>
    obtain ⟨hc, hl⟩ := List.forall_mem_cons.mp h
    rw [List.mapM_cons]
    exact hc.run_bind_some ((ih hl).run_bind_some (.pure _))

theorem run_firstAnswer {f : γ → OptionT Query (Option α)} {g : γ → Option α}
    (h : ∀ c ∈ l, Answers W (f c).run (some (g c))) :
    Answers W (Session.firstAnswer f l).run (some (l.findSome? g)) := by
  induction l with
  | nil => exact .pure _
  | cons c l ih =>
    obtain ⟨hc, hl⟩ := List.forall_mem_cons.mp h
    refine hc.run_bind_some ?_
    rw [List.findSome?_cons]
    cases g c with
    | none => exact ih hl
    | some a => exact .pure _

end Answers

/-- What is found first in some lists one after the other is found first in the first list in which
it is found. -/
theorem findSome?_flatMap {α β γ : Type} {l : List α} {f : α → List β} {found : β → Option γ}
    {g : α → Option γ} (h : ∀ a ∈ l, g a = (f a).findSome? found) :
    (l.flatMap f).findSome? found = l.findSome? g := by
  induction l with
  | nil => rfl
  | cons a l ih =>
    obtain ⟨ha, hl⟩ := List.forall_mem_cons.mp h
    rw [List.flatMap_cons, List.findSome?_append, ih hl, List.findSome?_cons, ha]
    cases (f a).findSome? found <;> rfl

/-- The member that a value of a type shows under a name, by the definitions of a store. -/
def memberOn? (W : Store) (name : String) (kind : MemberKind) (type : Ty) : Option MemberDef :=
  (memberOfType? type name kind (new W)).1

/-- The arguments that a value of a type gives to a class, by the definitions of a store. -/
def argsOn? (W : Store) (owner : DeclRef) (type : Ty) : Option (List Ty) :=
  (ownerArgs? type owner (new W)).1

/-- Within the steps that it takes to take a type apart the classes that it shows are found. -/
theorem EndsWithin.answers_classes (hW : W.IsPlain) {depth : Nat} (hdepth : depth ≤ maxUnfolding)
    {type : Ty} (h : EndsWithin W depth type) (htype : Grounded W.held type) :
    Answers W (receiverClassesWithin depth type).run
      (some (receiverClasses type (new W)).1) := by
  obtain ⟨ds, hds⟩ := h.succeeds (f := receiverClassesWithin) hW
    (fun ht _ => succeeds_receiverClassesWithin hW ht) htype
  rw [receiverClasses_eq hdepth (Prod.ext (hds.eq_new hW) rfl)]
  exact hds

/-- Within the steps that it takes to take a type apart the arguments for a class are found. -/
theorem EndsWithin.answers_args (hW : W.IsPlain) {depth : Nat} (hdepth : depth ≤ maxUnfolding)
    {type : Ty} (h : EndsWithin W depth type) (htype : Grounded W.held type) (owner : DeclRef) :
    Answers W (ownerArgsWithin owner depth type).run (some (argsOn? W owner type)) := by
  obtain ⟨args, hargs⟩ := h.succeeds (f := ownerArgsWithin owner) hW
    (fun ht _ => succeeds_ownerArgsWithin hW ht) htype
  rw [argsOn?, ownerArgs?_eq hdepth (Prod.ext (hargs.eq_new hW) rfl)]
  exact hargs

/-- What is found down to some depth is the answer. -/
theorem Answers.receiverClasses {depth : Nat} (hdepth : depth ≤ maxUnfolding) {type : Ty}
    {ds : List DeclRef} (h : Answers W (receiverClassesWithin depth type).run (some ds)) :
    Answers W (Session.receiverClasses type) ds := by
  intro s hs
  obtain ⟨hds, hs'⟩ := h s hs
  rw [receiverClasses_eq hdepth (Prod.ext hds rfl)]
  exact ⟨rfl, hs'⟩

theorem Answers.ownerArgs? {depth : Nat} (hdepth : depth ≤ maxUnfolding) {type : Ty}
    {owner : DeclRef} {args : Option (List Ty)}
    (h : Answers W (ownerArgsWithin owner depth type).run (some args)) :
    Answers W (Session.ownerArgs? type owner) args := by
  intro s hs
  obtain ⟨hargs, hs'⟩ := h s hs
  rw [ownerArgs?_eq hdepth (Prod.ext hargs rfl)]
  exact ⟨rfl, hs'⟩

theorem answers_firstMember? (hW : W.IsPlain) {ds : List DeclRef} (hds : Grounded W.held ds) :
    Answers W (firstMember? name kind ds)
      (ds.findSome? fun d => (memberOfClass? d name kind (new W)).1) :=
  .firstAnswer fun d hd => .of_steady hW (steady_memberOfClass? (hds d hd) name kind)

theorem memberOn?_eq (hW : W.IsPlain) {type : Ty} (htype : Grounded W.held type) :
    memberOn? W name kind type =
      (receiverClasses type (new W)).1.findSome? fun d =>
        (memberOfClass? d name kind (new W)).1 := by
  have hclasses := Answers.of_steady hW (steady_receiverClasses htype)
  have hground := hclasses.grounded hW (steady_receiverClasses htype)
  exact (hclasses.bind (answers_firstMember? hW hground)).eq_new hW

section Union

variable (hW : W.IsPlain) {ms : List Ty} (hms : Grounded W.held (Ty.union ms)) {depth : Nat}
  (hdepth : depth ≤ maxUnfolding) (hends : EndsWithin W depth (.union ms))
include hW hms hdepth hends

theorem answers_receiverClasses_union :
    Answers W (receiverClasses (.union ms))
      (ms.flatMap fun a => (receiverClasses a (new W)).1) := by
  cases hends with
  | @step depth _ hends =>
    have halternative (a : Ty) (ha : a ∈ ms) :=
      (hends a ha).answers_classes hW (Nat.le_of_succ_le hdepth)
        (Grounded.union_iff.mp hms a ha)
    refine .receiverClasses hdepth ?_
    unfold receiverClassesWithin
    refine (answers_expand hW hms).run_lift.run_bind_some ?_
    exact (Answers.run_mapM halternative).run_bind_some (.pure _)

/-- The first alternative that shows a member shows that of the union. -/
theorem answers_memberOfType?_union :
    Answers W (memberOfType? (.union ms) name kind) (ms.findSome? (memberOn? W name kind)) := by
  have hclasses := answers_receiverClasses_union hW hms hdepth hends
  have hground := hclasses.grounded hW (steady_receiverClasses hms)
  rw [← findSome?_flatMap fun a ha => memberOn?_eq hW (Grounded.union_iff.mp hms a ha)]
  exact hclasses.bind (answers_firstMember? hW hground)

/-- The first alternative below a class gives the arguments that the union gives to it. -/
theorem answers_ownerArgs?_union (owner : DeclRef) :
    Answers W (ownerArgs? (.union ms) owner) (ms.findSome? (argsOn? W owner)) := by
  cases hends with
  | @step depth _ hends =>
    have halternative (a : Ty) (ha : a ∈ ms) :=
      (hends a ha).answers_args hW (Nat.le_of_succ_le hdepth)
        (Grounded.union_iff.mp hms a ha) owner
    refine .ownerArgs? hdepth ?_
    unfold ownerArgsWithin
    refine (answers_expand hW hms).run_lift.run_bind_some ?_
    exact .run_firstAnswer halternative

end Union

/-! ## Types after a receiver -/

/-- The type of what a name means among the members of a value of a type. -/
def typeOnValue (q : Typing) (t : Tree) (name : String) (kind : MemberKind) (type : Ty) :
    Query Ty := do
  match ← onReceiver? t type name kind with
  | none => return .unknown
  | some d => typeOnReceiver q (pure type) d

/-- The type of what a name means on a value of a type, by the definitions of a store. -/
def typeOn (W : Store) (q : Typing) (t : Tree) (name : String) (kind : MemberKind) (type : Ty) :
    Ty :=
  (typeOnValue q t name kind type (new W)).1

/-- The type of a member of a class on a value that gives some arguments to the class. -/
def instantiated (owner : DeclRef) (declared : Ty) : Option (List Ty) → Ty
  | some args => (declared.substitute BaseModule.types owner.site args).erase
  | none => declared.erase

/-- The type of a member, seen from a module, of a value that gives some arguments to the class of
the member. -/
def memberType (W : Store) (q : Typing) (t : Tree) (member : Option MemberDef)
    (args : DeclRef → Option (List Ty)) : Ty :=
  match (member.filter fun m => !m.isLocal || m.site.module = t.id).map Declared.ofMember with
  | none => .unknown
  | some d =>
    let declared := (q.typed d (new W)).1
    match (ownerOfDeclared? d (new W)).1 with
    | none => declared.erase
    | some owner => instantiated owner declared (args owner)

/-- Only the arguments for the class of the member matter. -/
theorem memberType_congr {m : MemberDef} {args args' : DeclRef → Option (List Ty)}
    (h : ∀ owner, (ownerOfDeclared? (Declared.ofMember m) (new W)).1 = some owner →
      args owner = args' owner) :
    memberType W q t (some m) args = memberType W q t (some m) args' := by
  rw [memberType, memberType, Option.filter_some]
  split
  · rfl
  · next d hd =>
    split at hd
    · obtain rfl := Option.some.inj hd
      split
      · rfl
      · next owner howner => rw [h owner howner]
    · cases hd

/-- The type of the member that the first alternative with a member shows, with the arguments that
the first alternative below its class gives to the class. -/
def typeOnFirst (W : Store) (q : Typing) (t : Tree) (name : String) (kind : MemberKind)
    (ms : List Ty) : Ty :=
  memberType W q t (ms.findSome? (memberOn? W name kind)) fun owner =>
    ms.findSome? (argsOn? W owner)

theorem Answers.memberTypeOn {type : Ty} {owner : DeclRef} {args : Option (List Ty)}
    (h : Answers W (Session.ownerArgs? type owner) args) (declared : Ty) :
    Answers W (Session.memberTypeOn type owner declared) (instantiated owner declared args) := by
  refine h.bind ?_
  cases args <;> exact .pure _

theorem answers_typeOnValue (hW : W.IsPlain) (hq : q.IsSteady) {type : Ty}
    (htype : Grounded W.held type) {member : Option MemberDef}
    (hmember : Answers W (memberOfType? type name kind) member)
    {args : DeclRef → Option (List Ty)}
    (hargs : ∀ owner, Answers W (ownerArgs? type owner) (args owner)) :
    Answers W (typeOnValue q t name kind type) (memberType W q t member args) := by
  have hground := hmember.grounded hW (steady_memberOfType? htype name kind)
  have hreceiver : Answers W (onReceiver? t type name kind) _ := hmember.bind (.pure _)
  unfold typeOnValue memberType
  refine hreceiver.bind ?_
  have hfound := grounded_filterMember hground fun m => !m.isLocal || m.site.module = t.id
  generalize Option.map Declared.ofMember _ = found at hfound ⊢
  cases found with
  | none => exact .pure _
  | some d =>
    refine (Answers.of_steady hW (hq.typed hfound.of_some)).bind ?_
    refine (Answers.of_steady hW (steady_ownerOfDeclared? hfound.of_some)).bind ?_
    simp only
    generalize (ownerOfDeclared? d (new W)).1 = owner
    cases owner with
    | none => exact .pure _
    | some owner => exact (Answers.pure type).bind ((hargs owner).memberTypeOn _)

/-- The type on a value of one type, by the member that it shows and the arguments that it gives. -/
theorem typeOn_eq (hW : W.IsPlain) (hq : q.IsSteady) {type : Ty} (htype : Grounded W.held type) :
    typeOn W q t name kind type =
      memberType W q t (memberOn? W name kind type) fun owner => argsOn? W owner type :=
  (answers_typeOnValue hW hq htype (.of_steady hW (steady_memberOfType? htype name kind))
    fun owner => .of_steady hW (steady_ownerArgs? htype owner)).eq_new hW

/-- The type of an access whose receiver has a union type and does not stand for a module. -/
theorem accessType_union (hW : W.IsPlain) (hq : q.IsSteady) (ht : t ∈ W.held) {n receiver : Nat}
    (hchild : t.child? n 0 = some receiver) {ms : List Ty}
    (hreceiver : (q.infer t receiver (new W)).1 = .union ms)
    (hvalue : (afterModule? q t receiver name kind (new W)).1 = none)
    {steps : Nat} (hsteps : steps ≤ maxUnfolding) (hends : EndsWithin W steps (.union ms)) :
    (accessType q t n name kind (new W)).1 = typeOnFirst W q t name kind ms := by
  have hground := hW.grounded_of_mem ht
  have hmodule := Answers.of_steady hW (steady_afterModule? hq hground receiver name kind)
  have htype := Answers.of_steady hW (hq.infer receiver hground)
  rw [hvalue] at hmodule
  rw [hreceiver] at htype
  have hms := htype.grounded hW (hq.infer receiver hground)
  have honValue : Answers W (typeOnValue q t name kind (.union ms)) _ :=
    answers_typeOnValue hW hq hms (answers_memberOfType?_union hW hms hsteps hends)
      (answers_ownerArgs?_union hW hms hsteps hends)
  rw [accessType, hchild]
  exact (hmodule.bind (htype.bind honValue)).eq_new hW

/-! ## Unions of classes -/

/-- What is visible in a chain is declared in one of its classes. -/
theorem exists_of_mem_visible {cs : List ClassDef} {m : MemberDef}
    (h : m ∈ MemberCache.visible cs) : ∃ c ∈ cs, m ∈ c.members := by
  cases cs with
  | nil => cases h
  | cons c rest =>
    rcases List.mem_append.mp h with h | h
    · exact ⟨c, List.mem_cons_self, h⟩
    · obtain ⟨b, hb, hm⟩ := List.mem_flatMap.mp h
      exact ⟨b, List.mem_cons_of_mem c hb, List.mem_of_mem_filter hm⟩

/-- A member that is not local is visible wherever its class is in the chain. -/
theorem mem_visible {cs : List ClassDef} {c : ClassDef} (hc : c ∈ cs) {m : MemberDef}
    (hm : m ∈ c.members) (hlocal : m.isLocal = false) : m ∈ MemberCache.visible cs := by
  cases cs with
  | nil => cases hc
  | cons b rest =>
    refine List.mem_append.mpr ?_
    rcases List.mem_cons.mp hc with rfl | hc
    · exact .inl hm
    · refine .inr (List.mem_flatMap.mpr ⟨c, hc, List.mem_filter.mpr ⟨hm, ?_⟩⟩)
      rw [hlocal]
      rfl

section Classes

variable (hW : W.IsPlain) {d : DeclRef} {args : List Ty}
  (hd : Grounded W.held (Ty.class d args))
include hW hd

theorem memberOn?_class : memberOn? W name kind (.class d args) =
    MemberCache.first? name kind (MemberCache.visible (chainOf W d)) := by
  have hdecl := (Grounded.class_iff.mp hd).1
  have hclasses : Answers W (receiverClasses (.class d args)) [d] := by
    refine .receiverClasses (Nat.zero_le _) ?_
    unfold receiverClassesWithin
    exact (answers_expand hW hd).run_lift.run_bind_some (.pure _)
  have hask : ∀ d, membersOfClass d = remembered d.site (·.members)
      (fun s members => { s with members })
      (do return MemberCache.build (← ancestors d).classes) := fun _ => rfl
  have hmembers : Answers W (membersOfClass d) (MemberCache.build (chainOf W d)) :=
    .remembered shelf_members hask hW (steady_membersOfClass hdecl)
      ((Answers.of_steady hW (steady_ancestors hdecl)).bind (.pure _))
  have hmember : Answers W (memberOfClass? d name kind)
      (MemberCache.first? name kind (MemberCache.visible (chainOf W d))) := by
    rw [← MemberCache.lookup_build]
    exact hmembers.bind (.pure _)
  rw [memberOn?_eq hW hd, hclasses.eq_new hW, List.findSome?_singleton, hmember.eq_new hW]

theorem argsOn?_class (owner : DeclRef) : argsOn? W owner (.class d args) =
    (definitions W).asSupertype? (.class d args) owner := by
  have hargs : Answers W (ownerArgs? (.class d args) owner)
      ((definitions W).asSupertype? (.class d args) owner : Option (List Ty)) := by
    refine .ownerArgs? (Nat.zero_le _) ?_
    unfold ownerArgsWithin
    exact (answers_expand hW hd).run_lift.run_bind_some (answers_asSupertype? hW hd owner).run_lift
  exact hargs.eq_new hW

/-- Where a class is seen as another one it shows the members of that one. -/
theorem isSome_memberOn?_of_argsOn? (hfixed : HasFixedSuperclasses W) {e : ClassDef}
    (he : IsDefined W e) {m : MemberDef} (hm : m ∈ e.members) (hlocal : m.isLocal = false)
    (hseen : (argsOn? W e.decl (.class d args)).isSome) :
    (memberOn? W m.name m.kind (.class d args)).isSome := by
  have hdecl := (Grounded.class_iff.mp hd).1
  rw [argsOn?_class hW hd] at hseen
  have hmem := mem_visible ((isSome_asSupertype?_iff hW hdecl hfixed he args).mp hseen) hm hlocal
  rw [memberOn?_class hW hd]
  exact List.find?_isSome.mpr ⟨m, hmem, by simp⟩

/-- A class is seen as the one that declares a member that it shows. -/
theorem exists_of_memberOn? (hfixed : HasFixedSuperclasses W) {m : MemberDef}
    (hm : memberOn? W name kind (.class d args) = some m) :
    ∃ e, IsDefined W e ∧ m ∈ e.members ∧ (argsOn? W e.decl (.class d args)).isSome := by
  have hdecl := (Grounded.class_iff.mp hd).1
  rw [memberOn?_class hW hd] at hm
  obtain ⟨e, he, hmem⟩ := exists_of_mem_visible (List.mem_of_find?_eq_some hm)
  have hdefined := isDefined_of_mem_chainOf hW hdecl e he
  refine ⟨e, hdefined, hmem, ?_⟩
  rw [argsOn?_class hW hd]
  exact (isSome_asSupertype?_iff hW hdecl hfixed hdefined args).mpr he

end Classes

/-- The class of a member is the one that declares it. -/
theorem ownerOfDeclared?_eq (hW : W.IsPlain) (hpre : ∀ t ∈ W.held, t.IsPreOrder) {c : ClassDef}
    (hc : IsDefined W c) {m : MemberDef} (hm : m ∈ c.members) :
    (ownerOfDeclared? (Declared.ofMember m) (new W)).1 = some c.decl := by
  obtain ⟨t, ht, -, hmembers, howner⟩ := hc.exists_tree hW
  obtain ⟨hmodule, -, -⟩ := child_of_mem_membersOf (hmembers ▸ hm)
  have htree : Answers W (tree? (Declared.ofMember m).site.module) (some t) := by
    change Answers W (tree? m.site.module) (some t)
    rw [hmodule]
    exact answers_tree?_of_mem hW ht
  have hanswer : Answers W (ownerOfDeclared? (Declared.ofMember m)) (ownerOf? t m.site.node) :=
    htree.bind (.pure _)
  exact (hanswer.eq_new hW).trans (howner (hpre t ht) m hm)

/-- A class is the first alternative that has a member, there are only classes before it, and the
member is not local. -/
structure IsFirstShowing (W : Store) (name : String) (kind : MemberKind) (ms : List Ty)
    (d : DeclRef) (args : List Ty) : Prop where
  split : ∃ before after, ms = before ++ .class d args :: after ∧
    (∀ b ∈ before, ∃ e given, b = .class e given) ∧ ∀ b ∈ before, memberOn? W name kind b = none
  shown : ∃ m, memberOn? W name kind (.class d args) = some m ∧ m.isLocal = false

/-- The first class that has a member gives it its type, for no class before it is seen as the one
that declares the member. -/
theorem IsFirstShowing.typeOnFirst_eq {ms : List Ty} {d : DeclRef} {args : List Ty}
    (h : IsFirstShowing W name kind ms d args) (hW : W.IsPlain)
    (hpre : ∀ t ∈ W.held, t.IsPreOrder) (hfixed : HasFixedSuperclasses W) (hq : q.IsSteady)
    (hground : Grounded W.held (Ty.union ms)) :
    typeOnFirst W q t name kind ms = typeOn W q t name kind (.class d args) := by
  obtain ⟨⟨before, after, rfl, hclasses, hnone⟩, m, hm, hlocal⟩ := h
  have hms := Grounded.union_iff.mp hground
  have hd := hms (.class d args) (by simp)
  obtain ⟨e, he, hmem, hargs⟩ := exists_of_memberOn? hW hd hfixed hm
  have hname : m.name = name ∧ m.kind = kind := by
    rw [memberOn?_class hW hd] at hm
    exact ⟨MemberCache.name_of_first? hm, MemberCache.kind_of_first? hm⟩
  obtain ⟨rfl, rfl⟩ := hname
  have hmember : (before ++ .class d args :: after).findSome? (memberOn? W m.name m.kind) =
      some m := by
    rw [List.findSome?_append, List.findSome?_eq_none_iff.mpr hnone, Option.none_or,
      List.findSome?_cons, hm]
  -- no class before is seen as that of the member, since it would show the member
  have hbefore : before.findSome? (argsOn? W e.decl) = none := by
    refine List.findSome?_eq_none_iff.mpr fun b hb => ?_
    obtain ⟨c, given, rfl⟩ := hclasses b hb
    by_contra hsome
    have hshown := isSome_memberOn?_of_argsOn? hW (hms _ (by simp [hb])) hfixed he hmem hlocal
      (Option.isSome_iff_ne_none.mpr hsome)
    rw [hnone _ hb] at hshown
    cases hshown
  have hfirst : (before ++ .class d args :: after).findSome? (argsOn? W e.decl) =
      argsOn? W e.decl (.class d args) := by
    obtain ⟨given, hgiven⟩ := Option.isSome_iff_exists.mp hargs
    rw [List.findSome?_append, hbefore, Option.none_or, List.findSome?_cons, hgiven]
  rw [typeOn_eq hW hq hd, typeOnFirst, hmember, hm]
  refine memberType_congr fun owner howner => ?_
  rw [ownerOfDeclared?_eq hW hpre he hmem] at howner
  exact Option.some.inj howner ▸ hfirst

/-! ## What an access covers -/

/-- A type is above all the types that the classes among some alternatives give to a member that
they have. -/
def Covers (W : Store) (q : Typing) (t : Tree) (name : String) (kind : MemberKind) (ms : List Ty)
    (type : Ty) : Prop :=
  ∀ d args, .class d args ∈ ms → (memberOn? W name kind (.class d args)).isSome →
    (definitions W).isSubtype (typeOn W q t name kind (.class d args)) type = true

/-- The type of an access covers the alternatives of the receiver exactly if this is true of the
type of the member of the first one that has it, with the arguments of the first one below the class
of the member.  If a class is the first one that has it, that is the type on values of this
class. -/
theorem covers_accessType_iff (hW : W.IsPlain) (ht : t ∈ W.held) {depth : Nat}
    {inProgress : List Site} {n receiver : Nat} (hchild : t.child? n 0 = some receiver)
    {ms : List Ty}
    (hreceiver : ((typingWithin depth inProgress).infer t receiver (new W)).1 = .union ms)
    (hvalue :
      (afterModule? (typingWithin depth inProgress) t receiver name kind (new W)).1 = none)
    {steps : Nat} (hsteps : steps ≤ maxUnfolding) (hends : EndsWithin W steps (.union ms)) :
    let q := typingWithin depth inProgress
    let type := (accessType q t n name kind (new W)).1
    (Covers W q t name kind ms type ↔
        Covers W q t name kind ms (typeOnFirst W q t name kind ms)) ∧
      ∀ d args, IsFirstShowing W name kind ms d args →
        (∀ id t, W.tree? id = some t → t.IsPreOrder) → HasFixedSuperclasses W →
        (Covers W q t name kind ms type ↔
          Covers W q t name kind ms (typeOn W q t name kind (.class d args))) := by
  intro q type
  have hq : q.IsSteady := isSteady_typingWithin depth inProgress
  have htype : type = typeOnFirst W q t name kind ms :=
    accessType_union hW hq ht hchild hreceiver hvalue hsteps hends
  rw [htype]
  refine ⟨Iff.rfl, fun d args hfirst hpre hfixed => ?_⟩
  have hpreOrder : ∀ t ∈ W.held, t.IsPreOrder := by
    rintro t (rfl | ht)
    · exact Source.Module.isPreOrder_treeAs _ _ _
    · exact hpre t.id t ht
  have hground := hq.infer receiver (hW.grounded_of_mem ht)
  have hms := (Answers.of_steady hW hground).grounded hW hground
  rw [hreceiver] at hms
  rw [hfirst.typeOnFirst_eq hW hpreOrder hfixed hq hms]

/-! ## Classes with a property of the same name -/

/-- A module with three classes that have a property of the same name and one that has not, choices
between some of them and uses of the property of these. -/
def scales : Source.Module :=
  let class_ (name : String) (properties : List Source.Property) : Source.Class :=
    ⟨name, [], none, [], properties, [], none⟩
  let unit (type : String) : Source.Property :=
    ⟨"unit", some (.simple type), [], none, none, none⟩
  let choice (name : String) (classes : List String) : Source.Property :=
    ⟨name, some (.union (classes.map .simple)), [], none, none, none⟩
  let use (name receiver : String) : Source.Property :=
    ⟨name, none, [], some (.access (.ident receiver) "unit" false), none, none⟩
  { bareModule "file:///w/m.pkl" with
    classes := [class_ "Blank" [], class_ "Gauge" [unit "Number"], class_ "Dial" [unit "Int"],
      class_ "Label" [unit "String"]]
    properties := [choice "reading" ["Blank", "Gauge", "Dial"], choice "tag" ["Dial", "Label"],
      use "a" "reading", use "b" "tag"] }

def scalesTree : Tree := scales.treeAs (Store.idOf scales.uri) 1

def scalesStore : Store := Store.ofSources default .none [scales]

theorem isPlain_scalesStore : scalesStore.IsPlain :=
  Store.isPlain_ofSources ProjectIndex.manifestIn?_none (by decide)

theorem scalesTree_mem_held : scalesTree ∈ scalesStore.held :=
  .inr (Store.tree?_ofSources_singleton scales)

theorem hasFixedSuperclasses_scalesStore : HasFixedSuperclasses scalesStore :=
  hasFixedSuperclasses_of_written isPlain_scalesStore (by decide +kernel)

/-- A class of the module. -/
def scale (node : Nat) (name : String) : DeclRef := ⟨⟨scalesTree.id, node⟩, name⟩

/-- What `reading` may be. -/
def readings : List Ty :=
  [.class (scale 1 "Blank") [], .class (scale 2 "Gauge") [], .class (scale 4 "Dial") []]

theorem isFirstShowing_gauge :
    IsFirstShowing scalesStore "unit" .property readings (scale 2 "Gauge") [] where
  split := ⟨[.class (scale 1 "Blank") []], [.class (scale 4 "Dial") []], rfl,
    List.forall_mem_singleton.mpr ⟨_, _, rfl⟩, by decide +kernel⟩
  shown := by
    have hshown : (memberOn? scalesStore "unit" .property (.class (scale 2 "Gauge") [])).map
        (·.isLocal) = some false := by
      decide +kernel
    exact Option.map_eq_some_iff.mp hshown

/-- The type of an access covers the alternatives if the first one that has the member gives the
widest type to it. -/
theorem covers_accessType_iff_readings :
    Covers scalesStore (typingWithin 63 []) scalesTree "unit" .property readings
      (accessType (typingWithin 63 []) scalesTree 11 "unit" .property (new scalesStore)).1 := by
  have hends : EndsWithin scalesStore 2 (.union readings) := by
    refine endsWithin_union ?_
    simp [readings, endsWithin_class _ _ 0]
  have hcovers := (covers_accessType_iff isPlain_scalesStore scalesTree_mem_held
    (show scalesTree.child? 11 0 = some 12 from rfl)
    (show ((typingWithin 63 []).infer scalesTree 12 (new scalesStore)).1 = .union readings by
      decide +kernel)
    (show (afterModule? (typingWithin 63 []) scalesTree 12 "unit" .property
      (new scalesStore)).1 = none by decide +kernel) (by decide) hends).2
    (scale 2 "Gauge") [] isFirstShowing_gauge Store.isPreOrder_ofSources
    hasFixedSuperclasses_scalesStore
  refine hcovers.mpr fun d args hd hshown => ?_
  have hbelow : ∀ a ∈ readings, (memberOn? scalesStore "unit" .property a).isSome →
      @Eq Bool ((definitions scalesStore).isSubtype
        (typeOn scalesStore (typingWithin 63 []) scalesTree "unit" .property a)
        (typeOn scalesStore (typingWithin 63 []) scalesTree "unit" .property
          (.class (scale 2 "Gauge") []))) true := by
    decide +kernel
  exact hbelow _ hd hshown

/-- The type of an access may leave out what a later alternative gives to the member. -/
theorem not_forall_covers :
    ¬∀ (W : Store) (t : Tree) (n receiver : Nat) (name : String) (ms : List Ty), W.IsPlain →
      t ∈ W.held → t.kind? n = some (.access name false) → t.child? n 0 = some receiver →
      (typeOf t receiver (new W)).1 = .union ms →
      Covers W typing t name .property ms (typeOf t n (new W)).1 := by
  intro h
  have hcovers := h scalesStore scalesTree 14 15 "unit"
    [.class (scale 4 "Dial") [], .class (scale 6 "Label") []] isPlain_scalesStore
    scalesTree_mem_held (by decide +kernel) (by decide +kernel) (by decide +kernel)
  have hlabel := hcovers (scale 6 "Label") [] (List.mem_cons_of_mem _ List.mem_cons_self)
    (by decide +kernel)
  have hnot : @Eq Bool ((definitions scalesStore).isSubtype
      (typeOn scalesStore typing scalesTree "unit" .property (.class (scale 6 "Label") []))
      (typeOf scalesTree 14 (new scalesStore)).1) false := by
    decide +kernel
  exact Bool.false_ne_true (hnot.symm.trans hlabel)

end PklAnalysis.Session
