import PklAnalysis.Proofs.Resolution.SteadyModules

/-!
# Annotations and definitions

The type of an annotation is about the trees that its names lead to.  A table that remembers the
answers of a query about declarations makes no difference if the query is steady and knows the tree
of the declaration in the end: `remembered_spec` says so of any table of a session that is a `Shelf`
for the query.  The definitions of classes and of type aliases are such queries.
-/

namespace PklAnalysis.Session

variable {T : Set Tree}

/-! ## Annotations -/

theorem steady_importTarget? {t : Tree} (ht : Grounded T t) (name : String) :
    Steady T (importTarget? t name) := by
  unfold importTarget?
  split
  · next hfound =>
    exact steady_resolveModule? ht (uriAt?_of_mem_imports (List.mem_of_find?_eq_some hfound))
  · exact .pure .none

theorem steady_qualifiedType? {t : Tree} (ht : Grounded T t) (binding name : String)
    {args : List Ty} (hargs : Grounded T args) :
    Steady T (qualifiedType? t binding name args) := by
  unfold qualifiedType?
  refine (steady_importTarget? ht binding).bind fun U found hU hfound => ?_
  cases found with
  | none => exact .pure .none
  | some m =>
    refine (steady_supermodules hfound.of_some).bind fun V ms hV hms => .pure ?_
    exact .firstExported? (.cons (hfound.of_some.mono hV) hms) name (hargs.mono (hU.trans hV))

theorem steady_simpleType? {t : Tree} (ht : Grounded T t) (name : String) {args : List Ty}
    (hargs : Grounded T args) : Steady T (simpleType? t name args) := by
  unfold simpleType?
  split
  · next found hfound => exact .pure (hfound ▸ ht.typeIn? name hargs)
  · refine (steady_supermodules ht).bind fun U ms hU hms => ?_
    have hinherited := hms.firstExported? name (hargs.mono hU)
    split
    · next found hfound => exact .pure (hfound ▸ hinherited)
    · refine (steady_importTarget? (ht.mono hU) name).bind fun V found hV hfound => ?_
      cases found with
      | some m => exact .pure (.some hfound.of_some.moduleType)
      | none => exact .pure (Grounded.base.typeIn? name (hargs.mono (hU.trans hV)))

theorem steady_namedType {t : Tree} (ht : Grounded T t) (name : String) {args : List Ty}
    (hargs : Grounded T args) : Steady T (namedType t name args) := by
  have hfound : ∀ (U : Set Tree) (found : Option Ty), Grounded U found →
      Steady U (pure (found.getD .unknown) : Query Ty) :=
    fun U found hfound => .pure (hfound.getD .unknown)
  unfold namedType
  simp only
  split
  · exact (steady_qualifiedType? ht _ _ hargs).bind fun U found _ => hfound U found
  · exact (steady_simpleType? ht name hargs).bind fun U found _ => hfound U found

mutual

theorem steady_resolveType {T : Set Tree} {t : Tree} (ht : Grounded T t) (context : Nat)
    (a : TypeExpr) : Steady T (resolveType t context a) := by
  cases a with
  | unknown => exact .pure .unknown
  | nothing => exact .pure .nothing
  | enclosingModule => exact .pure ht.moduleType
  | literal text => exact .pure (.literal text)
  | nullable a =>
    rw [resolveType]
    exact (steady_resolveType ht context a).bind fun U type _ htype => .pure htype.orNull
  | union as =>
    rw [resolveType]
    exact (steady_resolveTypes ht context as).bind fun U types _ htypes => .pure htypes.unionOf
  | function ps r =>
    rw [resolveType]
    refine (steady_resolveTypes ht context ps).bind fun U params hU hparams => ?_
    refine (steady_resolveType (ht.mono hU) context r).bind fun V result hV hresult => ?_
    exact .pure (Grounded.function_iff.mpr ⟨hparams.mono hV, hresult⟩)
  | named name args =>
    rw [resolveType]
    split
    · next param hparam =>
      split at hparam
      · exact .pure (Grounded.typeParam? t context name param hparam)
      · exact nomatch hparam
    · exact (steady_resolveTypes ht context args).bind fun U types hU htypes =>
        steady_namedType (ht.mono hU) name htypes
termination_by structural a

theorem steady_resolveTypes {T : Set Tree} {t : Tree} (ht : Grounded T t) (context : Nat)
    (as : List TypeExpr) : Steady T (resolveTypes t context as) := by
  cases as with
  | nil => exact .pure .nil
  | cons a as =>
    rw [resolveTypes]
    refine (steady_resolveType ht context a).bind fun U type hU htype => ?_
    refine (steady_resolveTypes (ht.mono hU) context as).bind fun V types hV htypes => ?_
    exact .pure (.cons (htype.mono hV) htypes)
termination_by structural as

end

/-! ## What is remembered for places -/

/-- A table of sessions holds answers of a query, and nothing else depends on it. -/
structure Shelf {α : Type} [Grounding α] (table : Session → Dict Site α)
    (store : Session → Dict Site α → Session) (ask : DeclRef → Query α) : Prop where
  recalls : ∀ {W s}, IsCurrent W s → Recalls s (table s) ask
  stores : ∀ {W s t}, IsCurrent W s → Recalls s t ask → IsCurrent W (store s t)
  trees : ∀ s t, (store s t).trees = s.trees
  targets : ∀ s t, (store s t).targets = s.targets
  empty : ∀ W, table (new W) = Dict.empty

/-- After a query about a declaration of the store the tree of the declaration is known. -/
def Visits {α : Type} (d : DeclRef) (q : Query α) : Prop :=
  ∀ W s, W.IsPlain → Grounded W.held d → IsCurrent W s → Grounded (q s).2.known d

theorem Visits.bind {α β : Type} [Grounding α] [Grounding β] {d : DeclRef} {q : Query α}
    {f : α → Query β} (hq : Visits d q) (hsteady : ∀ U, Grounded U d → Steady U q)
    (hf : ∀ U a, Grounded U d → Grounded U a → Steady U (f a)) : Visits d (q >>= f) := by
  intro W s hW hd hs
  obtain ⟨hcurrent, ha⟩ := (hsteady W.held hd).keeps hW hs
  have hrest := hf W.held (q s).1 hd ha W (q s).2 hW subset_rfl hcurrent
  exact (hq W s hW hd hs).mono hrest.grows.known

theorem remembered_apply {α : Type} (site : Site) (table : Session → Dict Site α)
    (store : Session → Dict Site α → Session) (compute : Query α) (s : Session) :
    remembered site table store compute s = match (table s).get? site with
      | some a => (a, s)
      | none => ((compute s).1,
          store (compute s).2 ((table (compute s).2).insertNew site (compute s).1)) := by
  unfold remembered
  rw [bind_apply]
  change (match (table s).get? site with | some a => _ | none => _ : Query α) s = _
  cases (table s).get? site <;> rfl

theorem Recalls.insertNew {α : Type} [Grounding α] {s : Session} {table : Dict Site α}
    {ask : DeclRef → Query α} (h : Recalls s table ask) {d : DeclRef} {a : α}
    (hd : Grounded s.known d) (ha : Grounded s.known a)
    (hask : ∀ V, V.IsPlain → s.Agrees V → (ask d (new V)).1 = a) :
    Recalls s (table.insertNew d.site a) ask := by
  intro site b hb
  rw [Dict.get?_insertNew, Option.or_eq_some_iff] at hb
  rcases hb with hb | ⟨-, hb⟩
  · exact h site b hb
  · split at hb
    · next hsite =>
      rw [← Option.some.inj hb]
      exact ⟨d, beq_iff_eq.mp hsite, hd, ha, hask⟩
    · exact nomatch hb

section Remembered

variable {α : Type} [Grounding α] {table : Session → Dict Site α}
variable {store : Session → Dict Site α → Session} {ask compute : DeclRef → Query α}

theorem Shelf.known (hshelf : Shelf table store ask) (s : Session) (t : Dict Site α) :
    (store s t).known = s.known := by
  rw [Session.known, Session.known, hshelf.trees]

theorem Shelf.leadsAs_iff (hshelf : Shelf table store ask) {s : Session} {t : Dict Site α}
    {V : Store} : (store s t).LeadsAs V ↔ s.LeadsAs V := by
  rw [LeadsAs, LeadsAs, hshelf.targets]

theorem Shelf.agrees (hshelf : Shelf table store ask) {s : Session} {t : Dict Site α} {V : Store}
    (h : (store s t).Agrees V) : s.Agrees V :=
  ⟨hshelf.known s t ▸ h.trees, hshelf.leadsAs_iff.mp h.leads⟩

/-- A remembered answer about a declaration is that of a new session over any store that agrees with
what is known in the end. -/
theorem remembered_spec (hshelf : Shelf table store ask)
    (hask : ∀ d, ask d = remembered d.site table store (compute d))
    (hsteady : ∀ U d, Grounded U d → Steady U (compute d)) (hvisits : ∀ d, Visits d (compute d))
    {W : Store} {s : Session} {d : DeclRef} (hW : W.IsPlain) {T : Set Tree} (hT : T ⊆ W.held)
    (hd : Grounded T d) (hs : IsCurrent W s) :
    SteadyAt W T s (ask d) ∧ Grounded (ask d s).2.known d := by
  have happly := remembered_apply d.site table store (compute d) s
  rw [← hask] at happly
  cases hget : (table s).get? d.site with
  | some a =>
    rw [hget] at happly
    obtain ⟨e, hsite, he, ha, hfresh⟩ := hshelf.recalls hs d.site a hget
    obtain rfl := hW.decl_eq (he.mono hs.known_subset) (hd.mono hT) hsite
    refine ⟨⟨?_, ?_, ?_, ?_, ?_, ?_⟩, ?_⟩ <;> rw [happly]
    · exact hs
    · exact .refl s
    · exact ha.mono Set.subset_union_right
    · exact fun V hV _ hagrees => (hfresh V hV hagrees).symm
    · exact fun hleads => hleads
    · exact fun _ hstands => hstands
    · exact he
  | none =>
    rw [hget] at happly
    -- what is computed is about the trees that are known then, that of the declaration included
    have hknown := hvisits d W s hW (hd.mono hT) hs
    have hown := hsteady T d hd W s hW hT hs
    have hlater := hsteady _ d hknown W s hW hown.current.known_subset hs
    have ha : Grounded (compute d s).2.known (compute d s).1 := by
      have ha := hlater.grounded
      rwa [Set.union_self] at ha
    have hfresh : ∀ V, V.IsPlain → (compute d s).2.Agrees V →
        (ask d (new V)).1 = (compute d s).1 := by
      intro V hV hagrees
      rw [hask, remembered_apply, hshelf.empty]
      exact (hlater.fresh V hV hagrees.trees hagrees).symm
    have hrecalls := (hshelf.recalls hown.current).insertNew hknown ha hfresh
    refine ⟨⟨?_, ?_, ?_, ?_, ?_, ?_⟩, ?_⟩ <;> rw [happly]
    · exact hshelf.stores hown.current hrecalls
    · refine hown.grows.trans (.of_known ?_ (hshelf.targets _ _))
      rw [hshelf.known]
    · rw [hshelf.known]
      exact ha.mono Set.subset_union_right
    · exact fun V hV _ hagrees => (hfresh V hV (hshelf.agrees hagrees)).symm
    · exact fun hleads => hshelf.leadsAs_iff.mpr (hown.leads hleads)
    · intro hTs hstands
      rw [Stands, hshelf.known, hshelf.targets]
      exact hown.stands hTs hstands
    · rw [hshelf.known]
      exact hknown

variable (hshelf : Shelf table store ask)
variable (hask : ∀ d, ask d = remembered d.site table store (compute d))
variable (hsteady : ∀ U d, Grounded U d → Steady U (compute d))
variable (hvisits : ∀ d, Visits d (compute d))
include hshelf hask hsteady hvisits

theorem steady_remembered {d : DeclRef} (hd : Grounded T d) : Steady T (ask d) :=
  fun _ _ hW hT hs => (remembered_spec hshelf hask hsteady hvisits hW hT hd hs).1

theorem visits_remembered (d : DeclRef) : Visits d (ask d) := fun _ _ hW hd hs =>
  (remembered_spec hshelf hask hsteady hvisits hW subset_rfl hd hs).2

end Remembered

/-! ## Definitions -/

theorem steady_superclassOf {t : Tree} (ht : Grounded T t) (n : Nat) (h : ClassHeader) :
    Steady T (superclassOf t n h) := by
  unfold superclassOf
  split
  · exact (steady_resolveType ht n _).map fun U a _ ha => ha.some
  · have htyped : Grounded T (BaseTypes.plain BaseModule.types.typed) :=
      .plainBase (by simp)
    have hany : Grounded T BaseModule.types.anyType := .plainBase (by simp)
    split
    · split
      · exact .pure .none
      · exact .pure hany.some
    · exact .pure htyped.some

theorem steady_moduleSuperclass {t : Tree} (ht : Grounded T t) :
    Steady T (moduleSuperclass t) := by
  unfold moduleSuperclass
  split
  · exact .pure (.plainBase (by simp))
  · next hclause =>
    obtain ⟨n, hn⟩ := exists_uriAt?_clause hclause
    refine (steady_resolveModule? ht hn).bind fun U parent _ hparent => ?_
    cases parent with
    | none => exact .pure .unknown
    | some parent => exact .pure hparent.of_some.moduleType

theorem steady_classAt? {t : Tree} (ht : Grounded T t) {d : DeclRef} (hd : Grounded T d) :
    Steady T (classAt? t d) := by
  unfold classAt?
  split
  · refine (steady_superclassOf ht _ _).bind fun U superclass hU hsuperclass => .pure ?_
    exact .some ⟨hd.mono hU, hsuperclass, (ht.mono hU).membersOf _ _⟩
  · refine (steady_moduleSuperclass ht).bind fun U superclass hU hsuperclass => .pure ?_
    exact .some ⟨hd.mono hU, hsuperclass.some, (ht.mono hU).membersOf _ _⟩
  · exact .pure .none

theorem steady_aliasAt? {t : Tree} (ht : Grounded T t) {d : DeclRef} (hd : Grounded T d) :
    Steady T (aliasAt? t d) := by
  unfold aliasAt?
  split
  · refine (steady_resolveType ht _ _).bind fun U target hU htarget => .pure ?_
    exact .some ⟨hd.mono hU, htarget⟩
  · exact .pure .none

theorem visits_tree? (d : DeclRef) : Visits d (tree? d.site.module) := by
  intro W s hW hd hs
  obtain ⟨t, ht, hdecl⟩ := hd
  have hmem := (hs.tree?_spec hW d.site.module).2.2.2
  have hfound : (tree? d.site.module s).1 = some t := by
    rw [module_of_declOf? hdecl]
    exact hs.tree?_of_mem hW (Store.IsPlain.mem_held ht)
  exact ⟨t, ⟨.inr (hmem t hfound), ht.2⟩, hdecl⟩

/-- What trees say about a declaration is remembered steadily. -/
theorem steady_remembered_at {α : Type} [Grounding α] {table : Session → Dict Site (Option α)}
    {store : Session → Dict Site (Option α) → Session} {ask : DeclRef → Query (Option α)}
    {f : Tree → DeclRef → Query (Option α)} (hshelf : Shelf table store ask)
    (hask : ∀ d, ask d = remembered d.site table store (tree? d.site.module >>= fun
      | some t => f t d
      | none => pure none))
    (hf : ∀ U t d, Grounded U t → Grounded U d → Steady U (f t d)) :
    (∀ T d, Grounded T d → Steady T (ask d)) ∧ ∀ d, Visits d (ask d) := by
  have hrest : ∀ U d (found : Option Tree), Grounded U d → Grounded U found →
      Steady U (match found with | some t => f t d | none => pure none) := by
    intro U d found hd hfound
    cases found with
    | none => exact .pure .none
    | some t => exact hf U t d hfound.of_some hd
  have hsteady : ∀ U d, Grounded U d → Steady U (tree? d.site.module >>= fun
      | some t => f t d
      | none => pure none) :=
    fun U d hd => (steady_tree? hd.covers_module).bind fun V found hV hfound =>
      hrest V d found (hd.mono hV) hfound
  have hvisits : ∀ d, Visits d (tree? d.site.module >>= fun
      | some t => f t d
      | none => pure none) :=
    fun d => (visits_tree? d).bind (fun U hd => steady_tree? hd.covers_module)
      fun U found => hrest U d found
  exact ⟨fun T d hd => steady_remembered hshelf hask hsteady hvisits hd,
    visits_remembered hshelf hask hsteady hvisits⟩

theorem shelf_classes : Shelf (·.classes) (fun s classes => { s with classes }) classDef where
  recalls h := h.classes
  stores h hrecalls := h.recall rfl rfl rfl hrecalls h.aliases h.chains h.members
  trees _ _ := rfl
  targets _ _ := rfl
  empty _ := rfl

theorem shelf_aliases : Shelf (·.aliases) (fun s aliases => { s with aliases }) aliasDef where
  recalls h := h.aliases
  stores h hrecalls := h.recall rfl rfl rfl h.classes hrecalls h.chains h.members
  trees _ _ := rfl
  targets _ _ := rfl
  empty _ := rfl

theorem steady_classDef {d : DeclRef} (hd : Grounded T d) : Steady T (classDef d) :=
  (steady_remembered_at shelf_classes (fun _ => rfl)
    fun _ _ _ ht hd => steady_classAt? ht hd).1 T d hd

theorem visits_classDef (d : DeclRef) : Visits d (classDef d) :=
  (steady_remembered_at shelf_classes (fun _ => rfl)
    fun _ _ _ ht hd => steady_classAt? ht hd).2 d

theorem steady_aliasDef {d : DeclRef} (hd : Grounded T d) : Steady T (aliasDef d) :=
  (steady_remembered_at shelf_aliases (fun _ => rfl)
    fun _ _ _ ht hd => steady_aliasAt? ht hd).1 T d hd

end PklAnalysis.Session
