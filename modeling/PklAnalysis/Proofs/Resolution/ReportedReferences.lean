import PklAnalysis.Proofs.Resolution.Findings
import PklAnalysis.Proofs.Resolution.OpenAncestors

/-!
# References that are reported

A reference that a check of a module reports has no receiver with an unknown ancestor, exactly if no
object body around it shows a class with an unknown ancestor and the superclasses of no receiver end
in an alias that stands for the unknown type.
-/

namespace PklAnalysis

/-- The node and the name of an unresolved reference. -/
def Diagnostic.reference? (d : Diagnostic) : Option (Nat × String) :=
  match d.finding with
  | .unresolvedReference name => some (d.node, name)
  | .module _ | .circularModule _ | .circularClass _ | .typeMismatch .. => none

namespace Session

variable {W : Store} {t : Tree}

/-! ## Receivers -/

/-- The classes whose members the value of a node shows. -/
def valueClasses (t : Tree) (n : Nat) : Query (List DeclRef) := do
  receiverClasses (← typeOf t n)

/-- The module to which the import at a node leads, as a class. -/
def importedClasses (t : Tree) (n : Nat) : Query (List DeclRef) :=
  match t.kind? n with
  | some (.importClause i) => return ((← resolveModule? t i.uri).map moduleDecl).toList
  | _ => return []

/-- The classes whose members a receiver shows: the module for a name that an import binds, and the
classes of its type otherwise. -/
def explicitClasses (t : Tree) (receiver : Nat) : Query (List DeclRef) := do
  let found ← resolve t receiver
  match found.filter fun d => d.kind = .import with
  | some d => importedClasses t d.site.node
  | none => valueClasses t receiver

/-- An object body around a node shows a class. -/
def IsShownAround (W : Store) (t : Tree) (n : Nat) (d : DeclRef) : Prop :=
  ∃ body ∈ t.ancestors n, t.kind? body = some .objectBody ∧
    d ∈ (valueClasses t body (new W)).1

/-- A class or the module is around a node. -/
def Encloses (t : Tree) (n : Nat) (d : DeclRef) : Prop :=
  d = moduleDecl t ∨
    ∃ scope ∈ t.ancestors n, (∃ h, t.kind? scope = some (.class h)) ∧ declOf? t scope = some d

/-- A class may have the member that a reference means: it is around the reference or shown by an
object body there, or it is shown by the receiver if the reference has one. -/
def IsReceiver (W : Store) (t : Tree) (n : Nat) (d : DeclRef) : Bool → Prop
  | true => ∃ receiver, t.child? n 0 = some receiver ∧ d ∈ (explicitClasses t receiver (new W)).1
  | false => IsShownAround W t n d ∨ Encloses t n d

/-! ## References that are not excused -/

/-- What is so of no element of a list is so of none of them on its own. -/
theorem Answers.of_anyM (hW : W.IsPlain) {γ : Type} {f : γ → Query Bool} {l : List γ}
    (hf : ∀ c ∈ l, Steady W.held (f c)) (h : Answers W (l.anyM f) false) :
    ∀ c ∈ l, Answers W (f c) false := by
  induction l with
  | nil => exact List.forall_mem_nil _
  | cons c l ih =>
    obtain ⟨hc, hl⟩ := List.forall_mem_cons.mp hf
    have hfirst := Answers.of_steady hW hc
    rw [List.anyM] at h
    cases hanswer : (f c (new W)).1 with
    | true =>
      rw [hanswer] at hfirst
      have htrue := (h.of_bind hW hfirst (.pure trivial)).eq_new hW
      cases (show true = false from htrue)
    | false =>
      rw [hanswer] at hfirst
      exact List.forall_mem_cons.mpr ⟨hfirst, ih hl (h.of_bind hW hfirst (.anyM hl))⟩

theorem steady_valueClasses {T : Set Tree} (ht : Grounded T t) (n : Nat) :
    Steady T (valueClasses t n) :=
  (steady_typeOf ht n).bind fun _ _ _ htype => steady_receiverClasses htype

/-- The classes of a value that is not open have known ancestors. -/
theorem answers_of_not_isOpenValue (hW : W.IsPlain) (ht : Grounded W.held t) {n : Nat}
    (h : Answers W (typeOf t n >>= isOpenType) false) {d : DeclRef}
    (hd : d ∈ (valueClasses t n (new W)).1) : Answers W (hasUnknownAncestor d) false := by
  have htype := Answers.of_steady hW (steady_typeOf ht n)
  have hground := htype.grounded hW (steady_typeOf ht n)
  have hclosed := h.of_bind hW htype (steady_isOpenType hground)
  refine hasUnknownAncestor_of_not_isOpenType hW hground hclosed ?_
  have hclasses : Answers W (valueClasses t n) _ :=
    htype.bind (.of_steady hW (steady_receiverClasses hground))
  exact hclasses.eq_new hW ▸ hd

/-- The module to which an import leads that is not open has known ancestors. -/
theorem answers_of_not_isOpenImport (hW : W.IsPlain) (ht : Grounded W.held t) {n : Nat}
    (h : Answers W (isOpenImport t n) false) :
    ∃ ds, Answers W (importedClasses t n) ds ∧
      ∀ d ∈ ds, Answers W (hasUnknownAncestor d) false := by
  have hopen (h : Answers W (pure true) false) : False :=
    nomatch (show true = false from h.eq_new hW)
  rw [isOpenImport] at h
  rw [importedClasses]
  cases hkind : t.kind? n with
  | none =>
    rw [hkind] at h
    exact (hopen h).elim
  | some kind =>
    rw [hkind] at h
    cases kind with
    | importClause i =>
      have huri : uriAt? t n = some i.uri := by rw [uriAt?, hkind]
      have hfound := Answers.of_steady hW (steady_resolveModule? ht huri)
      have hground := hfound.grounded hW (steady_resolveModule? ht huri)
      refine ⟨_, hfound.bind (.pure _), ?_⟩
      cases hm : (resolveModule? t i.uri (new W)).1 with
      | none => exact List.forall_mem_nil _
      | some m =>
        rw [hm] at hfound hground
        have hclosed := h.of_bind hW hfound (steady_hasUnknownAncestor hground.of_some.moduleDecl)
        exact List.forall_mem_singleton.mpr hclosed
    | _ => exact (hopen h).elim

/-- The classes of a receiver that is not open have known ancestors. -/
theorem answers_of_not_isOpenReceiver (hW : W.IsPlain) (ht : Grounded W.held t) {receiver : Nat}
    (h : Answers W (isOpenReceiver t receiver) false) {d : DeclRef}
    (hd : d ∈ (explicitClasses t receiver (new W)).1) : Answers W (hasUnknownAncestor d) false := by
  have hfound := Answers.of_steady hW (steady_resolve ht receiver)
  generalize (resolve t receiver (new W)).1 = found at hfound
  have hopen : Answers W (match found.filter fun d => d.kind = .import with
      | some d => isOpenImport t d.site.node
      | none => typeOf t receiver >>= isOpenType) false := by
    refine h.of_bind hW hfound ?_
    split
    · exact steady_isOpenImport ht _
    · exact (steady_typeOf ht receiver).bind fun U type _ htype => steady_isOpenType htype
  have hclasses {ds : List DeclRef} (hds : Answers W (match
      found.filter fun d => d.kind = .import with
      | some d => importedClasses t d.site.node
      | none => valueClasses t receiver) ds) : d ∈ ds := by
    have hanswer : Answers W (explicitClasses t receiver) ds := hfound.bind hds
    exact hanswer.eq_new hW ▸ hd
  cases himport : found.filter fun d => d.kind = .import with
  | some binding =>
    rw [himport] at hopen hclasses
    obtain ⟨ds, hds, hall⟩ := answers_of_not_isOpenImport hW ht hopen
    exact hall d (hclasses hds)
  | none =>
    rw [himport] at hopen hclasses
    refine answers_of_not_isOpenValue hW ht hopen ?_
    exact hclasses (.of_steady hW (steady_valueClasses ht receiver))

/-- All receivers of a reference that is not excused have known ancestors, but for those that object
bodies around it show. -/
theorem answers_of_not_isExcused (hW : W.IsPlain) (ht : Grounded W.held t) {n : Nat}
    {hasReceiver : Bool} (h : Answers W (isExcused t n hasReceiver) false) {d : DeclRef}
    (hd : IsReceiver W t n d hasReceiver) :
    (hasReceiver = false ∧ IsShownAround W t n d) ∨ Answers W (hasUnknownAncestor d) false := by
  cases hasReceiver with
  | true =>
    obtain ⟨receiver, hreceiver, hd⟩ := hd
    refine .inr (answers_of_not_isOpenReceiver hW ht ?_ hd)
    simpa only [isExcused, if_true, hreceiver] using h
  | false =>
    rcases hd with hshown | hencloses
    · exact .inl ⟨rfl, hshown⟩
    have hscopes : ∀ scope ∈ t.ancestors n, Steady W.held (isOpenScope t scope) :=
      fun scope _ => steady_isOpenScope ht scope
    have hany := Answers.of_steady hW (Steady.anyM hscopes)
    change Answers W (hasOpenScope t n) false at h
    cases hanswer : ((t.ancestors n).anyM (isOpenScope t) (new W)).1 with
    | true =>
      rw [hanswer] at hany
      exact nomatch (show true = false from (h.of_bind hW hany (.pure trivial)).eq_new hW)
    | false =>
      rw [hanswer] at hany
      refine .inr ?_
      rcases hencloses with rfl | ⟨scope, hscope, ⟨header, hkind⟩, hdecl⟩
      · exact h.of_bind hW hany (steady_hasUnknownAncestor ht.moduleDecl)
      · have hclosed := Answers.of_anyM hW hscopes hany scope hscope
        simpa only [isOpenScope, hkind, hdecl] using hclosed

/-! ## Checks -/

theorem isFaithful_beforeCycles (hW : W.IsPlain) (ht : Grounded W.held t) (options : CheckOptions) :
    IsFaithful W (beforeCycles t options (new W)) := by
  have huris : Steady W.held (findingsAt t (checkUri t)) := steady_findingsAt (steady_checkUri ht)
  have hadopted := (Answers.of_steady hW (steady_adopt ht) _ (isFaithful_new hW)).2
  exact (Answers.of_steady hW (steady_checkIf huris options.moduleUris) _ hadopted).2

theorem isFaithful_beforeReferences (hW : W.IsPlain) (ht : Grounded W.held t)
    (options : CheckOptions) : IsFaithful W (beforeReferences t options (new W)) :=
  (Answers.of_steady hW (steady_checkIf (steady_checkCycles ht) options.circularInheritance) _
    (isFaithful_beforeCycles hW ht options)).2

/-- The unresolved references that a check of a module reports. -/
def reportedReferences (ds : List Diagnostic) : List (Nat × String) :=
  ds.filterMap Diagnostic.reference?

theorem kind_of_reference? {d : Diagnostic} {r : Nat × String} (h : d.reference? = some r) :
    d.finding.kind = .reference := by
  unfold Diagnostic.reference? at h
  split at h
  · next hfinding => rw [hfinding]; rfl
  all_goals cases h

/-- An unresolved reference that a check of a module reports is found by the check of a reference,
in a session that remembers nothing wrong. -/
theorem exists_checkReference (hW : W.IsPlain) (ht : Grounded W.held t) {options : CheckOptions}
    {r : Nat × String} (h : r ∈ reportedReferences (checkModule t options (new W)).1) :
    ∃ n s d, IsFaithful W s ∧ (checkReference t n s).1 = some d ∧ d.reference? = some r := by
  obtain ⟨d, hd, hr⟩ := List.mem_filterMap.mp h
  obtain ⟨-, hd⟩ := (mem_checkModule_reference (kind_of_reference? hr)).mp hd
  have hkeep {n : Nat} {s : Session} (hs : IsFaithful W s) : IsFaithful W (checkReference t n s).2 :=
    (Answers.of_steady hW (steady_checkReference ht n) s hs).2
  obtain ⟨n, s, hs, hfound⟩ := exists_of_mem_findingsAt (fun n s hs => hkeep hs)
    (isFaithful_beforeReferences hW ht options) hd
  exact ⟨n, s, d, hs, hfound, hr⟩

/-- What the check of a reference reports stands at its node and is not excused. -/
theorem answers_isExcused_of_checkReference (hW : W.IsPlain) (ht : Grounded W.held t) {m n : Nat}
    {name : String} {s : Session} {d : Diagnostic} (hs : IsFaithful W s)
    (h : (checkReference t m s).1 = some d) (hd : d.reference? = some (n, name)) :
    ∃ hasReceiver, referenceAt? t n = some (name, hasReceiver) ∧
      Answers W (isExcused t n hasReceiver) false := by
  cases href : referenceAt? t m with
  | none =>
    rw [checkReference, href] at h
    exact nomatch h
  | some reference =>
    obtain ⟨found, hasReceiver⟩ := reference
    have hresolved := (Answers.of_steady hW (steady_resolve ht m) s hs).2
    have hexcused := Answers.of_steady hW (steady_isExcused ht m hasReceiver)
    have hanswer := (hexcused _ hresolved).1
    rw [checkReference, href] at h
    simp only at h
    rw [bind_apply] at h
    split at h
    · exact nomatch h
    · rw [bind_apply, hanswer] at h
      cases hopen : (isExcused t m hasReceiver (new W)).1 with
      | true =>
        rw [hopen] at h
        exact nomatch h
      | false =>
        rw [hopen] at h hexcused
        obtain rfl : Diagnostic.atNode t m (.unresolvedReference found) = d := Option.some.inj h
        obtain ⟨rfl, rfl⟩ : m = n ∧ found = name := Prod.mk.inj (Option.some.inj hd)
        exact ⟨hasReceiver, href, hexcused⟩

/-! ## Reported references -/

/-- No receiver of a reported reference has superclasses that cannot be known, exactly if this is so
of the classes that object bodies around the reference show, and the superclasses of no receiver end
in an alias that stands for the unknown type. -/
theorem hasOpenChain_receiver_iff (hW : W.IsPlain) (ht : W.tree? t.id = some t)
    {options : CheckOptions} {n : Nat} {name : String}
    (h : (n, name) ∈ reportedReferences (checkModule t options (new W)).1) :
    ∃ hasReceiver, referenceAt? t n = some (name, hasReceiver) ∧
      ((∀ d, IsReceiver W t n d hasReceiver → (hasOpenChain d (new W)).1 = false) ↔
        (hasReceiver = false → ∀ d, IsShownAround W t n d →
          (hasOpenChain d (new W)).1 = false) ∧
        ∀ d, IsReceiver W t n d hasReceiver → (endsInUnknownAlias d (new W)).1 = false) := by
  have hground : Grounded W.held t := hW.grounded_of_mem (.inr ht)
  obtain ⟨m, s, found, hs, hfound, hd⟩ := exists_checkReference hW hground h
  obtain ⟨hasReceiver, href, hexcused⟩ :=
    answers_isExcused_of_checkReference hW hground hs hfound hd
  refine ⟨hasReceiver, href, fun hclosed => ⟨?_, fun d hd => ?_⟩, ?_⟩
  · rintro rfl d hshown
    exact hclosed d (.inl hshown)
  · have hchain := hclosed d hd
    rw [hasOpenChain_eq, Bool.or_eq_false_iff] at hchain
    exact hchain.2
  · rintro ⟨haround, halias⟩ d hd
    rcases answers_of_not_isExcused hW hground hexcused hd with ⟨hnone, hshown⟩ | hknown
    · exact haround hnone d hshown
    · rw [hasOpenChain_eq, hknown.eq_new hW, halias d hd]
      rfl

/-! ## Objects of two classes -/

/-- A module with a class that extends a missing one, another class, and an object of each with a
reference that leads nowhere. -/
def catalogue : Source.Module :=
  let class_ (name : String) (superclass : Option TypeExpr) : Source.Class :=
    ⟨name, [], superclass, [], [], [], none⟩
  let object (name referent : String) : Source.Property :=
    ⟨name, none, [], some (.new (some (.simple referent))
      [.property "x" none (some (.ident "nosuch")) none]), none, none⟩
  { bareModule "file:///w/m.pkl" with
    classes := [class_ "Open" (some (.simple "Missing")), class_ "Closed" none]
    properties := [object "p" "Open", object "q" "Closed"] }

def catalogueTree : Tree := catalogue.treeAs (Store.idOf catalogue.uri) 1

def catalogueStore : Store := Store.ofSources default .none [catalogue]

/-- The check of references alone. -/
def referencesOnly : CheckOptions := ⟨true, false, false, false⟩

theorem mem_reportedReferences_checkModule {s : Session} {r : Nat × String}
    (h : r ∈ reportedReferences (findingsAt t (checkReference t) (adopt t s).2).1) :
    r ∈ reportedReferences (checkModule t referencesOnly s).1 := by
  obtain ⟨d, hd, hr⟩ := List.mem_filterMap.mp h
  refine List.mem_filterMap.mpr ⟨d, ?_, hr⟩
  change d ∈ (_ ++ []).mergeSort _
  rw [List.mem_mergeSort, List.append_nil]
  exact hd

theorem reported_catalogueTree : ∀ n ∈ [7, 12], (n, "nosuch") ∈
    reportedReferences (checkModule catalogueTree referencesOnly (new catalogueStore)).1 := by
  have hfound : ∀ n ∈ [7, 12], (n, "nosuch") ∈ reportedReferences (findingsAt catalogueTree
      (checkReference catalogueTree) (adopt catalogueTree (new catalogueStore)).2).1 := by
    decide +kernel
  exact fun n hn => mem_reportedReferences_checkModule (hfound n hn)

theorem catalogueTree_stored : catalogueStore.tree? catalogueTree.id = some catalogueTree :=
  Store.tree?_ofSources_singleton catalogue

/-- No receiver of the reference in the second object has superclasses that cannot be known. -/
theorem hasOpenChain_receiver_iff_catalogue :
    (12, "nosuch") ∈
        reportedReferences (checkModule catalogueTree referencesOnly (new catalogueStore)).1 ∧
      ∀ d, IsReceiver catalogueStore catalogueTree 12 d false →
        (hasOpenChain d (new catalogueStore)).1 = false := by
  have hplain : catalogueStore.IsPlain :=
    Store.isPlain_ofSources ProjectIndex.manifestIn?_none (by decide)
  have hreported := reported_catalogueTree 12 (by simp)
  have hkind : referenceAt? catalogueTree 12 = some ("nosuch", false) := by decide
  have haround : ∀ body ∈ catalogueTree.ancestors 12, catalogueTree.kind? body = some .objectBody →
      ∀ d ∈ (valueClasses catalogueTree body (new catalogueStore)).1,
        (hasOpenChain d (new catalogueStore)).1 = false ∧
          (endsInUnknownAlias d (new catalogueStore)).1 = false := by
    decide +kernel
  have henclosing : ∀ scope ∈ catalogueTree.ancestors 12, ∀ d ∈ declOf? catalogueTree scope,
      (endsInUnknownAlias d (new catalogueStore)).1 = false := by
    decide +kernel
  obtain ⟨hasReceiver, href, hiff⟩ :=
    hasOpenChain_receiver_iff hplain catalogueTree_stored hreported
  rw [hkind] at href
  obtain rfl : false = hasReceiver := (Prod.mk.inj (Option.some.inj href)).2
  refine ⟨hreported, hiff.mpr ⟨fun _ d hd => ?_, fun d hd => ?_⟩⟩
  · obtain ⟨body, hbody, hobject, hd⟩ := hd
    exact (haround body hbody hobject d hd).1
  · rcases hd with ⟨body, hbody, hobject, hd⟩ | rfl | ⟨scope, hscope, -, hd⟩
    · exact (haround body hbody hobject d hd).2
    · exact henclosing Tree.root (by decide +kernel) _ (by decide +kernel)
    · exact henclosing scope hscope d hd

/-- A reference that may mean a member of an unknown ancestor can be reported. -/
theorem not_forall_hasOpenChain_receiver :
    ¬∀ (W : Store) (t : Tree) (options : CheckOptions) (n : Nat) (name : String)
      (hasReceiver : Bool) (d : DeclRef), W.tree? t.id = some t →
      (n, name) ∈ reportedReferences (checkModule t options (new W)).1 →
      referenceAt? t n = some (name, hasReceiver) → IsReceiver W t n d hasReceiver →
      (hasOpenChain d (new W)).1 = false := by
  intro h
  -- the reference in the object of the class that extends a missing one
  have hshown : IsShownAround catalogueStore catalogueTree 7 ⟨⟨catalogueTree.id, 1⟩, "Open"⟩ :=
    ⟨5, by decide +kernel, by decide +kernel, by decide +kernel⟩
  have hclosed := h catalogueStore catalogueTree referencesOnly 7 "nosuch" false _
    catalogueTree_stored (reported_catalogueTree 7 (by simp)) (by decide) (.inl hshown)
  have hopen : (hasOpenChain ⟨⟨catalogueTree.id, 1⟩, "Open"⟩ (new catalogueStore)).1 = true := by
    decide +kernel
  exact Bool.false_ne_true (hclosed.symm.trans hopen)

end Session

end PklAnalysis
