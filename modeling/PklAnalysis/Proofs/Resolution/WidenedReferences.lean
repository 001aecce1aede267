import PklAnalysis.Proofs.Resolution.WidenedScopes

/-!
# References over a widened store

A reference has the same meaning in both stores if its node looks for no name among the members of
types, and otherwise if types are the same, identifiers are settled and all nodes of its tree are
clear of the hidden members: what is found of them after a receiver is not shown to other modules.
-/

namespace PklAnalysis.Widening

open Session

variable {W V : Store} {name : String} (w : Widening W V name)

namespace IsClear

variable {w} {t : Tree} {n : Nat} (hn : w.IsClear t n)
include hn

theorem unqualified {x : String}
    (hkind : t.kind? n = some (.ident x) ∨ t.kind? n = some (.call x false)) :
    x ≠ name ∨ t.id ≠ w.module ∧
      ∀ scope ∈ t.ancestors n, t.kind? scope ≠ some .objectBody := by
  refine or_iff_not_imp_left.mpr fun hx => ?_
  rcases hkind with hkind | hkind <;>
  · obtain ⟨hid, hdirect | ⟨hqualified, -⟩⟩ := hn _ hkind (congrArg some (not_not.mp hx))
    · rw [Tree.isDirect, hkind] at hdirect
      exact ⟨hid, by simpa using hdirect⟩
    · exact absurd hqualified Bool.false_ne_true

theorem qualified {kind : NodeKind} (hkind : t.kind? n = some kind)
    (hqualified : kind.isQualified = true) {x : String} (hx : kind.sought? = some x)
    {receiver : Nat} (hreceiver : t.child? n 0 = some receiver) :
    x ≠ name ∨ t.id ≠ w.module ∧
      (t.kind? receiver = some .moduleRef ∨ ∀ u ∈ W.held, ¬ u.Declares name) := by
  refine or_iff_not_imp_left.mpr fun hname => ?_
  obtain ⟨hid, hdirect | ⟨-, hfresh⟩⟩ := hn _ hkind (not_not.mp hname ▸ hx)
  · refine ⟨hid, .inl ?_⟩
    rw [Tree.isDirect, hkind] at hdirect
    cases kind with
    | access => simpa [hreceiver] using hdirect
    | call y hasReceiver =>
      obtain rfl : hasReceiver = true := hqualified
      simpa [hreceiver] using hdirect
    | _ => exact absurd hqualified Bool.false_ne_true
  · exact ⟨hid, .inr hfresh⟩

end IsClear

/-! ## Names after modules -/

theorem exportedMember?_tree {t : Tree} (ht : t ∈ W.held) (x : String) (kind : MemberKind) :
    exportedMember? (w.tree t) x kind = (exportedMember? t x kind).map w.declared := by
  simp only [exportedMember?]
  rw [← w.index_root t, (w.embeds_tree ht).find?_children (fun n => ?_) (fun k i hk => ?_)
    (fun k i hk => ?_) fun k hk => ?_]
  · rw [Option.map_map, Option.map_map, w.index_root]
    refine congrArg (fun f => Option.map f _) (funext fun n => ?_)
    exact (w.declared_atNode t n _ x).symm
  · rw [(w.embeds_tree ht).kind]
  · rw [hk]
  · rw [hk]
  · obtain ⟨_, hkind, hlocal, -⟩ | ⟨_, hkind, hlocal, -⟩ := Tree.hidden_cases hk <;>
      cases kind <;> simp [hkind, hlocal]

/-- What is left over of members that are the same. -/
theorem parallel_filter {find find' : Query (Option MemberDef)}
    (h : Parallel W V (w.Carried (Option.map w.member)) find find') {p : MemberDef → Bool}
    (hp : ∀ m, p (w.member m) = p m) :
    Parallel W V (fun a b => b = Option.map w.declared a)
      (find >>= fun m => pure ((m.filter p).map Declared.ofMember))
      (find' >>= fun m => pure ((m.filter p).map Declared.ofMember)) := by
  refine h.bind ?_
  rintro m _ ⟨-, rfl⟩
  refine .pure ?_
  cases m with
  | none => rfl
  | some m =>
    rw [Option.map_some, Option.filter_some, Option.filter_some, hp]
    split <;> rfl

/-- Nothing is left over of hidden members. -/
theorem parallel_filter_hidden {find find' : Query (Option MemberDef)}
    (h : Parallel W V (fun o o' => o = none ∧
      ∀ m ∈ o', m.isLocal = true ∧ m.site.module = w.module) find find') {p : MemberDef → Bool}
    (hp : ∀ m, m.isLocal = true → m.site.module = w.module → p m = false) :
    Parallel W V (fun a b => b = Option.map w.declared a)
      (find >>= fun m => pure ((m.filter p).map Declared.ofMember))
      (find' >>= fun m => pure ((m.filter p).map Declared.ofMember)) := by
  refine h.bind ?_
  rintro _ m ⟨rfl, hm⟩
  refine .pure ?_
  cases m with
  | none => rfl
  | some m =>
    obtain ⟨hlocal, hmodule⟩ := hm m rfl
    rw [Option.filter_some, hp m hlocal hmodule]
    rfl

/-- The member that a class shows to other modules. -/
theorem parallel_shownMember? {d : DeclRef} (hd : Grounded W.held d) {x : String}
    (hx : x ≠ name ∨ ∀ u ∈ W.held, ¬ u.Declares name) (kind : MemberKind) :
    Parallel W V (fun a b => b = Option.map w.declared a)
      (memberOfClass? d x kind >>= fun m =>
        pure ((m.filter fun m => !m.isLocal).map Declared.ofMember))
      (memberOfClass? (w.decl d) x kind >>= fun m =>
        pure ((m.filter fun m => !m.isLocal).map Declared.ofMember)) := by
  by_cases hname : x = name
  · subst hname
    have hhidden := w.parallel_hiddenMember? hd (hx.resolve_left (absurd rfl)) kind
    exact w.parallel_filter_hidden hhidden fun m hlocal _ => by rw [hlocal]; rfl
  · exact w.parallel_filter (w.parallel_memberOfClass? hd (.inl hname) kind) fun _ => rfl

theorem parallel_topLevel? {t : Tree} (ht : Grounded W.held t) {x : String}
    (hx : x ≠ name ∨ ∀ u ∈ W.held, ¬ u.Declares name) (kind : MemberKind) :
    Parallel W V (w.Carried (Option.map w.declared)) (topLevel? t x kind)
      (topLevel? (w.tree t) x kind) := by
  have hmem := Store.IsPlain.mem_held ht
  have hinherited := w.parallel_shownMember? ht.moduleDecl hx kind
  refine w.parallel_carried (steady_topLevel? ht x kind) ?_
  simp only [topLevel?, w.exportedMember?_tree hmem, w.moduleDecl_tree hmem]
  cases exportedMember? t x kind with
  | some found => exact .pure rfl
  | none =>
    cases kind with
    | method => exact hinherited
    | property =>
      simp only [w.exportedType?_tree hmem, Option.map_none, Option.none_or]
      cases exportedType? t x with
      | some found => exact .pure rfl
      | none => exact hinherited

theorem parallel_inImported? {importer : Tree} (himporter : Grounded W.held importer) {n : Nat}
    {uri : String} (huri : uriAt? importer n = some uri) {x : String}
    (hx : x ≠ name ∨ ∀ u ∈ W.held, ¬ u.Declares name) (kind : MemberKind) :
    Parallel W V (w.Carried (Option.map w.declared)) (inImported? importer uri x kind)
      (inImported? (w.tree importer) uri x kind) := by
  refine (w.parallel_resolveModule? himporter huri).bind ?_
  rintro found _ ⟨hfound, rfl⟩
  cases found with
  | some t => exact w.parallel_topLevel? hfound.of_some hx kind
  | none => exact .pure ⟨.none, rfl⟩

theorem parallel_afterImport? (d : Declared) {x : String}
    (hx : x ≠ name ∨ ∀ u ∈ W.held, ¬ u.Declares name) (kind : MemberKind) :
    Parallel W V (w.Carried (Option.map w.declared)) (afterImport? d x kind)
      (afterImport? (w.declared d) x kind) := by
  have hmodule : (w.declared d).site.module = d.site.module := w.module_site d.site
  rw [afterImport?, afterImport?, hmodule]
  refine (w.parallel_tree? d.site.module).bind ?_
  rintro found _ ⟨⟨hfound, rfl⟩, hid⟩
  cases found with
  | none => exact .pure ⟨.none, rfl⟩
  | some importer =>
    have himporter := hfound.of_some
    have hnode : (w.declared d).site.node = w.index importer d.site.node :=
      w.node_site (hid importer rfl)
    simp only [Option.map_some, hnode, (w.embeds_tree (Store.IsPlain.mem_held himporter)).kind]
    cases hkind : importer.kind? d.site.node with
    | none => exact .pure ⟨.none, rfl⟩
    | some k =>
      cases k with
      | importClause i =>
        have huri : uriAt? importer d.site.node = some i.uri := by rw [uriAt?, hkind]
        exact w.parallel_inImported? himporter huri hx kind
      | _ => exact .pure ⟨.none, rfl⟩

theorem parallel_onReceiver? {t : Tree} {receiver : Ty} (h : Grounded W.held receiver)
    {x : String} (hx : x ≠ name ∨ t.id ≠ w.module ∧ ∀ u ∈ W.held, ¬ u.Declares name)
    (kind : MemberKind) :
    Parallel W V (w.Carried (Option.map w.declared)) (onReceiver? t receiver x kind)
      (onReceiver? (w.tree t) (w.ty receiver) x kind) := by
  refine w.parallel_carried (steady_onReceiver? t h x kind) ?_
  rw [onReceiver?, onReceiver?, id_tree]
  by_cases hname : x = name
  · subst hname
    obtain ⟨hid, hfresh⟩ := hx.resolve_left (absurd rfl)
    refine w.parallel_filter_hidden (w.parallel_hiddenMemberOfType? h hfresh kind)
      fun m hlocal hmodule => ?_
    simp [hlocal, hmodule, hid.symm]
  · refine w.parallel_filter (w.parallel_memberOfType? h hname kind) fun m => ?_
    simp [Relabelling.member]

section Receivers

variable {t : Tree} (ht : Grounded W.held t) {x : String}
include ht

theorem parallel_moduleMember? {receiver : Nat} (hreceiver : t.kind? receiver = some .moduleRef)
    (hx : x ≠ name ∨ t.id ≠ w.module) (kind : MemberKind) (q q' : Typing) :
    Parallel W V (w.Carried (Option.map w.declared)) (qualified? q t receiver x kind)
      (qualified? q' (w.tree t) (w.index t receiver) x kind) := by
  have hmem := Store.IsPlain.mem_held ht
  have hmodule : ∀ {t : Tree} {receiver : Nat} {q : Typing},
      t.kind? receiver = some .moduleRef →
        qualified? q t receiver x kind = declaredMember? (moduleDecl t) x kind := by
    intro t receiver q hkind
    rw [qualified?, afterModule?, hkind, bind_map_left]
    exact bind_pure _
  rw [hmodule hreceiver, hmodule ((w.embeds_tree hmem).kind receiver ▸ hreceiver),
    w.moduleDecl_tree hmem]
  exact w.parallel_declaredMember? ht.moduleDecl hx kind

theorem parallel_moduleDeclared? {n : Nat} {uri : String} (huri : uriAt? t n = some uri) :
    Parallel W V (w.Carried (Option.map w.declared)) (moduleDeclared? t uri)
      (moduleDeclared? (w.tree t) uri) := by
  refine w.parallel_carried (steady_moduleDeclared? ht huri) ?_
  refine (w.parallel_resolveModule? ht huri).bind ?_
  rintro found _ ⟨hfound, rfl⟩
  refine .pure ?_
  cases found with
  | none => rfl
  | some m =>
    have hm := Store.IsPlain.mem_held hfound.of_some
    rw [Option.map_some, Option.map_some, Option.map_some, Option.map_some, declared_atNode,
      w.moduleName_tree hm, index_root]

/-- A reference from another module that looks for no name among the members of types has the same
meaning. -/
theorem parallel_resolveIn_direct (hid : t.id ≠ w.module) {n : Nat} (hn : t.isDirect n = true)
    (q q' : Typing) :
    Parallel W V (w.Carried (Option.map w.declared)) (resolveIn q t n)
      (resolveIn q' (w.tree t) (w.index t n)) := by
  have hmem := Store.IsPlain.mem_held ht
  have hunqualified : ∀ x kind, (t.ancestors n).all (fun scope => t.kind? scope != some .objectBody)
      = true → Parallel W V (w.Carried (Option.map w.declared)) (unqualified? q t n x kind)
        (unqualified? q' (w.tree t) (w.index t n) x kind) := by
    intro x kind hall
    refine w.parallel_unqualified? ht (.inr hid) kind (fun scope hscope hbody => ?_)
      (.inl (w.import?_of_ne hid x kind))
    have hne := List.all_eq_true.mp hall scope hscope
    rw [hbody] at hne
    exact absurd hne (by simp)
  have hqualified : ∀ x kind receiver, t.child? n 0 = some receiver →
      (t.child? n 0).all (fun r => t.kind? r = some .moduleRef) = true →
      Parallel W V (w.Carried (Option.map w.declared)) (qualified? q t receiver x kind)
        (qualified? q' (w.tree t) (w.index t receiver) x kind) := by
    intro x kind receiver hreceiver hall
    rw [hreceiver] at hall
    exact w.parallel_moduleMember? ht (of_decide_eq_true hall) (.inr hid) kind q q'
  have hchild : (t.kind? n).any (·.isOwner) = false →
      (w.tree t).child? (w.index t n) 0 = (t.child? n 0).map (w.index t) :=
    fun hkind => (w.embeds_tree hmem).child?_of_kind hkind 0
  rw [Tree.isDirect] at hn
  unfold resolveIn
  rw [(w.embeds_tree hmem).kind]
  cases hkind : t.kind? n with
  | none => exact .pure ⟨.none, rfl⟩
  | some kind =>
    rw [hkind] at hn hchild
    cases kind with
    | ident y => exact hunqualified y .property hn
    | access y nullSafe =>
      simp only [hchild rfl]
      cases hreceiver : t.child? n 0 with
      | none => exact .pure ⟨.none, rfl⟩
      | some receiver => exact hqualified y .property receiver hreceiver hn
    | call y hasReceiver =>
      cases hasReceiver with
      | false => exact hunqualified y .method hn
      | true =>
        simp only [hchild rfl]
        cases hreceiver : t.child? n 0 with
        | none => exact .pure ⟨.none, rfl⟩
        | some receiver => exact hqualified y .method receiver hreceiver hn
    | importClause i | importExpr i | clause _ uri =>
      exact w.parallel_moduleDeclared? ht (by rw [uriAt?, hkind])
    | _ => exact .pure ⟨.none, rfl⟩

end Receivers

/-! ## References of trees that are clear -/

section Clear

variable {w} {q q' : Typing} (hq : w.Twins q q') {t : Tree} (ht : Grounded W.held t)
  (hclear : ∀ n, w.IsClear t n)
include hq ht hclear

theorem parallel_identifier? {n : Nat} {x : String} {kind : MemberKind}
    (hkind : t.kind? n = some (.ident x) ∧ kind = .property ∨
      t.kind? n = some (.call x false) ∧ kind = .method) :
    Parallel W V (w.Carried (Option.map w.declared)) (unqualified? q t n x kind)
      (unqualified? q' (w.tree t) (w.index t n) x kind) := by
  have himport : import? (w.tree t) x kind = (import? t x kind).map w.declared ∨
      ∀ found, Answers V (enclosing? q' (w.tree t) (w.index t n) x kind) found →
        found ≠ none := by
    rcases hkind with ⟨hkind, rfl⟩ | ⟨-, rfl⟩
    · exact hq.settled (Store.IsPlain.mem_held ht) n x hkind
    · exact .inl rfl
  rcases (hclear n).unqualified (hkind.imp And.left And.left) with hx | ⟨hid, hscopes⟩
  · exact w.parallel_unqualified? ht (.inl hx) kind (fun scope _ hbody =>
      parallel_inObject? hq ht hclear scope hbody hx kind) himport
  · exact w.parallel_unqualified? ht (.inr hid) kind (fun scope hscope hbody =>
      absurd hbody (hscopes scope hscope)) himport

variable {receiver : Nat} {x : String}
  (hx : x ≠ name ∨ t.id ≠ w.module ∧
    (t.kind? receiver = some .moduleRef ∨ ∀ u ∈ W.held, ¬ u.Declares name)) (kind : MemberKind)
include hx

/-- What a name means after a module; every answer is given where the receiver is `module`. -/
theorem parallel_afterModule? :
    Parallel W V (fun a b => w.Carried (Option.map (Option.map w.declared)) a b ∧
        (a = none → t.kind? receiver ≠ some .moduleRef))
      (afterModule? q t receiver x kind)
      (afterModule? q' (w.tree t) (w.index t receiver) x kind) := by
  have hmem := Store.IsPlain.mem_held ht
  have hwrap : ∀ {y y' : Query (Option Declared)}, Parallel W V
      (w.Carried (Option.map w.declared)) y y' →
      Parallel W V (fun a b => w.Carried (Option.map (Option.map w.declared)) a b ∧
        (a = none → t.kind? receiver ≠ some .moduleRef)) (some <$> y) (some <$> y') := by
    intro y y' h
    refine h.map ?_
    rintro found _ ⟨hfound, rfl⟩
    exact ⟨⟨hfound.some, rfl⟩, fun hnone => absurd hnone (Option.some_ne_none _)⟩
  have hfresh : t.kind? receiver ≠ some .moduleRef →
      x ≠ name ∨ ∀ u ∈ W.held, ¬ u.Declares name :=
    fun hne => hx.imp_right fun h => h.2.resolve_left hne
  unfold afterModule?
  rw [(w.embeds_tree hmem).kind]
  cases hkind : t.kind? receiver with
  | none => exact .pure ⟨⟨.none, rfl⟩, fun _ => by simp⟩
  | some k =>
    rw [hkind] at hfresh hwrap
    cases k with
    | moduleRef =>
      -- local members are found here as well, but hidden ones are members of another module
      simp only [w.moduleDecl_tree hmem]
      exact hwrap (w.parallel_declaredMember? ht.moduleDecl (hx.imp_right fun h => h.1) kind)
    | importExpr i =>
      have huri : uriAt? t receiver = some i.uri := by rw [uriAt?, hkind]
      exact hwrap (w.parallel_inImported? ht huri (hfresh (by simp)) kind)
    | ident binding =>
      refine (parallel_identifier? hq ht hclear (.inl ⟨hkind, rfl⟩)).bind ?_
      rintro found _ ⟨hfound, rfl⟩
      cases found with
      | none => exact .pure ⟨⟨.none, rfl⟩, fun _ => by simp⟩
      | some d =>
        have himport : (w.declared d).kind = d.kind := rfl
        simp only [Option.map_some, himport]
        split
        · exact hwrap (w.parallel_afterImport? d (hfresh (by simp)) kind)
        · exact .pure ⟨⟨.none, rfl⟩, fun _ => by simp⟩
    | _ => exact .pure ⟨⟨.none, rfl⟩, fun _ => by simp⟩

theorem parallel_qualified? :
    Parallel W V (w.Carried (Option.map w.declared)) (qualified? q t receiver x kind)
      (qualified? q' (w.tree t) (w.index t receiver) x kind) := by
  refine (parallel_afterModule? hq ht hclear hx kind).bind ?_
  rintro found _ ⟨⟨hfound, rfl⟩, hreceiver⟩
  cases found with
  | some found => exact .pure ⟨hfound.of_some, rfl⟩
  | none =>
    refine (hq.infer ht receiver).bind ?_
    rintro type _ ⟨htype, rfl⟩
    exact w.parallel_onReceiver? htype
      (hx.imp_right fun h => ⟨h.1, h.2.resolve_left (hreceiver rfl)⟩) kind

omit hx in
/-- A reference of a tree that is clear of the hidden members has the same meaning. -/
theorem parallel_resolveIn (n : Nat) :
    Parallel W V (w.Carried (Option.map w.declared)) (resolveIn q t n)
      (resolveIn q' (w.tree t) (w.index t n)) := by
  have hmem := Store.IsPlain.mem_held ht
  have hchild : (t.kind? n).any (·.isOwner) = false →
      (w.tree t).child? (w.index t n) 0 = (t.child? n 0).map (w.index t) :=
    fun hkind => (w.embeds_tree hmem).child?_of_kind hkind 0
  unfold resolveIn
  rw [(w.embeds_tree hmem).kind]
  cases hkind : t.kind? n with
  | none => exact .pure ⟨.none, rfl⟩
  | some k =>
    rw [hkind] at hchild
    cases k with
    | ident y => exact parallel_identifier? hq ht hclear (.inl ⟨hkind, rfl⟩)
    | access y nullSafe =>
      simp only [hchild rfl]
      cases hreceiver : t.child? n 0 with
      | none => exact .pure ⟨.none, rfl⟩
      | some receiver =>
        have hx := (hclear n).qualified hkind rfl rfl hreceiver
        exact parallel_qualified? hq ht hclear hx .property
    | call y hasReceiver =>
      cases hasReceiver with
      | false => exact parallel_identifier? hq ht hclear (.inr ⟨hkind, rfl⟩)
      | true =>
        simp only [hchild rfl]
        cases hreceiver : t.child? n 0 with
        | none => exact .pure ⟨.none, rfl⟩
        | some receiver =>
          have hx := (hclear n).qualified hkind rfl rfl hreceiver
          exact parallel_qualified? hq ht hclear hx .method
    | importClause i | importExpr i | clause _ uri =>
      exact w.parallel_moduleDeclared? ht (by rw [uriAt?, hkind])
    | _ => exact .pure ⟨.none, rfl⟩

end Clear

end PklAnalysis.Widening
