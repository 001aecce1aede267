import PklAnalysis.Proofs.Resolution.WidenedReceivers
import PklAnalysis.Resolution.Scope

/-!
# Names without a receiver over a widened store

A node is clear of the hidden members if it looks for another name, or if it looks for their name
from another module, either not among the members of types or after a receiver and in a store that
declares no other member of the name.  An identifier is settled if its name stands for the same
import, or means something else before imports are looked at.  As long as types are the same in both
stores, a name without a receiver at such a node has the same meaning.
-/

namespace PklAnalysis

namespace Session

variable {q : Typing} {t : Tree}

/-- What a name without a receiver means at a node by virtue of what is around the node and in its
module. -/
def enclosing? [Bounds] (q : Typing) (t : Tree) (n : Nat) (name : String) (kind : MemberKind) :
    Query (Option Declared) := do
  match ← inScopes? q t name kind n (t.ancestors n) with
  | some found => return some found
  | none => inModule? t name kind

/-- Imports come after what is around a node and in its module. -/
theorem unqualified?_eq [Bounds] (q : Typing) (t : Tree) (n : Nat) (name : String)
    (kind : MemberKind) : unqualified? q t n name kind = (do
      match ← enclosing? q t n name kind with
      | some found => return some found
      | none =>
        match import? t name kind with
        | some found => return some found
        | none => inModule? BaseModule.tree name kind) := by
  rw [unqualified?, enclosing?, bind_assoc]
  refine congrArg (inScopes? q t name kind n (t.ancestors n) >>= ·) (funext fun found => ?_)
  cases found with
  | some found => rfl
  | none => exact congrArg (inModule? t name kind >>= ·) (funext fun found => by cases found <;> rfl)

end Session

namespace Widening

open Session

variable {W V : Store} {name : String} (w : Widening W V name)

/-- What a node looks for does not depend on hidden members. -/
def IsClear (t : Tree) (n : Nat) : Prop :=
  ∀ kind, t.kind? n = some kind → kind.sought? = some name → t.id ≠ w.module ∧
    (t.isDirect n = true ∨ kind.isQualified = true ∧ ∀ u ∈ W.held, ¬ u.Declares name)

/-- The identifiers of a tree stand for the same imports in its counterpart, or they mean something
else there before imports are looked at. -/
def IsSettled (q' : Typing) (t : Tree) : Prop := ∀ n x, t.kind? n = some (.ident x) →
  (import? (w.tree t) x .property = (import? t x .property).map w.declared) ∨
    ∀ found, Answers V (enclosing? q' (w.tree t) (w.index t n) x .property) found → found ≠ none

/-- Typings of the two stores give the same types, and with the second one identifiers are
settled. -/
structure Twins (q q' : Typing) : Prop where
  steady : q.IsSteady
  settled : ∀ {t}, t ∈ W.held → w.IsSettled q' t
  infer : ∀ {t}, Grounded W.held t → ∀ n,
    Parallel W V (w.Carried w.ty) (q.infer t n) (q'.infer (w.tree t) (w.index t n))
  typed : ∀ {d}, Grounded W.held d →
    Parallel W V (w.Carried w.ty) (q.typed d) (q'.typed (w.declared d))

namespace IsClear

variable {w} {t : Tree} {n : Nat} (hn : w.IsClear t n)
include hn

theorem property {h : PropertyHeader} (hkind : t.kind? n = some (.property h))
    (htype : h.type = none) : h.name ≠ name := by
  intro hname
  obtain ⟨-, hdirect | ⟨hqualified, -⟩⟩ := hn _ hkind (congrArg some hname)
  · rw [Tree.isDirect, hkind] at hdirect
    simp [htype] at hdirect
  · exact absurd hqualified Bool.false_ne_true

theorem objectProperty {b : Binding} (hkind : t.kind? n = some (.objectProperty b))
    (htype : b.type = none) : b.name ≠ name := by
  intro hname
  obtain ⟨-, hdirect | ⟨hqualified, -⟩⟩ := hn _ hkind (congrArg some hname)
  · rw [Tree.isDirect, hkind] at hdirect
    simp [htype] at hdirect
  · exact absurd hqualified Bool.false_ne_true

end IsClear

/-! ## Declarations -/

@[simp] theorem declared_atNode (t : Tree) (n : Nat) (kind : DeclarationKind) (x : String) :
    w.declared (Declared.atNode t n kind x) =
      Declared.atNode (w.tree t) (w.index t n) kind x := by
  rw [Declared.atNode, Declared.atNode, Relabelling.declared]
  exact congrArg (fun s => Declared.mk s kind x) (w.site_siteOf t n)

theorem map_ofMember (o : Option MemberDef) : (o.map w.member).map Declared.ofMember =
    (o.map Declared.ofMember).map w.declared := by
  cases o <;> rfl

theorem ty_dynamicType : w.ty dynamicType = dynamicType := w.ty_plainBase (by simp)

theorem getD_nonNull (o : Option Ty) : ((o.map w.ty).map nonNull).getD dynamicType =
    w.ty ((o.map nonNull).getD dynamicType) := by
  cases o with
  | none => exact w.ty_dynamicType.symm
  | some t => exact w.ty_nonNull t

/-! ## Objects -/

section Objects

variable {w} {q q' : Typing} (hq : w.Twins q q')
include hq

theorem parallel_propertyOn? {receiver : Ty} (h : Grounded W.held receiver) {x : String}
    (hx : x ≠ name) :
    Parallel W V (w.Carried (Option.map w.ty)) (propertyOn? q receiver x)
      (propertyOn? q' (w.ty receiver) x) := by
  refine w.parallel_carried (steady_propertyOn? hq.steady h x) ?_
  refine (w.parallel_memberOfType? h hx .property).bind ?_
  rintro m _ ⟨hm, rfl⟩
  cases m with
  | none => exact .pure rfl
  | some m =>
    refine (hq.typed hm.of_some.ofMember).bind ?_
    rintro declared _ ⟨hdeclared, rfl⟩
    refine (w.parallel_memberTypeOn h m.owner hdeclared).bind ?_
    rintro type _ ⟨-, rfl⟩
    exact .pure rfl

variable {t : Tree} (ht : Grounded W.held t) (hclear : ∀ n, w.IsClear t n)
include ht hclear

theorem parallel_objectType (body : Nat) :
    Parallel W V (w.Carried w.ty) (objectType q t body)
      (objectType q' (w.tree t) (w.index t body)) := by
  have hmem := Store.IsPlain.mem_held ht
  -- an object in another one asks for the type of the outer one, whose body has a smaller number
  induction body using Nat.strongRecOn with
  | ind body ih =>
    refine w.parallel_carried (steady_objectType hq.steady ht body) ?_
    unfold objectType
    cases hp : t.parent? body with
    | none =>
      rw [(w.embeds_tree hmem).parent?_none hp]
      exact .pure rfl
    | some p =>
      obtain ⟨p', hp', hval⟩ := (w.embeds_tree hmem).parent?_some hp
      have hnone : t.parent? p = none → (w.tree t).parent? p' = none := by
        rw [hval]
        exact (w.embeds_tree hmem).parent?_none
      have hsome : ∀ outer, t.parent? p = some outer →
          ∃ outer', (w.tree t).parent? p' = some outer' ∧ outer'.val = w.index t outer := by
        rw [hval]
        exact fun outer => (w.embeds_tree hmem).parent?_some
      simp only [hp', hval, (w.embeds_tree hmem).kind]
      cases hkind : t.kind? p with
      | none => exact .pure rfl
      | some kind =>
        cases kind with
        | new | amend => exact (hq.infer ht p).imp fun _ _ h => h.2
        | property h =>
          refine (w.parallel_declaredPropertyType? ht fun h' hkind' htype => ?_).bind ?_
          · exact (hclear p).property hkind' htype
          · rintro type _ ⟨-, rfl⟩
            exact .pure (w.getD_nonNull type)
        | objectProperty b =>
          simp only
          have hpick : ∀ a b, w.Carried (Option.map w.ty) a b → Parallel (n := Query) W V
              (fun a b => b = w.ty a) (pure ((a.map nonNull).getD dynamicType))
              (pure ((b.map nonNull).getD dynamicType)) := by
            rintro type _ ⟨-, rfl⟩
            exact .pure (w.getD_nonNull type)
          cases htype : b.type with
          | some a =>
            refine Parallel.bind (n := Query) ?_ hpick
            refine (w.parallel_annotation ht hkind (by simp [annotationsAt, htype])).map ?_
            rintro type _ ⟨htype, rfl⟩
            exact ⟨htype.some, rfl⟩
          | none =>
            cases houter : t.parent? p with
            | none =>
              simp only [hnone houter]
              exact Parallel.bind (n := Query) (.pure ⟨.none, rfl⟩) hpick
            | some outer =>
              obtain ⟨outer', houter', hval'⟩ := hsome outer houter
              simp only [houter', hval']
              have hbefore : outer.val < body := Nat.lt_trans outer.isLt p.isLt
              refine (ih outer hbefore).bind ?_
              rintro type _ ⟨htype', rfl⟩
              exact (parallel_propertyOn? hq htype' ((hclear p).objectProperty hkind htype)).bind
                hpick
        | generator | when =>
          simp only
          cases houter : t.parent? p with
          | none =>
            simp only [hnone houter]
            exact Parallel.pure (n := Query) rfl
          | some outer =>
            obtain ⟨outer', houter', hval'⟩ := hsome outer houter
            simp only [houter', hval']
            exact (hq.infer ht outer).imp fun _ _ h => h.2
        | _ => exact .pure rfl

theorem parallel_objectMemberType? (member : Nat) {x : String} (hx : x ≠ name) :
    Parallel W V (w.Carried (Option.map w.ty)) (objectMemberType? q t member x)
      (objectMemberType? q' (w.tree t) (w.index t member) x) := by
  rw [objectMemberType?, objectMemberType?]
  cases hp : t.parent? member with
  | none =>
    rw [(w.embeds_tree (Store.IsPlain.mem_held ht)).parent?_none hp]
    exact .pure ⟨.none, rfl⟩
  | some p =>
    obtain ⟨p', hp', hval⟩ := (w.embeds_tree (Store.IsPlain.mem_held ht)).parent?_some hp
    simp only [hp', hval]
    refine (parallel_objectType hq ht hclear p).bind ?_
    rintro type _ ⟨htype, rfl⟩
    exact parallel_propertyOn? hq htype hx

/-- The member of an object body with a name other than that of the hidden members. -/
theorem parallel_inObject? (body : Nat) (hbody : t.kind? body = some .objectBody) {x : String}
    (hx : x ≠ name) (kind : MemberKind) :
    Parallel W V (w.Carried (Option.map w.declared)) (inObject? q t body x kind)
      (inObject? q' (w.tree t) (w.index t body) x kind) := by
  have hmem := Store.IsPlain.mem_held ht
  refine w.parallel_carried (steady_inObject? hq.steady ht body x kind) ?_
  have hmember : Parallel W V (fun a b => b = Option.map w.declared a)
      (objectType q t body >>= fun type =>
        memberOfType? type x kind >>= fun m => pure (m.map Declared.ofMember))
      (objectType q' (w.tree t) (w.index t body) >>= fun type =>
        memberOfType? type x kind >>= fun m => pure (m.map Declared.ofMember)) := by
    refine (parallel_objectType hq ht hclear body).bind ?_
    rintro type _ ⟨htype, rfl⟩
    refine (w.parallel_memberOfType? htype hx kind).bind ?_
    rintro m _ ⟨-, rfl⟩
    exact .pure (w.map_ofMember m)
  have hchildren : (w.tree t).children (w.index t body) = (t.children body).map (w.index t) :=
    (w.embeds_tree hmem).children_of_kind (by rw [hbody]; rfl)
  simp only [inObject?, hchildren, List.find?_map, Function.comp_def, (w.embeds_tree hmem).kind]
  cases kind with
  | method => exact hmember
  | property =>
    generalize List.find? _ (t.children body) = own
    cases own with
    | none => exact hmember
    | some n => exact .pure (congrArg some (w.declared_atNode t n .objectProperty x).symm)

end Objects

/-! ## Names in a tree -/

section Trees

variable {t : Tree} (ht : t ∈ W.held) (x : String)
include ht

theorem typeDeclared?_tree :
    typeDeclared? (w.tree t) x = (typeDeclared? t x).map w.declared := by
  rw [typeDeclared?, typeDeclared?, (w.embeds_tree ht).findType?_eq]
  cases t.findType? x with
  | none => rfl
  | some n =>
    simp only [Option.map_some, Option.bind_eq_bind, Option.bind_some, (w.embeds_tree ht).kind]
    exact congrArg some (w.declared_atNode t n _ x).symm

theorem exportedType?_tree :
    exportedType? (w.tree t) x = (exportedType? t x).map w.declared := by
  rw [exportedType?, exportedType?, w.typeDeclared?_tree ht]
  cases hd : typeDeclared? t x with
  | none => rfl
  | some d =>
    have hid : t.id = d.site.module := by
      obtain ⟨n, -, hd⟩ := Option.bind_eq_some_iff.mp hd
      rw [← Option.some.inj hd, Declared.atNode]
    have hnode : (w.declared d).site.node = w.index t d.site.node := w.node_site hid
    simp only [Option.map_some, Option.filter_some, hnode, w.isLocalNode_tree ht]
    split <;> rfl

theorem parameter?_tree (scope child : Nat) :
    parameter? (w.tree t) (w.index t scope) (w.index t child) x =
      (parameter? t scope child x).map w.declared := by
  simp only [parameter?, (w.embeds_tree ht).kind]
  split
  · rfl
  · rw [(w.embeds_tree ht).find?_children (fun n => ?_) (fun k i hk => ?_) (fun k i hk => ?_)
      fun k hk => ?_]
    · rw [Option.map_map, Option.map_map]
      refine congrArg (fun f => Option.map f _) (funext fun n => ?_)
      exact (w.declared_atNode t n .parameter x).symm
    · rw [(w.embeds_tree ht).kind]
    · rw [hk]
    · rw [hk]
    · obtain ⟨_, hkind, -⟩ | ⟨_, hkind, -⟩ := Tree.hidden_cases hk <;> rw [hkind]

theorem bound?_tree {scope : Nat} (hscope : (t.kind? scope).any (·.isOwner) = false) (child : Nat)
    (kind : DeclarationKind) (names : List String) :
    bound? (w.tree t) (w.index t scope) (w.index t child) kind x names =
      (bound? t scope child kind x names).map w.declared := by
  have hchild : (w.tree t).child? (w.index t scope) 1 = some (w.index t child) ↔
      t.child? scope 1 = some child := by
    rw [(w.embeds_tree ht).child?_of_kind hscope, Option.map_eq_some_iff]
    simp
  simp only [bound?, hchild, Bool.and_eq_true, decide_eq_true_eq]
  split
  · exact congrArg some (w.declared_atNode t scope kind x).symm
  · rfl

end Trees

/-- Modules other than the widened one keep their imports. -/
theorem import?_of_ne {t : Tree} (hid : t.id ≠ w.module) (x : String)
    (kind : MemberKind) : import? (w.tree t) x kind = (import? t x kind).map w.declared := by
  have hsite (n : Nat) : w.declared (Declared.atNode t n .import x) =
      Declared.atNode t n .import x := by
    rw [w.declared_atNode, w.tree_of_ne hid, w.index_of_ne hid]
  rw [w.tree_of_ne hid]
  cases kind with
  | method => rfl
  | property =>
    rw [import?, Option.map_map]
    exact congrArg (fun f => Option.map f _) (funext fun e => (hsite e.1).symm)

/-! ## Names in scopes -/

theorem parallel_declaredMember? {d : DeclRef} (hd : Grounded W.held d) {x : String}
    (hx : x ≠ name ∨ d.site.module ≠ w.module) (kind : MemberKind) :
    Parallel W V (w.Carried (Option.map w.declared)) (declaredMember? d x kind)
      (declaredMember? (w.decl d) x kind) := by
  refine w.parallel_carried (steady_declaredMember? hd x kind) ?_
  refine (w.parallel_memberOfClass? hd hx kind).bind ?_
  rintro m _ ⟨-, rfl⟩
  exact .pure (w.map_ofMember m)

section Names

variable {t : Tree} (ht : Grounded W.held t) {x : String}
include ht

theorem parallel_inheritedTypeDeclared? :
    Parallel W V (fun a b => b = Option.map w.declared a) (inheritedTypeDeclared? t x)
      (inheritedTypeDeclared? (w.tree t) x) := by
  refine (w.parallel_supermodules ht).bind ?_
  rintro ms _ ⟨hms, rfl⟩
  refine .pure ?_
  induction ms with
  | nil => rfl
  | cons m ms ih =>
    have ⟨hm, hms⟩ := List.forall_mem_cons.mp hms
    rw [List.map_cons, List.findSome?_cons, List.findSome?_cons,
      w.exportedType?_tree (Store.IsPlain.mem_held hm)]
    cases exportedType? m x with
    | none => exact ih hms
    | some d => rfl

variable (hx : x ≠ name ∨ t.id ≠ w.module)
include hx

theorem parallel_inModule? (kind : MemberKind) :
    Parallel W V (w.Carried (Option.map w.declared)) (inModule? t x kind)
      (inModule? (w.tree t) x kind) := by
  have hmem := Store.IsPlain.mem_held ht
  refine w.parallel_carried (steady_inModule? ht x kind) ?_
  unfold inModule?
  rw [w.moduleDecl_tree hmem, w.typeDeclared?_tree hmem]
  refine (w.parallel_declaredMember? ht.moduleDecl hx kind).bind ?_
  rintro found _ ⟨-, rfl⟩
  cases found with
  | some found => exact .pure rfl
  | none =>
    cases kind with
    | method => exact .pure rfl
    | property =>
      cases typeDeclared? t x with
      | some found => exact .pure rfl
      | none => exact w.parallel_inheritedTypeDeclared? ht

theorem parallel_inScope? {q q' : Typing} (scope child : Nat) (kind : MemberKind)
    (hobject : t.kind? scope = some .objectBody →
      Parallel W V (w.Carried (Option.map w.declared)) (inObject? q t scope x kind)
        (inObject? q' (w.tree t) (w.index t scope) x kind)) :
    Parallel W V (w.Carried (Option.map w.declared)) (inScope? q t scope child x kind)
      (inScope? q' (w.tree t) (w.index t scope) (w.index t child) x kind) := by
  have hmem := Store.IsPlain.mem_held ht
  have hparameter : w.Carried (Option.map w.declared) (parameter? t scope child x)
      (parameter? (w.tree t) (w.index t scope) (w.index t child) x) :=
    ⟨grounded_parameter? ht scope child x, w.parameter?_tree hmem x scope child⟩
  have hbound (declared : DeclarationKind) (names : List String)
      (hscope : (t.kind? scope).any (·.isOwner) = false) :
      w.Carried (Option.map w.declared) (bound? t scope child declared x names)
        (bound? (w.tree t) (w.index t scope) (w.index t child) declared x names) :=
    ⟨grounded_bound? ht scope child declared x names, w.bound?_tree hmem x hscope child _ _⟩
  unfold inScope?
  rw [(w.embeds_tree hmem).kind]
  cases hscope : t.kind? scope with
  | none => exact .pure ⟨.none, rfl⟩
  | some scopeKind =>
    rw [hscope] at hbound
    cases scopeKind with
    | objectBody => exact hobject hscope
    | «class» h =>
      simp only [w.declOf?_tree hmem]
      cases hd : declOf? t scope with
      | none => exact .pure ⟨.none, rfl⟩
      | some d =>
        have hmodule : d.site.module = t.id := module_of_declOf? hd
        exact w.parallel_declaredMember? (ht.declOf? scope d hd) (hmodule ▸ hx) kind
    | letIn b =>
      cases kind with
      | method => exact .pure ⟨.none, rfl⟩
      | property => exact .pure (hbound .letBinding _ rfl)
    | generator key value =>
      cases kind with
      | method => exact .pure ⟨.none, rfl⟩
      | property => exact .pure (hbound .forBinding _ rfl)
    | lambda | method =>
      cases kind with
      | method => exact .pure ⟨.none, rfl⟩
      | property => exact .pure hparameter
    | _ => exact .pure ⟨.none, rfl⟩

theorem parallel_inScopes? {q q' : Typing} (kind : MemberKind) (child : Nat) {scopes : List Nat}
    (hobjects : ∀ scope ∈ scopes, t.kind? scope = some .objectBody →
      Parallel W V (w.Carried (Option.map w.declared)) (inObject? q t scope x kind)
        (inObject? q' (w.tree t) (w.index t scope) x kind)) :
    Parallel W V (w.Carried (Option.map w.declared)) (inScopes? q t x kind child scopes)
      (inScopes? q' (w.tree t) x kind (w.index t child) (scopes.map (w.index t))) := by
  induction scopes generalizing child with
  | nil => exact .pure ⟨.none, rfl⟩
  | cons scope scopes ih =>
    obtain ⟨hobject, hobjects⟩ := List.forall_mem_cons.mp hobjects
    refine (w.parallel_inScope? ht hx scope child kind hobject).bind ?_
    rintro found _ ⟨hfound, rfl⟩
    cases found with
    | some found => exact .pure ⟨hfound, rfl⟩
    | none => exact ih scope hobjects

theorem parallel_enclosing? {q q' : Typing} (kind : MemberKind) {n : Nat}
    (hobjects : ∀ scope ∈ t.ancestors n, t.kind? scope = some .objectBody →
      Parallel W V (w.Carried (Option.map w.declared)) (inObject? q t scope x kind)
        (inObject? q' (w.tree t) (w.index t scope) x kind)) :
    Parallel W V (w.Carried (Option.map w.declared)) (enclosing? q t n x kind)
      (enclosing? q' (w.tree t) (w.index t n) x kind) := by
  rw [enclosing?, enclosing?, (w.embeds_tree (Store.IsPlain.mem_held ht)).ancestors_eq]
  refine (w.parallel_inScopes? ht hx kind n hobjects).bind ?_
  rintro found _ ⟨hfound, rfl⟩
  cases found with
  | some found => exact .pure ⟨hfound, rfl⟩
  | none => exact w.parallel_inModule? ht hx kind

/-- A name without a receiver has the same meaning if it has in the object bodies around it, and if
it stands for the same import or means something else before imports are looked at. -/
theorem parallel_unqualified? {q q' : Typing} (kind : MemberKind) {n : Nat}
    (hobjects : ∀ scope ∈ t.ancestors n, t.kind? scope = some .objectBody →
      Parallel W V (w.Carried (Option.map w.declared)) (inObject? q t scope x kind)
        (inObject? q' (w.tree t) (w.index t scope) x kind))
    (himport : import? (w.tree t) x kind = (import? t x kind).map w.declared ∨
      ∀ found, Answers V (enclosing? q' (w.tree t) (w.index t n) x kind) found → found ≠ none) :
    Parallel W V (w.Carried (Option.map w.declared)) (unqualified? q t n x kind)
      (unqualified? q' (w.tree t) (w.index t n) x kind) := by
  rw [unqualified?_eq, unqualified?_eq]
  obtain ⟨found, _, hfound, hfound', hground, rfl⟩ := w.parallel_enclosing? ht hx kind hobjects
  cases found with
  | some found =>
    exact ⟨some found, some (w.declared found), hfound.bind (.pure _), hfound'.bind (.pure _),
      hground, rfl⟩
  | none =>
    have hsame := himport.resolve_right fun hsettled => hsettled none hfound' rfl
    have hrest : Parallel W V (w.Carried (Option.map w.declared))
        (match import? t x kind with
          | some found => pure (some found)
          | none => inModule? BaseModule.tree x kind : Query (Option Declared))
        (match import? (w.tree t) x kind with
          | some found => pure (some found)
          | none => inModule? BaseModule.tree x kind) := by
      rw [hsame]
      cases himported : import? t x kind with
      | some found => exact .pure ⟨himported ▸ grounded_import? ht x kind, rfl⟩
      | none =>
        -- the base module is not the widened one
        have hbase := w.parallel_inModule? .base (.inr w.module_ne_base.symm) kind (x := x)
        rw [w.tree_base] at hbase
        exact hbase
    obtain ⟨a, b, ha, hb, hab⟩ := hrest
    exact ⟨a, b, hfound.bind ha, hfound'.bind hb, hab⟩

end Names

end Widening

end PklAnalysis
