import PklAnalysis.Proofs.Resolution.WidenedAncestors

/-!
# Members of values over a widened store

A value shows the members of the same classes, gives the same arguments to the class of a member and
holds the same elements.  So a name other than that of the hidden members means the same member of
it, and a property of such a name is annotated in the same way.
-/

namespace PklAnalysis.Widening

open Session

variable {W V : Store} {name : String} (w : Widening W V name)

/-! ## Through aliases, question marks and unions -/

theorem ty_union (ms : List Ty) : w.ty (.union ms) = .union (ms.map w.ty) := by
  rw [Relabelling.ty, Relabelling.tys_eq_map]

theorem ty_function (ps : List Ty) (r : Ty) :
    w.ty (.function ps r) = .function (ps.map w.ty) (w.ty r) := by
  rw [Relabelling.ty, Relabelling.tys_eq_map]

theorem ty_plainBase {d : DeclRef} (hd : d ∈ BaseModule.types.decls) :
    w.ty (BaseTypes.plain d) = BaseTypes.plain d := Relabelling.ty_plain w.base_decls hd

theorem ty_functionView (ps : List Ty) (r : Ty) :
    w.ty (BaseModule.types.functionView ps r) =
      BaseModule.types.functionView (ps.map w.ty) (w.ty r) :=
  Relabelling.ty_functionView w.base_decls ps r

theorem parallel_receiverClassesWithin (depth : Nat) {t : Ty} (ht : Grounded W.held t) :
    Parallel W V (w.Carried (List.map w.decl)) (receiverClassesWithin depth t)
      (receiverClassesWithin depth (w.ty t)) := by
  unfold receiverClassesWithin
  refine (Parallel.lift (w.parallel_expand ht)).bind ?_
  rintro type _ ⟨htype, rfl⟩
  cases type with
  | «class» d args =>
    rw [ty_class]
    exact .pure ⟨.cons (Grounded.class_iff.mp htype).1 .nil, rfl⟩
  | literal text =>
    refine .pure ⟨.cons (Grounded.baseTypes _ (by simp)) .nil, ?_⟩
    exact congrArg (fun d => [d]) (w.base_decls _ (by simp)).symm
  | function ps r =>
    obtain ⟨hps, hr⟩ := Grounded.function_iff.mp htype
    have hview := hps.functionView hr
    rw [ty_function]
    simp only [← ty_functionView]
    cases hclass : BaseModule.types.functionView ps r with
    | «class» d args =>
      rw [hclass] at hview
      rw [ty_class]
      exact .pure ⟨.cons (Grounded.class_iff.mp hview).1 .nil, rfl⟩
    | _ => exact .pure ⟨.nil, rfl⟩
  | nullable a =>
    cases depth with
    | zero => exact .failure
    | succ depth =>
      refine (parallel_receiverClassesWithin depth (Grounded.nullable_iff.mp htype)).bind ?_
      rintro ds _ ⟨hds, rfl⟩
      refine .pure ⟨hds.append (.cons (Grounded.baseTypes _ (by simp)) .nil), ?_⟩
      rw [List.map_append, List.map_singleton, w.base_decls BaseModule.types.null (by simp)]
  | union ms =>
    rw [ty_union]
    cases depth with
    | zero => exact .failure
    | succ depth =>
      have hms : w.Carried (List.map w.ty) ms (ms.map w.ty) := ⟨Grounded.union_iff.mp htype, rfl⟩
      refine (Parallel.mapM hms.forall₂ ?_ (P := w.Carried (List.map w.decl))).bind ?_
      · rintro t _ ⟨ht, rfl⟩
        exact parallel_receiverClassesWithin depth ht
      · intro dss dss' hdss
        obtain ⟨hground, rfl⟩ := Carried.of_forall₂ hdss
        refine .pure ⟨fun d hd => ?_, (List.map_flatten ..).symm⟩
        obtain ⟨ds, hds, hd⟩ := List.mem_flatten.mp hd
        exact hground ds hds d hd
  | _ => exact .pure ⟨.nil, rfl⟩
termination_by depth

theorem parallel_receiverClasses {t : Ty} (ht : Grounded W.held t) :
    Parallel W V (w.Carried (List.map w.decl)) (receiverClasses t) (receiverClasses (w.ty t)) := by
  rw [receiverClasses, receiverClasses, bounded_atDepth, bounded_atDepth]
  refine (w.parallel_receiverClassesWithin maxUnfolding ht).run.bind fun o o' ho => .pure ?_
  cases ho with
  | none => exact ⟨.nil, rfl⟩
  | some hds => exact hds

/-- A name other than that of the hidden members means the same member of a value. -/
theorem parallel_memberOfType? {t : Ty} (ht : Grounded W.held t) {x : String} (hx : x ≠ name)
    (kind : MemberKind) :
    Parallel W V (w.Carried (Option.map w.member)) (memberOfType? t x kind)
      (memberOfType? (w.ty t) x kind) := by
  refine (w.parallel_receiverClasses ht).bind fun ds ds' hds => ?_
  refine (Parallel.firstAnswer hds.forall₂ ?_).imp fun o p => carried_option_iff.mpr
  rintro d _ ⟨hd, rfl⟩
  exact (w.parallel_memberOfClass? hd (.inl hx) kind).imp fun o p => carried_option_iff.mp

/-- If no tree declares a member with the name of the hidden members, values have none of the name
but them. -/
theorem parallel_hiddenMemberOfType? {t : Ty} (ht : Grounded W.held t)
    (hfresh : ∀ u ∈ W.held, ¬ u.Declares name) (kind : MemberKind) :
    Parallel W V (fun o o' => o = none ∧ ∀ m ∈ o', m.isLocal = true ∧ m.site.module = w.module)
      (memberOfType? t name kind) (memberOfType? (w.ty t) name kind) := by
  refine (w.parallel_receiverClasses ht).bind ?_
  rintro ds _ ⟨hds, rfl⟩
  induction ds with
  | nil => exact .pure ⟨rfl, by simp⟩
  | cons d ds ih =>
    obtain ⟨hd, hds⟩ := List.forall_mem_cons.mp hds
    obtain ⟨o, o', ho, ho', rfl, hhidden⟩ := w.parallel_hiddenMember? hd hfresh kind
    -- the first store goes on looking, even where the second one has found a hidden member
    obtain ⟨p, p', hp, hp', rfl, hrest⟩ := ih hds
    cases o' with
    | none => exact ⟨none, p', ho.bind hp, ho'.bind hp', rfl, hrest⟩
    | some m => exact ⟨none, some m, ho.bind hp, ho'.bind (.pure _), rfl, hhidden⟩

theorem parallel_ownerArgsWithin (owner : DeclRef) (depth : Nat) {t : Ty}
    (ht : Grounded W.held t) :
    Parallel W V (w.Carried (Option.map (List.map w.ty))) (ownerArgsWithin owner depth t)
      (ownerArgsWithin (w.decl owner) depth (w.ty t)) := by
  unfold ownerArgsWithin
  refine (Parallel.lift (w.parallel_expand ht)).bind ?_
  rintro type _ ⟨htype, rfl⟩
  cases type with
  | «class» d args =>
    have hview := w.parallel_asSupertype? htype owner
    rw [ty_class] at hview ⊢
    exact Parallel.lift hview
  | function ps r =>
    obtain ⟨hps, hr⟩ := Grounded.function_iff.mp htype
    have hview := w.parallel_asSupertype? (hps.functionView hr) owner
    rw [ty_functionView] at hview
    rw [ty_function]
    exact Parallel.lift hview
  | nullable a =>
    cases depth with
    | zero => exact .failure
    | succ depth => exact parallel_ownerArgsWithin owner depth (Grounded.nullable_iff.mp htype)
  | union ms =>
    rw [ty_union]
    cases depth with
    | zero => exact .failure
    | succ depth =>
      have hms : w.Carried (List.map w.ty) ms (ms.map w.ty) := ⟨Grounded.union_iff.mp htype, rfl⟩
      have hfirst : Parallel W V (Option.Rel (w.Carried (List.map w.ty)))
          (firstAnswer (ownerArgsWithin owner depth) ms)
          (firstAnswer (ownerArgsWithin (w.decl owner) depth) (ms.map w.ty)) := by
        refine .firstAnswer hms.forall₂ ?_
        rintro t _ ⟨ht, rfl⟩
        exact Parallel.imp (parallel_ownerArgsWithin owner depth ht)
          fun o p => carried_option_iff.mp
      exact hfirst.imp fun o p => carried_option_iff.mpr
  | _ => exact .pure ⟨.none, rfl⟩
termination_by depth

theorem parallel_ownerArgs? {t : Ty} (ht : Grounded W.held t) (owner : DeclRef) :
    Parallel W V (w.Carried (Option.map (List.map w.ty))) (ownerArgs? t owner)
      (ownerArgs? (w.ty t) (w.decl owner)) := by
  rw [ownerArgs?, ownerArgs?, bounded_atDepth, bounded_atDepth]
  refine (w.parallel_ownerArgsWithin owner maxUnfolding ht).run.bind fun o o' ho => .pure ?_
  cases ho with
  | none => exact ⟨.none, rfl⟩
  | some hargs => exact hargs

theorem parallel_memberTypeOn {receiver : Ty} (hreceiver : Grounded W.held receiver)
    (owner : DeclRef) {declared : Ty} (hdeclared : Grounded W.held declared) :
    Parallel W V (w.Carried w.ty) (memberTypeOn receiver owner declared)
      (memberTypeOn (w.ty receiver) (w.decl owner) (w.ty declared)) := by
  refine w.parallel_carried (steady_memberTypeOn hreceiver owner hdeclared) ?_
  refine (w.parallel_ownerArgs? hreceiver owner).bind ?_
  rintro args _ ⟨-, rfl⟩
  cases args with
  | none => exact .pure (Relabelling.ty_erase declared).symm
  | some args =>
    refine .pure ?_
    rw [Relabelling.ty_erase, Relabelling.ty_substitute w.base_decls]
    rfl

/-! ## Elements -/

theorem ty_nonNull (t : Ty) : nonNull (w.ty t) = w.ty (nonNull t) := by
  cases t <;> rfl

/-- The keys and values of an object are carried over with the arguments of its class. -/
theorem elementsBy_tys {e : DeclRef × (List Ty → Ty × Ty)}
    (he : e ∈ elementsBy BaseModule.types) (args : List Ty) :
    e.2 (args.map w.ty) = ((e.2 args).map w.ty w.ty) := by
  have hint := w.ty_plainBase (d := BaseModule.types.int) (by simp)
  have harg (i : Nat) := (Relabelling.ty_argAt (r := w.toRelabelling) args i).symm
  simp only [elementsBy, List.mem_cons, List.not_mem_nil, or_false] at he
  rcases he with rfl | rfl | rfl | rfl | rfl | rfl <;>
    simp only [Prod.map, harg, hint]

theorem mem_decls_of_elementsBy {e : DeclRef × (List Ty → Ty × Ty)}
    (he : e ∈ elementsBy BaseModule.types) : e.1 ∈ BaseModule.types.decls := by
  simp only [elementsBy, List.mem_cons, List.not_mem_nil, or_false] at he
  rcases he with rfl | rfl | rfl | rfl | rfl | rfl <;> simp

theorem parallel_elementTypes? {t : Ty} (ht : Grounded W.held t) :
    Parallel W V (w.Carried (Option.map (Prod.map w.ty w.ty))) (elementTypes? t)
      (elementTypes? (w.ty t)) := by
  refine w.parallel_carried (steady_elementTypes? ht) ?_
  have hsame : List.Forall₂ (fun e e' => e' = e ∧ e ∈ elementsBy BaseModule.types)
      (elementsBy BaseModule.types) (elementsBy BaseModule.types) :=
    List.forall₂_same.mpr fun e he => ⟨rfl, he⟩
  have hfirst : Parallel W V (Option.Rel fun a b => b = Prod.map w.ty w.ty a) (elementTypes? t)
      (elementTypes? (w.ty t)) := by
    refine .firstAnswer hsame ?_
    rintro e e' ⟨heq, he⟩
    subst heq
    have hview := w.parallel_asSupertype? ht e'.1
    rw [w.base_decls e'.1 (mem_decls_of_elementsBy he)] at hview
    refine hview.bind ?_
    rintro args _ ⟨-, rfl⟩
    cases args with
    | none => exact .pure .none
    | some args => exact .pure (.some (w.elementsBy_tys he args))
  refine hfirst.imp fun o p h => ?_
  cases h with
  | none => rfl
  | some h => exact congrArg some h

/-! ## Annotations of properties -/

theorem parallel_inheritedType? {c c' : ClassDef} (hc : w.ClassLike c c') {x : String}
    (hx : x ≠ name) :
    Parallel W V (w.Carried (Option.map w.ty)) (inheritedType? x c) (inheritedType? x c') := by
  refine w.parallel_carried (steady_inheritedType? x hc.grounded) ?_
  have hfirst := hc.members.first?_eq hx .property
  rw [MemberCache.first?, MemberCache.first?] at hfirst
  rw [inheritedType?, inheritedType?, hfirst]
  cases c.members.find? fun m => m.kind = .property && m.name = x with
  | none => exact .pure rfl
  | some m =>
    have hmodule : (w.member m).site.module = m.site.module := w.module_site m.site
    simp only [Option.map_some, hmodule]
    refine (w.parallel_tree? m.site.module).bind ?_
    rintro found _ ⟨⟨hfound, rfl⟩, hid⟩
    cases found with
    | none => exact .pure rfl
    | some t =>
      have hnode : (w.member m).site.node = w.index t m.site.node := w.node_site (hid t rfl)
      have ht := hfound.of_some
      simp only [Option.map_some, hnode, (w.embeds_tree (Store.IsPlain.mem_held ht)).kind]
      cases hkind : t.kind? m.site.node with
      | none => exact .pure rfl
      | some kind =>
        cases kind with
        | property h =>
          simp only
          cases htype : h.type with
          | none => exact Parallel.pure (n := Query) rfl
          | some a =>
            refine (w.parallel_annotation ht hkind (by simp [annotationsAt, htype])).map ?_
            rintro type _ ⟨-, rfl⟩
            rfl
        | _ => exact .pure rfl

/-- The annotation of a property that has one itself or another name than the hidden members. -/
theorem parallel_declaredPropertyType? {t : Tree} (ht : Grounded W.held t) {n : Nat}
    (hx : ∀ h, t.kind? n = some (.property h) → h.type = none → h.name ≠ name) :
    Parallel W V (w.Carried (Option.map w.ty)) (declaredPropertyType? t n)
      (declaredPropertyType? (w.tree t) (w.index t n)) := by
  have hmem := Store.IsPlain.mem_held ht
  refine w.parallel_carried (steady_declaredPropertyType? ht n) ?_
  rw [declaredPropertyType?, declaredPropertyType?, (w.embeds_tree hmem).kind]
  cases hkind : t.kind? n with
  | none => exact .pure rfl
  | some kind =>
    cases kind with
    | property h =>
      cases htype : h.type with
      | some a =>
        simp only [htype]
        refine (w.parallel_annotation ht hkind (by simp [annotationsAt, htype])).map ?_
        rintro type _ ⟨-, rfl⟩
        rfl
      | none =>
        simp only [htype, w.ownerOf?_tree hmem]
        cases howner : ownerOf? t n with
        | none => exact .pure rfl
        | some owner =>
          refine (w.parallel_ancestors (ht.ownerOf? n owner howner)).bind ?_
          rintro chain chain' ⟨hchain, -⟩
          have hfirst : Parallel W V (Option.Rel (w.Carried w.ty))
              (firstAnswer (inheritedType? h.name) (chain.classes.drop 1))
              (firstAnswer (inheritedType? h.name) (chain'.classes.drop 1)) := by
            refine .firstAnswer (List.forall₂_drop 1 hchain.classes) fun c c' hc => ?_
            exact (w.parallel_inheritedType? hc (hx h hkind htype)).imp
              fun o p => carried_option_iff.mp
          exact hfirst.imp fun o p hop => (carried_option_iff.mpr hop).2
    | _ => exact .pure rfl

end PklAnalysis.Widening
