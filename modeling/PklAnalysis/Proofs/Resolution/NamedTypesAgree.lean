import PklAnalysis.Proofs.Resolution.LastingAnswers

/-!
# Type names in expressions and annotations

A name is looked for in different ways in an expression and in an annotation: an expression asks for
bindings and members as well, and finds an import before the base module whatever the import is of.
Where an identifier means a class or a type alias, however, an annotation of the same name at the
same place is the type of that declaration, whichever of the two a session is asked for first.
-/

namespace PklAnalysis

namespace Declared

/-- A class or type alias is declared. -/
def IsOfType (d : Declared) : Prop := d.kind = .classDecl ∨ d.kind = .typeAlias

/-- A type is the class or the type alias that is declared, applied to arguments. -/
def Declares (d : Declared) : Ty → Prop
  | .class r _ => d.kind = .classDecl ∧ r = ⟨d.site, d.name⟩
  | .typeAlias r _ => d.kind = .typeAlias ∧ r = ⟨d.site, d.name⟩
  | _ => False

theorem not_isOfType_ofMember (m : MemberDef) : ¬(ofMember m).IsOfType := by
  rw [IsOfType, ofMember]
  cases m.kind <;> simp [kindOf]

end Declared

namespace Session

variable {W : Store} {s s' : Session} {t : Tree} {name : String} {d : Declared}

/-! ## The types of modules -/

/-- The same node of a module is found for a name in an expression and in an annotation. -/
theorem rel_typeIn? (t : Tree) (name : String) (args : List Ty) :
    Option.Rel Declared.Declares (typeDeclared? t name) (typeIn? t name args) := by
  rw [typeDeclared?, typeIn?]
  cases hfound : t.findType? name with
  | none => exact .none
  | some n =>
    have hname := List.find?_some hfound
    simp only [Option.bind_eq_bind, Option.bind_some]
    split at hname
    · next hkind =>
      rw [hkind]
      exact .some ⟨rfl, rfl⟩
    · next hkind =>
      rw [hkind]
      exact .some ⟨rfl, rfl⟩
    · cases hname

theorem rel_exportedTypeIn? (t : Tree) (name : String) (args : List Ty) :
    Option.Rel Declared.Declares (exportedType? t name) (exportedTypeIn? t name args) := by
  have hrel := rel_typeIn? t name args
  rw [exportedType?, exportedTypeIn?]
  cases hfound : t.findType? name with
  | none =>
    rw [typeDeclared?, hfound]
    exact .none
  | some n =>
    rw [typeDeclared?, hfound] at hrel ⊢
    simp only [Option.bind_eq_bind, Option.bind_some, Option.pure_def, Declared.atNode,
      Option.filter_some] at hrel ⊢
    cases isLocalNode t n with
    | true => exact .none
    | false => exact hrel

theorem rel_firstExported? (ts : List Tree) (name : String) (args : List Ty) :
    Option.Rel Declared.Declares (ts.findSome? (exportedType? · name))
      (firstExported? ts name args) := by
  rw [firstExported?]
  induction ts with
  | nil => exact .none
  | cons t ts ih =>
    have hrel := rel_exportedTypeIn? t name args
    rw [List.findSome?_cons, List.findSome?_cons]
    generalize exportedType? t name = o at hrel
    generalize exportedTypeIn? t name args = o' at hrel
    cases hrel with
    | none => exact ih
    | some h => exact .some h

/-! ## What an identifier means -/

section Scopes

variable {child : Nat}

theorem not_isOfType_bound? {scope : Nat} {kind : DeclarationKind} {names : List String}
    (hkind : kind = .letBinding ∨ kind = .forBinding)
    (h : bound? t scope child kind name names = some d) : ¬d.IsOfType := by
  rw [bound?, Option.ite_none_right_eq_some] at h
  obtain rfl := Option.some.inj h.2
  rw [Declared.IsOfType, Declared.atNode]
  rcases hkind with rfl | rfl <;> simp

theorem not_isOfType_parameter? {scope : Nat} (h : parameter? t scope child name = some d) :
    ¬d.IsOfType := by
  rw [parameter?] at h
  split at h
  · cases h
  · obtain ⟨n, -, rfl⟩ := Option.map_eq_some_iff.mp h
    simp [Declared.IsOfType, Declared.atNode]

theorem not_isOfType_declaredMember? {c : DeclRef} {kind : MemberKind}
    (h : (declaredMember? c name kind s).1 = some d) : ¬d.IsOfType := by
  obtain ⟨m, -, rfl⟩ := Option.map_eq_some_iff.mp h
  exact Declared.not_isOfType_ofMember m

theorem not_isOfType_inObject? {q : Typing} {body : Nat} {kind : MemberKind}
    (h : (inObject? q t body name kind s).1 = some d) : ¬d.IsOfType := by
  generalize hq : inObject? q t body name kind = found at h
  unfold inObject? at hq
  simp only at hq
  split at hq
  · subst hq
    obtain rfl := Option.some.inj h
    simp [Declared.IsOfType, Declared.atNode]
  · subst hq
    obtain ⟨m, -, rfl⟩ := Option.map_eq_some_iff.mp h
    exact Declared.not_isOfType_ofMember m

/-- The scopes around an identifier declare no classes and no type aliases. -/
theorem not_isOfType_inScope? {q : Typing} {scope : Nat}
    (h : (inScope? q t scope child name .property s).1 = some d) : ¬d.IsOfType := by
  generalize hq : inScope? q t scope child name .property = found at h
  unfold inScope? at hq
  split at hq
  · subst hq
    exact not_isOfType_bound? (.inl rfl) h
  · subst hq
    exact not_isOfType_parameter? h
  · subst hq
    exact not_isOfType_parameter? h
  · subst hq
    exact not_isOfType_bound? (.inr rfl) h
  · subst hq
    exact not_isOfType_inObject? h
  · split at hq
    · subst hq
      exact not_isOfType_declaredMember? h
    · subst hq
      cases h
  · subst hq
    cases h

theorem not_isOfType_inScopes? {q : Typing} {scopes : List Nat}
    (h : (inScopes? q t name .property child scopes s).1 = some d) : ¬d.IsOfType := by
  induction scopes generalizing s child with
  | nil => cases h
  | cons scope scopes ih =>
    rw [inScopes?, bind_apply] at h
    cases hfound : (inScope? q t scope child name .property s).1 with
    | some found =>
      rw [hfound] at h
      exact not_isOfType_inScope? (hfound.trans h)
    | none =>
      rw [hfound] at h
      exact ih h

end Scopes

/-- What a name means in a module: a member, or else a type of the module, or else a type that one
of its supermodules shows. -/
theorem inModule?_apply (t : Tree) (name : String) (s : Session) :
    inModule? t name .property s =
      match declaredMember? (moduleDecl t) name .property s with
      | (some found, s') => (some found, s')
      | (none, s') => match typeDeclared? t name with
        | some found => (some found, s')
        | none =>
          ((supermodules t s').1.findSome? (exportedType? · name), (supermodules t s').2) := by
  unfold inModule?
  rw [bind_apply]
  generalize declaredMember? (moduleDecl t) name .property s = member
  obtain ⟨_ | found, s'⟩ := member
  · cases typeDeclared? t name with
    | none => rfl
    | some found => rfl
  · rfl

/-- The base module has no supermodules. -/
theorem supermodules_base (s : Session) : supermodules BaseModule.tree s = ([], s) := by
  have hclause : BaseModule.tree.clause? = none := by decide +kernel
  rw [supermodules, supermodule?, hclause]
  rfl

/-- Where a name means a type in a module or nothing at all, that is what the module declares, or
else what the first supermodule shows that shows anything. -/
theorem inModule?_of_isOfType {o : Option Declared} (h : (inModule? t name .property s).1 = o)
    (htype : ∀ d ∈ o, d.IsOfType) :
    let s' := (declaredMember? (moduleDecl t) name .property s).2
    o.isSome ∧ typeDeclared? t name = o ∨ typeDeclared? t name = none ∧
      (supermodules t s').1.findSome? (exportedType? · name) = o ∧
        (inModule? t name .property s).2 = (supermodules t s').2 := by
  rw [inModule?_apply] at h ⊢
  generalize hmember : declaredMember? (moduleDecl t) name .property s = member at h ⊢
  obtain ⟨_ | found, s'⟩ := member
  · cases hown : typeDeclared? t name with
    | some found =>
      rw [hown] at h
      exact .inl ⟨h ▸ rfl, h⟩
    | none =>
      rw [hown] at h
      exact .inr ⟨rfl, h, rfl⟩
  · have hfound := congrArg Prod.fst hmember
    exact absurd (htype found h.symm) (not_isOfType_declaredMember? hfound)

/-- An identifier that means a type means it in its module, or else, if no import binds its name, in
the base module. -/
theorem unqualified?_of_isOfType {q : Typing} {n : Nat}
    (h : (unqualified? q t n name .property s).1 = some d) (htype : d.IsOfType) :
    let s' := (inScopes? q t name .property n (t.ancestors n) s).2
    let inOwn := inModule? t name .property s'
    inOwn.1 = some d ∧ (unqualified? q t n name .property s).2 = inOwn.2 ∨
      inOwn.1 = none ∧ import? t name .property = none ∧
        (inModule? BaseModule.tree name .property inOwn.2).1 = some d ∧
          (unqualified? q t n name .property s).2 =
            (inModule? BaseModule.tree name .property inOwn.2).2 := by
  unfold unqualified? at h ⊢
  rw [bind_apply] at h ⊢
  generalize hscopes : inScopes? q t name .property n (t.ancestors n) s = around at h ⊢
  obtain ⟨_ | found, s'⟩ := around
  · simp only at h ⊢
    rw [bind_apply] at h ⊢
    generalize inModule? t name .property s' = inOwn at h ⊢
    obtain ⟨_ | found, s''⟩ := inOwn
    · cases himport : import? t name .property with
      | none =>
        rw [himport] at h
        exact .inr ⟨rfl, rfl, h, rfl⟩
      | some found =>
        rw [himport] at h
        obtain rfl := Option.some.inj h
        obtain ⟨_, -, rfl⟩ := Option.map_eq_some_iff.mp himport
        simp [Declared.IsOfType, Declared.atNode] at htype
    · exact .inl ⟨h, rfl⟩
  · obtain rfl := Option.some.inj h
    exact absurd htype (not_isOfType_inScopes? (congrArg Prod.fst hscopes))

/-- A name that its own module gives no type means a type that supermodules show, or else one of the
base module, if no import binds the name. -/
structure MeansBeyond (t : Tree) (name : String) (ms : List Tree) (d : Declared) : Prop where
  own : typeDeclared? t name = none
  found : ms.findSome? (exportedType? · name) = some d ∨
    ms.findSome? (exportedType? · name) = none ∧ import? t name .property = none ∧
      typeDeclared? BaseModule.tree name = some d

/-- Where an identifier means a type, that is the one of its module or is found beyond it, among the
supermodules that the session comes by when it looks for the name. -/
theorem IsReady.means_of_isOfType (h : IsReady W t s) {n : Nat}
    (hd : (unqualified? typing t n name .property s).1 = some d) (htype : d.IsOfType) :
    typeDeclared? t name = some d ∨ ∃ s', IsReady W t s' ∧ s.GrowsInto s' ∧
      (supermodules t s').2.GrowsInto (unqualified? typing t n name .property s).2 ∧
        MeansBeyond t name (supermodules t s').1 d := by
  have hsome : ∀ d' ∈ some d, d'.IsOfType := by
    rintro _ ⟨⟩
    exact htype
  obtain ⟨hready, hgrows⟩ := h.query
    (fun _ ht => faithful_inScopes? isFaithful_typing ht name .property n (t.ancestors n))
    (traced_inScopes? isTraced_typing t name .property n (t.ancestors n))
  obtain ⟨hready', hgrows'⟩ := hready.query
    (fun _ _ => faithful_declaredMember? (moduleDecl t) name .property)
    (traced_declaredMember? t (moduleDecl t) name .property)
  rcases unqualified?_of_isOfType hd htype with ⟨hfound, hlast⟩ | ⟨hnone, himport, hbase, hlast⟩
  · rcases inModule?_of_isOfType hfound hsome with ⟨-, hown⟩ | ⟨hown, hshown, hlast'⟩
    · exact .inl hown
    · refine .inr ⟨_, hready', hgrows.trans hgrows', ?_, hown, .inl hshown⟩
      rw [hlast, hlast']
      exact .refl _
  · rcases inModule?_of_isOfType hnone nofun with ⟨hsome, -⟩ | ⟨hown, hshown, hlast'⟩
    · cases hsome
    · have hbeyond := (hready'.query (fun _ _ => faithful_supermodules t)
        ((traced_lookups t).supermodules t)).1
      rw [hlast'] at hbase hlast
      refine .inr ⟨_, hready', hgrows.trans hgrows', ?_, hown, .inr ⟨hshown, himport, ?_⟩⟩
      · rw [hlast]
        exact (hbeyond.query (fun _ _ => faithful_inModule? .base name .property)
          (traced_inModule? t BaseModule.tree name .property)).2
      · rcases inModule?_of_isOfType hbase hsome with ⟨-, hown⟩ | ⟨-, hshown, -⟩
        · exact hown
        · rw [supermodules_base] at hshown
          cases hshown

/-! ## What an annotation means -/

/-- An annotation of a name that is no type parameter is looked for by its name. -/
theorem resolveType_named {n : Nat} (hdot : Text.cut? '.' name = none)
    (hparam : typeParam? t n name = none) (s : Session) :
    resolveType t n (.named name []) s =
      ((simpleType? t name [] s).1.getD .unknown, (simpleType? t name [] s).2) := by
  rw [resolveType]
  simp only [List.isEmpty_nil, if_true, hparam]
  rw [resolveTypes, pure_bind, namedType]
  simp only [hdot]
  rfl

/-- A name that no import binds is bound by no import that is not of many modules. -/
theorem importTarget?_of_import? (h : import? t name .property = none) :
    importTarget? t name = pure none := by
  rw [import?, Option.map_eq_none_iff, List.find?_eq_none] at h
  rw [importTarget?, List.find?_eq_none.mpr]
  intro e he hbinds
  rw [Bool.and_eq_true] at hbinds
  exact h e he hbinds.2

/-- What an annotation means of which the module declares no type is looked for among the
supermodules first. -/
theorem simpleType?_of_typeIn? {args : List Ty} (h : typeIn? t name args = none) :
    simpleType? t name args = do
      let ms ← supermodules t
      match firstExported? ms name args with
      | some found => return some found
      | none =>
        match ← importTarget? t name with
        | some m => return some (moduleType m)
        | none => return typeIn? BaseModule.tree name args := by
  unfold simpleType?
  rw [h]
  refine congrArg (supermodules t >>= ·) (funext fun ms => ?_)
  cases firstExported? ms name args with
  | none => rfl
  | some found => rfl

theorem typeIn?_of_typeDeclared? (h : typeDeclared? t name = none) (args : List Ty) :
    typeIn? t name args = none := by
  have hrel := rel_typeIn? t name args
  rw [h] at hrel
  generalize typeIn? t name args = o at hrel ⊢
  cases hrel
  rfl

/-- Where the declaration of a name is found, so is its type. -/
theorem exists_declares {o : Option Ty} (h : Option.Rel Declared.Declares (some d) o) :
    ∃ type, o = some type ∧ d.Declares type := by
  cases h with
  | some h => exact ⟨_, rfl, h⟩

/-- What a name means beyond its module is what an annotation of the name means. -/
theorem MeansBeyond.declares {ms : List Tree} (h : MeansBeyond t name ms d) (args : List Ty)
    (hms : (supermodules t s).1 = ms) :
    ∃ type, (simpleType? t name args s).1 = some type ∧ d.Declares type := by
  have hshown := rel_firstExported? ms name args
  rw [simpleType?_of_typeIn? (typeIn?_of_typeDeclared? h.own args), bind_apply, hms]
  rcases h.found with hfound | ⟨hnone, himport, hbase⟩
  · rw [hfound] at hshown
    obtain ⟨type, htype, hdeclares⟩ := exists_declares hshown
    rw [htype]
    exact ⟨type, rfl, hdeclares⟩
  · have hfirst : firstExported? ms name args = none := by
      rw [hnone] at hshown
      generalize firstExported? ms name args = o at hshown ⊢
      cases hshown
      rfl
    rw [hfirst, importTarget?_of_import? himport]
    exact exists_declares (hbase ▸ rel_typeIn? BaseModule.tree name args)

/-- Reading an annotation a session remembers the supermodules by which it has come. -/
theorem IsReady.grows_simpleType? (h : IsReady W t s) {args : List Ty}
    (hown : typeIn? t name args = none) :
    (supermodules t s).2.GrowsInto (simpleType? t name args s).2 := by
  have hlookups := traced_lookups t
  have hnext := (h.query (fun _ _ => faithful_supermodules t) (hlookups.supermodules t)).1
  rw [simpleType?_of_typeIn? hown, bind_apply]
  refine (hnext.inStep.query hnext.held ?_).grows
  split
  · exact .pure _
  · refine (hlookups.importTarget? t name).bind fun found => ?_
    cases found with
    | some m => exact .pure _
    | none => exact .pure _

/-! ## Both -/

/-- In every session over a proper store, whatever it has been asked before and in between, an
annotation of a name means the class or type alias that an identifier of this name means at the same
node, unless the name is that of a type parameter there.  It does not matter which of them is asked
for first; only the chain of supermodules must come to an end. -/
theorem declares_of_resolve (hW : W.IsProper) (hends : W.FollowsToEnd t) {n : Nat}
    (hident : t.kind? n = some (.ident name)) (hdot : Text.cut? '.' name = none)
    (hparam : typeParam? t n name = none) (hs : Consulted W s)
    (ht : s.store.current? t.id = some t) (hs' : Consulted W s')
    (ht' : s'.store.current? t.id = some t)
    (horder : Precedes (resolve t n s).2 s' ∨ Precedes (resolveType t n (.named name []) s').2 s)
    (hd : (resolve t n s).1 = some d) (htype : d.IsOfType) :
    d.Declares (resolveType t n (.named name []) s').1 := by
  have hready := hs.isReady hW ht
  have hready' := hs'.isReady hW ht'
  have hresolve : resolve t n = adopt t >>= fun _ => unqualified? typing t n name .property := by
    unfold resolve resolveIn
    rw [hident]
  obtain ⟨hadopted, hgrows⟩ := hready.query (fun _ ht => faithful_adopt ht) (traced_adopt t)
  have hasked := hready.query (fun _ ht => faithful_resolve ht n) (traced_resolve n)
  have hread := hready'.query (fun _ ht => faithful_resolveType ht n (.named name []))
    ((traced_lookups t).resolveType t n (.named name []))
  rw [hresolve] at hd horder hasked
  rw [bind_apply] at hd horder hasked
  rw [resolveType_named hdot hparam] at horder hread ⊢
  suffices hfound : ∃ type, (simpleType? t name [] s').1 = some type ∧ d.Declares type by
    obtain ⟨type, hsimple, hdeclares⟩ := hfound
    rwa [hsimple]
  rcases hadopted.means_of_isOfType hd htype with hown | ⟨s₁, hready₁, hgrows₁, hgrows₂, hbeyond⟩
  · obtain ⟨type, hfound, hdeclares⟩ := exists_declares (hown ▸ rel_typeIn? t name [])
    refine ⟨type, ?_, hdeclares⟩
    unfold simpleType?
    rw [hfound]
    rfl
  · refine hbeyond.declares [] ?_
    rcases horder with horder | horder
    · have hlater := (horder.goesOn hasked.1.inStep).2
      exact hready₁.supermodules_again hready' hends (hgrows₂.trans hlater)
    · have hlater := (horder.goesOn hread.1.inStep).2
      have hsimple := hready'.grows_simpleType? (typeIn?_of_typeDeclared? hbeyond.own [])
      refine (hready'.supermodules_again hready₁ hends ?_).symm
      exact (hsimple.trans hlater).trans (hgrows.trans hgrows₁)

/-- A module with a class. -/
def sketches : Source.Module :=
  { bareModule "file:///w/sketches.pkl" with
    classes := [⟨"Sketch", [], none, [], [], [], none⟩] }

/-- A module that amends this one and refers to the class by its name. -/
def drawing : Source.Module :=
  { bareModule "file:///w/drawing.pkl" with
    amends := some "sketches.pkl"
    properties := [⟨"x", none, [], some (.ident "Sketch"), none, none⟩] }

def drawingTree : Tree := drawing.treeAs (Store.idOf drawing.uri) 1

def drawingStore : Store := Store.ofSources default .none [sketches, drawing]

/-- The class of the amended module is meant by the identifier and then by the annotation. -/
theorem declares_of_resolve_drawing :
    (resolve drawingTree 3 (new drawingStore)).1 =
        some ⟨⟨Store.idOf sketches.uri, 1⟩, .classDecl, "Sketch"⟩ ∧
      Declared.Declares ⟨⟨Store.idOf sketches.uri, 1⟩, .classDecl, "Sketch"⟩
        (resolveType drawingTree 3 (.named "Sketch" [])
          (resolve drawingTree 3 (new drawingStore)).2).1 := by
  have hproper : drawingStore.IsProper := Store.isProper_ofSources (by decide)
  have hcurrent : (new drawingStore).store.current? drawingTree.id = some drawingTree := by
    decide
  have hcurrent' : (resolve drawingTree 3 (new drawingStore)).2.store.current? drawingTree.id =
      some drawingTree := by
    decide +kernel
  have hresolve : (resolve drawingTree 3 (new drawingStore)).1 =
      some ⟨⟨Store.idOf sketches.uri, 1⟩, .classDecl, "Sketch"⟩ := by
    decide +kernel
  exact ⟨hresolve, declares_of_resolve hproper (Store.followsToEnd_of_loader rfl _)
    (by decide +kernel) (by decide +kernel) (by decide +kernel) .new hcurrent
    (.ask .new hcurrent (.resolve 3)) hcurrent' (.inl .refl) hresolve (.inl rfl)⟩

/-- A module under the identity of the base module with a class that the base module has too. -/
def impostor : Source.Module :=
  { bareModule BaseModule.uri with
    classes := [⟨"Int", [], none, [], [], [], none⟩] }

/-- A module that amends it by a URI that is not that of the base module to the letter. -/
def follower : Source.Module :=
  { bareModule "file:///w/m.pkl" with
    amends := some " pkl:base"
    properties := [⟨"x", none, [], some (.ident "Int"), none, none⟩] }

def followerTree : Tree := follower.treeAs (Store.idOf follower.uri) 1

def followerStore : Store := Store.ofSources default .none [impostor, follower]

/-- When the URI is followed for the first time it leads to the module of the store, whose class the
annotation means.  Only the identity is remembered, so the identifier means that of the base module
afterwards. -/
theorem not_forall_declares_of_resolve :
    ¬∀ (W : Store) (t : Tree) (n : Nat) (name : String) (d : Declared) (s s' : Session),
      W.FollowsToEnd t → t.kind? n = some (.ident name) → Text.cut? '.' name = none →
      typeParam? t n name = none → Consulted W s → s.store.current? t.id = some t →
      Consulted W s' → s'.store.current? t.id = some t →
      (Precedes (resolve t n s).2 s' ∨ Precedes (resolveType t n (.named name []) s').2 s) →
      (resolve t n s).1 = some d → d.IsOfType →
      d.Declares (resolveType t n (.named name []) s').1 := by
  intro h
  have hcurrent : (new followerStore).store.current? followerTree.id = some followerTree := by
    decide
  have hread : (resolveType followerTree 3 (.named "Int" []) (new followerStore)).1 =
      .class ⟨⟨BaseModule.id, 1⟩, "Int"⟩ [] := by
    decide +kernel
  have hresolve : (resolve followerTree 3
      (resolveType followerTree 3 (.named "Int" []) (new followerStore)).2).1 =
      some ⟨⟨BaseModule.id, 44⟩, .classDecl, "Int"⟩ := by
    decide +kernel
  have hdeclares := h followerStore followerTree 3 "Int" _ _ _
    (Store.followsToEnd_of_loader rfl _) (by decide) (by decide)
    (by decide +kernel) (.read .new hcurrent 3 (.named "Int" [])) (by decide +kernel) .new
    hcurrent (.inr .refl) hresolve (.inl rfl)
  rw [hread] at hdeclares
  exact absurd hdeclares.2 (by decide)

end Session

end PklAnalysis
