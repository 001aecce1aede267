import PklAnalysis.Proofs.Resolution.WidenedInference
import PklAnalysis.Proofs.Source.Unplaced

/-!
# Local members and other modules

A local property or method is added to a module.  References of other modules that look for no name
among the members of types resolve to the same declarations as before.  All others do too if in no
other module the name is that of a property or object property without an annotation or stands
without a receiver in an object body, and if names after receivers are others, or if no module has a
member of the name.  Without these conditions the new member is seen in object bodies, and hides
inherited ones after receivers.

A local property or method may be added to a module or to one of its classes, at any place among the
members there.  Where the declarations stand does not matter: they may move in the text.  The tree
of the new description widens that of the old one.
-/

namespace PklAnalysis

/-! ## Wider trees -/

/-- Spans make no difference to whether a tree is wider. -/
theorem Tree.Widens.of_alike {f : Nat → Nat} {name : String} {t t' u u' : Tree}
    (h : t.Widens f name t') (hu : t.Alike u) (hu' : t'.Alike u') : u.Widens f name u' where
  id := by rw [hu'.id, h.id, hu.id]
  root := h.root
  kind n := by rw [hu'.kind, h.kind, hu.kind]
  parent n := by rw [hu'.parent, h.parent, hu.parent]
  children n := by
    simp only [hu'.children, hu'.kind, hu.children, hu.kind]
    exact h.children n

/-- A tree that widens another one has the same imports for its annotations. -/
theorem Tree.Widens.agreesWith {f : Nat → Nat} {name : String} {t t' : Tree}
    (h : t.Widens f name t') : t.AgreesWith t' := by
  intro _ _ _ _ _ _ _ x _
  rw [Tree.importNamed?, Tree.importNamed?, h.imports_eq, List.find?_map, Option.map_map]
  rfl

namespace Source

/-! ## Added members -/

/-- A description has one local property or method of a name more than another one, in the module or
in one of its classes. -/
inductive Module.AddsLocal (name : String) : Module → Module → Prop
  | property {m : Module} {before after : List Property} {p : Property}
      (hproperties : m.properties = before ++ after) (hlocal : .local ∈ p.modifiers)
      (hname : p.name = name) : AddsLocal name m { m with properties := before ++ p :: after }
  | method {m : Module} {before after : List Method} {d : Method}
      (hmethods : m.methods = before ++ after) (hlocal : .local ∈ d.modifiers)
      (hname : d.name = name) : AddsLocal name m { m with methods := before ++ d :: after }
  | classProperty {m : Module} {before after : List Class} {c : Class}
      {before' after' : List Property} {p : Property} (hclasses : m.classes = before ++ c :: after)
      (hproperties : c.properties = before' ++ after') (hlocal : .local ∈ p.modifiers)
      (hname : p.name = name) :
      AddsLocal name m
        { m with classes := before ++ { c with properties := before' ++ p :: after' } :: after }
  | classMethod {m : Module} {before after : List Class} {c : Class}
      {before' after' : List Method} {d : Method} (hclasses : m.classes = before ++ c :: after)
      (hmethods : c.methods = before' ++ after') (hlocal : .local ∈ d.modifiers)
      (hname : d.name = name) :
      AddsLocal name m
        { m with classes := before ++ { c with methods := before' ++ d :: after' } :: after }

theorem isHidden_propertyOutline {p : Property} {name : String} (hlocal : .local ∈ p.modifiers)
    (hname : p.name = name) : (propertyOutline p).kind.isHidden name = true := by
  simp [propertyOutline, Outline.kind, NodeKind.isHidden, modifiersOf, hlocal, hname]

theorem isHidden_methodOutline {d : Method} {name : String} (hlocal : .local ∈ d.modifiers)
    (hname : d.name = name) : (methodOutline d).kind.isHidden name = true := by
  simp [methodOutline, Outline.kind, NodeKind.isHidden, modifiersOf, hlocal, hname]

theorem Module.AddsLocal.uri {name : String} {m m' : Module} (h : m.AddsLocal name m') :
    m'.uri = m.uri := by
  cases h <;> rfl

theorem inserts_classOutline_property {c : Class} {before after : List Property} (p : Property)
    (hproperties : c.properties = before ++ after) :
    (propertyOutline p).Inserts (classOutline c)
      (classOutline { c with properties := before ++ p :: after }) := by
  rw [classOutline, classOutline, hproperties, List.map_append, List.map_append, List.map_cons,
    List.append_assoc, List.append_assoc, List.cons_append]
  exact .here rfl rfl rfl

theorem inserts_classOutline_method {c : Class} {before after : List Method} (d : Method)
    (hmethods : c.methods = before ++ after) :
    (methodOutline d).Inserts (classOutline c)
      (classOutline { c with methods := before ++ d :: after }) := by
  rw [classOutline, classOutline, hmethods, List.map_append, List.map_append, List.map_cons,
    ← List.append_assoc, ← List.append_assoc]
  exact .here rfl rfl rfl

/-- An outline that is inserted into that of a class is inserted into that of the module. -/
theorem inserts_outline_class {x : Outline} {m : Module} {before after : List Class} {c c' : Class}
    (hclasses : m.classes = before ++ c :: after)
    (h : x.Inserts (classOutline c) (classOutline c')) :
    x.Inserts m.outline { m with classes := before ++ c' :: after }.outline := by
  have hsplit : ∀ c : Class, { m with classes := before ++ c :: after }.outline =
      .node (.module m.name m.isOpen) none
        ((clauseOutline m ++ m.imports.map importOutline ++ before.map classOutline) ++
          classOutline c :: (after.map classOutline ++ m.aliases.map aliasOutline ++
            m.properties.map propertyOutline ++ m.methods.map methodOutline)) := by
    intro c
    simp only [Module.outline, List.map_append, List.map_cons, List.append_assoc, List.cons_append]
    rfl
  have hold : m.outline = { m with classes := before ++ c :: after }.outline := by
    rw [← hclasses]
  rw [hold, hsplit, hsplit]
  exact .inside rfl h rfl

/-- The outline of an added member is inserted into that of the module. -/
theorem Module.AddsLocal.inserts {name : String} {m m' : Module} (h : m.AddsLocal name m') :
    ∃ x : Outline, x.kind.isHidden name = true ∧ x.Inserts m.outline m'.outline := by
  cases h with
  | @property before after p hproperties hlocal hname =>
    refine ⟨propertyOutline p, isHidden_propertyOutline hlocal hname, ?_⟩
    rw [Module.outline, Module.outline, hproperties, List.map_append, List.map_append,
      List.map_cons, ← List.append_assoc, ← List.append_assoc, List.append_assoc _ (after.map _),
      List.append_assoc _ (_ :: after.map _)]
    exact .here rfl rfl rfl
  | @method before after d hmethods hlocal hname =>
    refine ⟨methodOutline d, isHidden_methodOutline hlocal hname, ?_⟩
    rw [Module.outline, Module.outline, hmethods, List.map_append, List.map_append,
      List.map_cons, ← List.append_assoc, ← List.append_assoc]
    exact .here rfl rfl rfl
  | @classProperty before after c before' after' p hclasses hproperties hlocal hname =>
    exact ⟨propertyOutline p, isHidden_propertyOutline hlocal hname,
      inserts_outline_class hclasses (inserts_classOutline_property p hproperties)⟩
  | @classMethod before after c before' after' d hclasses hmethods hlocal hname =>
    exact ⟨methodOutline d, isHidden_methodOutline hlocal hname,
      inserts_outline_class hclasses (inserts_classOutline_method d hmethods)⟩

/-- The tree of a description is widened by that of a description with a local member more, wherever
the declarations of both stand. -/
theorem Module.AddsLocal.widens {name : String} {m m' : Module}
    (h : m.unplaced.AddsLocal name m'.unplaced) (id : ModuleId) (version version' : Nat) :
    ∃ f, StrictMono f ∧ (m.treeAs id version).Widens f name (m'.treeAs id version') := by
  obtain ⟨x, hx, hinserts⟩ := h.inserts
  obtain ⟨f, hmono, hwidens⟩ := hinserts.widens hx id version version'
  refine ⟨f, hmono, hwidens.of_alike ?_ ?_⟩
  · exact Outline.alike_tree (unplaced_outline m) id version version
  · exact Outline.alike_tree (unplaced_outline m') id version' version'

end Source

/-- Outside of one module a name is looked for among the members of types only after receivers, and
only if no module declares a property or method of the name. -/
def Store.AvoidsOutside (W : Store) (id : ModuleId) (name : String) : Prop :=
  ∀ t, W.tree? t.id = some t → t.id ≠ id → ∀ n kind, t.kind? n = some kind →
    kind.sought? = some name →
      t.isDirect n = true ∨ kind.isQualified = true ∧ ∀ u ∈ W.held, ¬ u.Declares name

namespace Widening

open Session

variable {W V : Store} {name : String} (w : Widening W V name)

theorem isClear_of_avoidsOutside (hfresh : ¬ w.narrow.Mentions name)
    (havoids : W.AvoidsOutside w.module name) : ∀ t ∈ W.held, ∀ n, w.IsClear t n := by
  intro t ht n kind hkind hsought
  by_cases hid : t.id = w.module
  · have hnarrow : t = w.narrow := by
      refine w.plain.eq_of_mem ht (.inr ?_) (hid.trans w.id_narrow.symm)
      rw [w.id_narrow, w.held]
    subst hnarrow
    exact absurd ⟨n, kind, hkind, NodeKind.mem_names_of_sought? hsought⟩ hfresh
  · refine ⟨hid, ?_⟩
    rcases ht with rfl | ht
    · exact .inl (Tree.isDirect_base n)
    · exact havoids t ht hid n kind hkind hsought

/-- If the imports are the same, identifiers stand for the same ones. -/
theorem isSettled_of_imports
    (himports : w.wide.imports = w.narrow.imports.map fun e => (w.node e.1, e.2)) (q : Typing)
    {t : Tree} (ht : t ∈ W.held) : w.IsSettled q t := by
  intro n x _
  by_cases hid : t.id = w.module
  · obtain rfl := w.eq_narrow ht hid
    have hdeclared (k : Nat) : w.declared (Declared.atNode w.narrow k .import x) =
        Declared.atNode w.wide (w.node k) .import x := by
      rw [w.declared_atNode, w.tree_narrow, w.index_narrow]
    left
    rw [w.tree_narrow, import?, import?, himports, List.find?_map, Option.map_map, Option.map_map]
    exact congrArg (fun f => Option.map f _) (funext fun e => (hdeclared e.1).symm)
  · exact .inl (w.import?_of_ne hid x .property)

/-- What a reference of another module resolves to. -/
theorem resolve_of_ne {t : Tree} (ht : t ∈ W.held) (hid : t.id ≠ w.module)
    (himports : w.wide.imports = w.narrow.imports.map fun e => (w.node e.1, e.2)) {n : Nat}
    (hn : t.isDirect n = true ∨ ∀ u ∈ W.held, ∀ k, w.IsClear u k) :
    (resolve t n (new V)).1 = ((resolve t n (new W)).1).map w.declared := by
  have hsame : Parallel W V (w.Carried (Option.map w.declared)) (resolveIn typing t n)
      (resolveIn typing (w.tree t) (w.index t n)) := by
    rcases hn with hn | hclear
    · exact w.parallel_resolveIn_direct (w.plain.grounded_of_mem ht) hid hn typing typing
    · have htwins := twins_typing hclear fun depth inProgress _ ht =>
        w.isSettled_of_imports himports (typingWithin depth inProgress) ht
      exact parallel_resolveIn htwins (w.plain.grounded_of_mem ht) (hclear t ht) n
  -- a tree of another module is its own counterpart
  have hresolve := w.resolve_eq ht hsame
  rwa [w.tree_of_ne hid, w.index_of_ne hid] at hresolve

end Widening

namespace Session

/-- If a local member is added to a module that does not mention its name, references of other
modules resolve to the same declarations, but for the new numbers of the nodes of the module. -/
theorem resolve_addsLocal {W : Store} (hW : W.IsPlain) {m m' : Source.Module} {name : String}
    {version : Nat} (hadds : m.unplaced.AddsLocal name m'.unplaced)
    (hm : W.tree? (Store.idOf m.uri) = some (m.treeAs (Store.idOf m.uri) version))
    (hfresh : ¬ (m.treeAs (Store.idOf m.uri) version).Mentions name) :
    ∃ r : Renumbering, r.module = Store.idOf m.uri ∧
      (m.treeAs (Store.idOf m.uri) version).Widens r.node name (W.treeOf m') ∧
      ∀ t ∈ W.held, t.id ≠ Store.idOf m.uri → ∀ n,
        t.isDirect n = true ∨ W.AvoidsOutside (Store.idOf m.uri) name →
        (resolve t n (new (W.insertSource m'))).1 =
          ((resolve t n (new W)).1).map r.declared := by
  have huri : m'.uri = m.uri := hadds.uri
  have hbase : Store.idOf m'.uri ≠ BaseModule.id := by
    intro hid
    rw [huri] at hid
    rw [hid, hW.base] at hm
    cases hm
  obtain ⟨f, hmono, hwidens⟩ := hadds.widens (Store.idOf m.uri) version
    (W.nextVersion (Store.idOf m.uri))
  have hnew : W.treeOf m' = m'.treeAs (Store.idOf m.uri) (W.nextVersion (Store.idOf m.uri)) := by
    rw [Store.treeOf, huri]
  have hheld : (W.insertSource m').tree? (Store.idOf m.uri) = some (W.treeOf m') :=
    huri ▸ Store.tree?_insertSource_self W m'
  let r : Renumbering := { module := Store.idOf m.uri, node := f, strictMono := hmono }
  rw [← hnew] at hwidens
  let w : Widening W (W.insertSource m') name :=
    { toRelabelling := r.toRelabelling
      narrow := m.treeAs (Store.idOf m.uri) version
      wide := W.treeOf m'
      plain := hW
      plain' := hW.insertSource hbase
      config := rfl
      held := hm
      held' := hheld
      others := fun id hid => by
        rw [Store.tree?_insertSource, if_neg fun h => hid (by rw [← h, huri])]
      embeds := hwidens.embeds
      agrees := hwidens.agreesWith }
  refine ⟨r, rfl, hwidens, fun t ht hid n hn => w.resolve_of_ne ht hid hwidens.imports_eq ?_⟩
  exact hn.imp_right (w.isClear_of_avoidsOutside hfresh)

/-! ## A class with a local property -/

/-- A module with an empty class and a property. -/
def library : Source.Module :=
  { bareModule "file:///w/n.pkl" with
    classes := [⟨"C", [], none, [], [], [], none⟩]
    properties := [⟨"other", none, [], none, none, none⟩] }

/-- A local property that the class of the module has not. -/
def secret : Source.Property := ⟨"secret", none, [.local], none, none, none⟩

def extendedLibrary : Source.Module :=
  { library with classes := [⟨"C", [], none, [], [secret], [], none⟩] }

def libraryTree : Tree := library.treeAs (Store.idOf library.uri) 1

theorem addsLocal_library : library.unplaced.AddsLocal "secret" extendedLibrary.unplaced :=
  @Source.Module.AddsLocal.classProperty "secret" library.unplaced [] []
    ⟨"C", [], none, [], [], [], none⟩ [] [] secret rfl rfl (by decide) rfl

/-- A module that imports the library and asks it for both names. -/
def client : Source.Module :=
  { bareModule "file:///w/m.pkl" with
    imports := [⟨"n.pkl", none, false, none⟩]
    properties :=
      [⟨"a", none, [], some (.access (.ident "n") "other" false), none, none⟩,
        ⟨"b", none, [], some (.access (.ident "n") "secret" false), none, none⟩] }

def clientTree : Tree := client.treeAs (Store.idOf client.uri) 1

def clientStore : Store := Store.ofSources default .none [library, client]

theorem isPlain_clientStore : clientStore.IsPlain :=
  Store.isPlain_ofSources ProjectIndex.manifestIn?_none (by decide)

theorem held_clientStore :
    ∀ t ∈ clientStore.held, t ∈ [BaseModule.tree, libraryTree, clientTree] := by
  have hentries : ∀ e ∈ clientStore.trees.entries, e.2 ∈ [libraryTree, clientTree] := by
    decide
  rintro t (rfl | ht)
  · exact List.mem_cons_self
  · obtain ⟨e, he, -, rfl⟩ := Dict.exists_mem_of_get? ht
    exact List.mem_cons_of_mem _ (hentries e he)

theorem avoidsOutside_clientStore : clientStore.AvoidsOutside libraryTree.id "secret" := by
  have hqualified : ¬ clientTree.Has fun kind =>
      kind.sought? = some "secret" ∧ kind.isQualified = false := by decide
  have hundeclared : ∀ u ∈ [BaseModule.tree, libraryTree, clientTree], ¬ u.Declares "secret" := by
    decide +kernel
  intro t ht hid n kind hkind hsought
  have hmem := held_clientStore t (.inr ht)
  simp only [List.mem_cons, List.not_mem_nil, or_false] at hmem
  obtain rfl | rfl | rfl := hmem
  · exact .inl (Tree.isDirect_base n)
  · exact absurd rfl hid
  · -- the client looks for the name after a receiver only
    refine .inr ⟨?_, fun u hu => hundeclared u (held_clientStore u hu)⟩
    exact eq_true_of_ne_false fun h => hqualified ⟨n, kind, hkind, hsought, h⟩

/-- The property of the library is found where it is now, the local one is found neither before nor
afterwards. -/
theorem resolve_addsLocal_library :
    clientStore.IsPlain ∧ library.unplaced.AddsLocal "secret" extendedLibrary.unplaced ∧
      clientStore.tree? libraryTree.id = some libraryTree ∧ ¬ libraryTree.Mentions "secret" ∧
      clientStore.AvoidsOutside libraryTree.id "secret" ∧
      ∃ r : Renumbering,
        (resolve clientTree 3 (new (clientStore.insertSource extendedLibrary))).1 =
          some (r.declared ⟨⟨libraryTree.id, 2⟩, .property, "other"⟩) ∧
        (resolve clientTree 6 (new (clientStore.insertSource extendedLibrary))).1 = none := by
  have hheld : clientStore.tree? libraryTree.id = some libraryTree := by decide
  have hfresh : ¬ libraryTree.Mentions "secret" := by decide
  have hclient : clientTree ∈ clientStore.held := .inr (by decide)
  have hother : (resolve clientTree 3 (new clientStore)).1 =
      some ⟨⟨libraryTree.id, 2⟩, .property, "other"⟩ := by decide +kernel
  have hsecret : (resolve clientTree 6 (new clientStore)).1 = none := by decide +kernel
  obtain ⟨r, -, -, hsame⟩ :=
    resolve_addsLocal isPlain_clientStore addsLocal_library hheld hfresh
  have hresolve (n : Nat) := hsame clientTree hclient (by decide) n (.inr avoidsOutside_clientStore)
  refine ⟨isPlain_clientStore, addsLocal_library, hheld, hfresh, avoidsOutside_clientStore, r,
    ?_, ?_⟩
  · rw [hresolve, hother, Option.map_some]
  · rw [hresolve, hsecret, Option.map_none]

/-! ## Object bodies -/

/-- A module with a property that is referred to in the body of an object of the library. -/
def reader : Source.Module :=
  { bareModule "file:///w/m.pkl" with
    imports := [⟨"n.pkl", none, false, none⟩]
    properties :=
      [⟨"secret", none, [], some (.int 1), none, none⟩,
        ⟨"p", none, [], some (.new (some (.simple "n.C"))
          [.property "y" none (some (.ident "secret")) none]), none, none⟩] }

def readerTree : Tree := reader.treeAs (Store.idOf reader.uri) 1

def readerStore : Store := Store.ofSources default .none [library, reader]

/-- In the body of an object a local member of its class is found from another module: there a name
without a receiver resolves to another declaration after the member has been added. -/
theorem not_forall_resolve_addsLocal :
    ¬∀ (W : Store) (m m' : Source.Module) (name : String) (version : Nat), W.IsPlain →
      m.unplaced.AddsLocal name m'.unplaced →
      W.tree? (Store.idOf m.uri) = some (m.treeAs (Store.idOf m.uri) version) →
      ¬ (m.treeAs (Store.idOf m.uri) version).Mentions name →
      ∃ r : Renumbering, r.module = Store.idOf m.uri ∧
        ∀ t ∈ W.held, t.id ≠ Store.idOf m.uri → ∀ n,
          (resolve t n (new (W.insertSource m'))).1 =
            ((resolve t n (new W)).1).map r.declared := by
  intro h
  have hplain : readerStore.IsPlain :=
    Store.isPlain_ofSources ProjectIndex.manifestIn?_none (by decide)
  have hheld : readerStore.tree? libraryTree.id = some libraryTree := by decide
  have hfresh : ¬ libraryTree.Mentions "secret" := by decide
  have hreader : readerTree ∈ readerStore.held := .inr (by decide)
  obtain ⟨r, hr, hsame⟩ := h readerStore library extendedLibrary "secret" 1 hplain
    addsLocal_library hheld hfresh
  have hresolve := hsame readerTree hreader (by decide) 8
  have hold : (resolve readerTree 8 (new readerStore)).1 =
      some ⟨⟨readerTree.id, 2⟩, .property, "secret"⟩ := by decide +kernel
  have hnew : (resolve readerTree 8 (new (readerStore.insertSource extendedLibrary))).1 =
      some ⟨⟨libraryTree.id, 2⟩, .property, "secret"⟩ := by decide +kernel
  rw [hold, hnew, Option.map_some] at hresolve
  -- a declaration stays in its module
  have hmodule := congrArg (fun d => d.site.module) (Option.some.inj hresolve)
  rw [Relabelling.declared, Relabelling.module_site] at hmodule
  exact absurd hmodule (by decide)

/-! ## Inherited members -/

/-- A module with a property, and one that extends it. -/
def parentModule : Source.Module :=
  { bareModule "file:///w/p.pkl" with properties := [⟨"secret", none, [], none, none, none⟩] }

def childModule (properties : List Source.Property) : Source.Module :=
  { bareModule "file:///w/n.pkl" with superModule := some "p.pkl", properties := properties }

/-- After an import a local member hides the inherited one of its name. -/
example :
    let W := Store.ofSources default .none [parentModule, childModule [], client]
    (resolve clientTree 6 (new W)).1 =
        some ⟨⟨Store.idOf parentModule.uri, 1⟩, .property, "secret"⟩ ∧
      (resolve clientTree 6 (new (W.insertSource (childModule [secret])))).1 = none := by
  decide +kernel

end Session

end PklAnalysis
