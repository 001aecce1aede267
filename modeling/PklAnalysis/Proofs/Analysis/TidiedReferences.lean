import PklAnalysis.Proofs.Analysis.ImportUse
import PklAnalysis.Proofs.Resolution.WidenedInference
import PklAnalysis.Proofs.Source.ReplacedImports

/-!
# References in a tidied module

The module after tidying has some of the imports that it had before, and nothing else is different.
If its imports can be tidied without harm, its tree is embedded in that of the module before, names
in annotations may lead to the same imports, and identifiers stand for the same imports or mean
something else.  So the references of the module resolve to the same declarations and its
annotations to the same types, and all imports that have been kept are used again: tidying once more
changes nothing.

Without these conditions neither holds.  Of two imports of one name the one that was hidden may come
first.
-/

namespace PklAnalysis

open Source (Module)

/-- There is a name that no node of a store looks for. -/
theorem Store.exists_unsought (W : Store) : ∃ name : String, ∀ t ∈ W.held, ∀ n kind,
    t.kind? n = some kind → kind.sought? ≠ some name := by
  let trees := BaseModule.tree :: W.trees.entries.map (·.2)
  let names := trees.flatMap fun t => t.nodes.toList.filterMap (·.kind.sought?)
  -- longer than all names that are looked for
  let name := String.ofList (List.replicate ((names.map String.length).sum + 1) 'x')
  refine ⟨name, fun t ht n kind hkind hsought => ?_⟩
  have htree : t ∈ trees := by
    rcases ht with rfl | ht
    · exact List.mem_cons_self
    · obtain ⟨e, he, -, rfl⟩ := Dict.exists_mem_of_get? ht
      exact List.mem_cons_of_mem _ (List.mem_map_of_mem he)
  obtain ⟨node, hnode, rfl⟩ := Option.map_eq_some_iff.mp hkind
  rw [Tree.node?, ← Array.getElem?_toList] at hnode
  have hname : name ∈ names := List.mem_flatMap.mpr
    ⟨t, htree, List.mem_filterMap.mpr ⟨node, List.mem_of_getElem? hnode, hsought⟩⟩
  have hle : name.length ≤ (names.map String.length).sum :=
    List.le_sum_of_mem (List.mem_map_of_mem hname)
  have hlength : name.length = (names.map String.length).sum + 1 := by
    rw [← String.length_toList, String.toList_ofList, List.length_replicate]
  omega

namespace Session

variable {W : Store} {t : Tree}

theorem importNamed?_eq (t : Tree) (x : String) : t.importNamed? x =
    (clauses t).find? fun i => !i.isGlob && decide (i.bindingName = x) := by
  rw [Tree.importNamed?, clauses, List.find?_map]
  rfl

/-- If only one element of a list passes a test, it is found in every list that has the same passing
elements. -/
theorem find?_eq_of_agree {α : Type} {p : α → Bool} {l l' : List α}
    (hmem : ∀ a, p a = true → (a ∈ l ↔ a ∈ l'))
    (hone : ∀ a ∈ l, ∀ b ∈ l, p a = true → p b = true → a = b) : l'.find? p = l.find? p := by
  cases hfound : l.find? p with
  | none =>
    rw [List.find?_eq_none] at hfound ⊢
    exact fun a ha hp => hfound a ((hmem a hp).mpr ha) hp
  | some a =>
    have hp := List.find?_some hfound
    have ha := List.mem_of_find?_eq_some hfound
    cases hfound' : l'.find? p with
    | none => exact absurd hp (List.find?_eq_none.mp hfound' a ((hmem a hp).mp ha))
    | some b =>
      have hpb := List.find?_some hfound'
      have hb := (hmem b hpb).mpr (List.mem_of_find?_eq_some hfound')
      rw [hone b hb a ha hpb hp]

/-! ## The module with its tidied imports -/

theorem clauses_treeAs (m : Module) (id : ModuleId) (version : Nat) :
    clauses (m.treeAs id version) = m.clauses :=
  m.map_imports_treeAs _ _

/-- A tidiable module of a store, and the module with the imports that tidying leaves. -/
structure Tidies (W : Store) (m : Module) (version : Nat) (m' : Module) : Prop where
  plain : W.IsPlain
  stored : W.tree? (Store.idOf m.uri) = some (m.treeAs (Store.idOf m.uri) version)
  tidiable : IsTidiable W (m.treeAs (Store.idOf m.uri) version)
  body : m'.unplaced = { m.unplaced with imports := m'.unplaced.imports }
  imports : m'.clauses = tidied W (m.treeAs (Store.idOf m.uri) version)

namespace Tidies

variable {m m' : Module} {version : Nat} (h : Tidies W m version m')
include h

theorem uri : m'.uri = m.uri := (congrArg Module.uri h.body).trans rfl

theorem held : m.treeAs (Store.idOf m.uri) version ∈ W.held := by
  refine .inr ?_
  rw [Tree.id_treeAs, h.stored]

theorem treeOf_eq : W.treeOf m' =
    m'.treeAs (Store.idOf m.uri) (W.nextVersion (Store.idOf m.uri)) := by
  rw [Store.treeOf, h.uri]

theorem sameBody : m'.SameBody m := (Source.Module.sameBody_of_unplaced h.body).symm

theorem mem_clauses_iff {i : Import} : i ∈ m'.clauses ↔
    i ∈ usedClauses W (m.treeAs (Store.idOf m.uri) version) := by
  rw [h.imports]
  exact h.tidiable.mem_tidied_iff

theorem mem_clauses {i : Import} (hi : i ∈ m'.clauses) : i ∈ m.clauses := by
  have hsublist := usedClauses_sublist W (m.treeAs (Store.idOf m.uri) version)
  rw [clauses_treeAs] at hsublist
  exact hsublist.subset (h.mem_clauses_iff.mp hi)

theorem nodup : m'.clauses.Nodup := h.imports ▸ nodup_tidied _ _

theorem among : m'.ImportsAmong m (m'.placeAmong m) :=
  Source.Module.importsAmong (fun _ => h.mem_clauses) h.nodup

theorem embeds (name : String) : (W.treeOf m').Embeds (m'.moved m (m'.placeAmong m)) name
    (m.treeAs (Store.idOf m.uri) version) :=
  h.treeOf_eq ▸ Source.embeds_treeAs h.sameBody h.among name (Store.idOf m.uri) _ version

theorem mentions_eq (x y : String) : mentions (W.treeOf m') x y =
    mentions (m.treeAs (Store.idOf m.uri) version) x y := by
  rw [mentions, mentions, (h.embeds x).findType?_eq, Option.isNone_map]

/-- A name in an annotation leads to the same import. -/
theorem agrees : (W.treeOf m').AgreesWith (m.treeAs (Store.idOf m.uri) version) := by
  intro n kind hkind a ha y hy x hmentions
  have hkind' := ((h.embeds x).kind n).trans hkind
  rw [h.mentions_eq] at hmentions
  -- all imports of the name are used
  have hused : ∀ i ∈ m.clauses, i.bindingName = x →
      i ∈ usedClauses W (m.treeAs (Store.idOf m.uri) version) := by
    intro i hi hname
    rw [← clauses_treeAs m (Store.idOf m.uri) version] at hi
    obtain ⟨⟨k, i⟩, hk, rfl⟩ := List.mem_map.mp hi
    refine mem_usedClauses hk (mem_usedIn h.plain h.held (m.isPreOrder_treeAs _ _) hkind' ?_)
    rw [importsUsedAt_new hkind']
    refine List.mem_append_right _ (mem_mentionedImports_iff.mpr ?_)
    exact ⟨i, hk, a, ha, y, hy, hname ▸ hmentions⟩
  rw [importNamed?_eq, importNamed?_eq, h.treeOf_eq, clauses_treeAs, clauses_treeAs]
  have hname : ∀ i : Import, (!i.isGlob && decide (i.bindingName = x)) = true →
      i.bindingName = x := by
    intro i hi
    exact of_decide_eq_true (Bool.and_eq_true_iff.mp hi).2
  refine (find?_eq_of_agree (fun i hi => ⟨fun hmem => ?_, h.mem_clauses⟩)
    fun i hi j hj hpi hpj => ?_).symm
  · exact h.mem_clauses_iff.mpr (hused i hmem (hname i hi))
  · refine (h.tidiable.names i (hused i hi (hname i hpi)) j ?_ ?_).symm
    · rwa [clauses_treeAs]
    · rw [hname i hpi, hname j hpj]

end Tidies

/-! ## References -/

theorem import?_eq_none {t : Tree} {x : String}
    (hx : ∀ i ∈ clauses t, i.bindingName ≠ x) : import? t x .property = none := by
  rw [import?, Option.map_eq_none_iff, List.find?_eq_none]
  rintro ⟨n, i⟩ hi
  simpa using hx i (List.mem_map.mpr ⟨(n, i), hi, rfl⟩)

namespace Tidies

variable {m m' : Module} {version : Nat} (h : Tidies W m version m')
include h

theorem update : (W.insertSource m').IsPlain ∧ Store.SameFrame (W.insertSource m') W ∧
    (W.treeOf m').id = (m.treeAs (Store.idOf m.uri) version).id :=
  update_spec h.plain (by rw [Tree.id_treeAs, h.stored]) (by rw [Tree.id_treeAs, h.uri])

/-- The numbers of the nodes before tidying. -/
def relabelling : Relabelling :=
  ⟨Store.idOf m.uri, m'.moved m (m'.placeAmong m), h.among.moved_injective⟩

/-- The module after tidying as the first, and that before it as the second of two modules that
differ in their imports. -/
def widening (name : String) : Widening (W.insertSource m') W name where
  toRelabelling := h.relabelling
  narrow := W.treeOf m'
  wide := m.treeAs (Store.idOf m.uri) version
  plain := h.update.1
  plain' := h.plain
  config := rfl
  held := by
    rw [relabelling, ← h.uri]
    exact Store.tree?_insertSource_self W m'
  held' := h.stored
  others id hid := by
    rw [Store.tree?_insertSource, if_neg fun hm => hid (by rw [← hm, h.uri, relabelling])]
  embeds := h.embeds name
  agrees := h.agrees

theorem firstImport : m'.firstImport = m.firstImport := by
  rw [Module.firstImport, Module.firstImport, h.sameBody.clause]

/-- The name of a kept import stands for the first import with its clause. -/
theorem import?_kept {i : Import} (hi : i ∈ m'.clauses) :
    (import? (W.treeOf m') i.bindingName .property = some (Declared.atNode (W.treeOf m')
        (m'.firstImport + m'.clauses.idxOf i) .import i.bindingName)) ∧
      (import? (m.treeAs (Store.idOf m.uri) version) i.bindingName .property =
        some (Declared.atNode (m.treeAs (Store.idOf m.uri) version)
          (m.firstImport + m.clauses.idxOf i) .import i.bindingName)) := by
  have hunique : ∀ j ∈ m.clauses, decide (j.bindingName = i.bindingName) = true → j = i := by
    intro j hj hname
    refine h.tidiable.names i (h.mem_clauses_iff.mp hi) j ?_ (of_decide_eq_true hname)
    rwa [clauses_treeAs]
  constructor
  · rw [import?, h.treeOf_eq, Source.find?_imports _ _ hi (decide_eq_true rfl) fun j hj =>
      hunique j (h.mem_clauses hj)]
    rfl
  · rw [import?, Source.find?_imports _ _ (h.mem_clauses hi) (decide_eq_true rfl) hunique]
    rfl

/-- An identifier stands for the same import, or means something else before imports are looked
at. -/
theorem isSettled (name : String) (depth : Nat) (inProgress : List Site) {u : Tree}
    (hu : u ∈ (W.insertSource m').held) :
    (h.widening name).IsSettled (typingWithin depth inProgress) u := by
  intro n x hkind
  by_cases hid : u.id = (h.widening name).module
  · obtain rfl := (h.widening name).eq_narrow hu hid
    rw [(h.widening name).tree_narrow, (h.widening name).index_narrow]
    by_cases hkept : ∃ i ∈ m'.clauses, i.bindingName = x
    · obtain ⟨i, hi, rfl⟩ := hkept
      obtain ⟨hnarrow, hwide⟩ := h.import?_kept hi
      left
      have hplace : (h.widening name).node (m'.firstImport + m'.clauses.idxOf i) =
          m.firstImport + m.clauses.idxOf i := by
        rw [← h.firstImport]
        exact Source.moved_firstImport_add hi
      have hdeclared := (h.widening name).declared_atNode (h.widening name).narrow
        (m'.firstImport + m'.clauses.idxOf i) .import i.bindingName
      rw [(h.widening name).tree_narrow, (h.widening name).index_narrow, hplace] at hdeclared
      have hcarried := congrArg (Option.map (h.widening name).declared) hnarrow
      exact hwide.trans (hcarried.trans (congrArg some hdeclared)).symm
    · by_cases hother : ∃ i ∈ m.clauses, i.bindingName = x
      · obtain ⟨i, hi, rfl⟩ := hother
        right
        intro found hfound
        rw [← hfound.eq_new h.plain]
        rw [← clauses_treeAs m (Store.idOf m.uri) version] at hi
        refine h.tidiable.isShadowed h.plain h.held (m.isPreOrder_treeAs _ _) hi
          (fun hused => hkept ⟨i, ?_, rfl⟩) ?_ depth inProgress
        · exact h.mem_clauses_iff.mpr hused
        · exact ((h.embeds name).kind n).trans hkind
      · left
        have hwide : import? (h.widening name).wide x .property = none := by
          refine import?_eq_none fun i hi hname => hother ⟨i, ?_, hname⟩
          exact clauses_treeAs m (Store.idOf m.uri) version ▸ hi
        have hnarrow : import? (h.widening name).narrow x .property = none := by
          refine import?_eq_none fun i hi hname => hkept ⟨i, ?_, hname⟩
          exact clauses_treeAs m' _ _ ▸ hi
        rw [hwide, hnarrow, Option.map_none]
  · exact .inl ((h.widening name).import?_of_ne hid x .property)

omit h in
theorem treeOf_held : W.treeOf m' ∈ (W.insertSource m').held := by
  refine .inr ?_
  rw [Store.id_treeOf, Store.tree?_insertSource_self]

/-- References resolve to the same declarations. -/
theorem resolve_eq (n : Nat) :
    (resolve (m.treeAs (Store.idOf m.uri) version) (h.relabelling.node n) (new W)).1 =
      ((resolve (W.treeOf m') n (new (W.insertSource m'))).1).map h.relabelling.declared := by
  obtain ⟨name, hname⟩ := (W.insertSource m').exists_unsought
  have hclear : ∀ u ∈ (W.insertSource m').held, ∀ n, (h.widening name).IsClear u n :=
    fun u hu n kind hkind hsought => absurd hsought (hname u hu n kind hkind)
  have hheld : (h.widening name).narrow ∈ (W.insertSource m').held := treeOf_held
  have htwins := Widening.twins_typing hclear fun depth inProgress {_} hu =>
    h.isSettled name depth inProgress hu
  have hresolve := (h.widening name).resolve_eq hheld (Widening.parallel_resolveIn htwins
    (h.update.1.grounded_of_mem hheld) (hclear _ hheld) n)
  rwa [(h.widening name).tree_narrow, (h.widening name).index_narrow] at hresolve

/-- Annotations have the same types. -/
theorem resolveType_eq {n : Nat} {kind : NodeKind} (hkind : (W.treeOf m').kind? n = some kind)
    {a : TypeExpr} (ha : a ∈ annotationsAt kind) :
    (resolveType (m.treeAs (Store.idOf m.uri) version) (h.relabelling.node n) a (new W)).1 =
      h.relabelling.ty (resolveType (W.treeOf m') n a (new (W.insertSource m'))).1 := by
  obtain ⟨name, -⟩ := (W.insertSource m').exists_unsought
  have hheld : (h.widening name).narrow ∈ (W.insertSource m').held := treeOf_held
  obtain ⟨type, type', htype, htype', -, rfl⟩ := Widening.parallel_annotation (h.widening name)
    (h.update.1.grounded_of_mem hheld) hkind ha
  rw [(h.widening name).tree_narrow, (h.widening name).index_narrow] at htype'
  exact (htype'.eq_new h.plain).trans
    (congrArg h.relabelling.ty (htype.eq_new h.update.1).symm)

/-- Only imports are dropped. -/
theorem exists_node {k : Nat} (hk : ∀ i,
    (m.treeAs (Store.idOf m.uri) version).kind? k ≠ some (.importClause i)) :
    ∃ n, h.relabelling.node n = k :=
  Source.exists_moved h.sameBody (Store.idOf m.uri) version hk

end Tidies

/-- If the used imports of a module have names unlike those of all other imports and stand for
different things, and the names of the other imports are written where they mean something else
only, then after tidying all references of the module resolve to the same declarations and all
annotations to the same types, but for the new numbers of its nodes. -/
theorem resolve_tidied (hW : W.IsPlain) {m m' : Module} {version : Nat}
    (hm : W.tree? (Store.idOf m.uri) = some (m.treeAs (Store.idOf m.uri) version))
    {e : ImportEdit}
    (he : (tidyImports (m.treeAs (Store.idOf m.uri) version) (new W)).1 = some e)
    (hbody : m'.unplaced = { m.unplaced with imports := m'.unplaced.imports })
    (himports : m'.imports.map (·.clause) = e.imports)
    (htidiable : IsTidiable W (m.treeAs (Store.idOf m.uri) version)) :
    ∃ r : Relabelling, r.module = Store.idOf m.uri ∧
      (∀ name, (W.treeOf m').Embeds r.node name (m.treeAs (Store.idOf m.uri) version)) ∧
      (∀ k, (∀ i, (m.treeAs (Store.idOf m.uri) version).kind? k ≠ some (.importClause i)) →
        ∃ n, r.node n = k) ∧
      (∀ n, (resolve (m.treeAs (Store.idOf m.uri) version) (r.node n) (new W)).1 =
        ((resolve (W.treeOf m') n (new (W.insertSource m'))).1).map r.declared) ∧
      ∀ n kind, (W.treeOf m').kind? n = some kind → ∀ a ∈ annotationsAt kind,
        (resolveType (m.treeAs (Store.idOf m.uri) version) (r.node n) a (new W)).1 =
          r.ty (resolveType (W.treeOf m') n a (new (W.insertSource m'))).1 := by
  have hheld : m.treeAs (Store.idOf m.uri) version ∈ W.held := by
    refine .inr ?_
    rw [Tree.id_treeAs, hm]
  have h : Tidies W m version m' :=
    ⟨hW, hm, htidiable, hbody, himports.trans (imports_of_tidyImports hW hheld he)⟩
  exact ⟨h.relabelling, rfl, h.embeds, fun _ => h.exists_node, h.resolve_eq,
    fun _ _ hkind _ => h.resolveType_eq hkind⟩

/-! ## Use after tidying -/

/-- An import is carried over to the new numbers. -/
theorem ownImport?_declared (r : Relabelling) {t' : Tree} (ht : t.id = r.module)
    (ht' : t'.id = r.module) (found : Option Declared) :
    ownImport? t (found.map r.declared) = (ownImport? t' found).map r.node := by
  cases found with
  | none => rfl
  | some d =>
    have hmodule : (r.declared d).site.module = d.site.module := r.module_site d.site
    have himport : (r.declared d).kind = d.kind := rfl
    rw [ownImport?, ownImport?, Option.map_some, Option.filter_some, Option.filter_some, hmodule,
      himport, ht, ht']
    split
    · next hd =>
      have hown := of_decide_eq_true (Bool.and_eq_true_iff.mp hd).2
      rw [Option.map_some, Option.map_some, Option.map_some, Relabelling.declared,
        Relabelling.site, if_pos hown]
    · rfl

namespace Tidies

variable {m m' : Module} {version : Nat} (h : Tidies W m version m')
include h

theorem referencedImport?_eq (n : Nat) :
    (referencedImport? (m.treeAs (Store.idOf m.uri) version) (h.relabelling.node n) (new W)).1 =
      ((referencedImport? (W.treeOf m') n (new (W.insertSource m'))).1).map
        h.relabelling.node := by
  have hkind : (m.treeAs (Store.idOf m.uri) version).kind? (h.relabelling.node n) =
      (W.treeOf m').kind? n := (h.embeds "").kind n
  have hid : (m.treeAs (Store.idOf m.uri) version).id = h.relabelling.module :=
    Tree.id_treeAs _ _ _
  have hasked : ownImport? (m.treeAs (Store.idOf m.uri) version)
      (resolve (m.treeAs (Store.idOf m.uri) version) (h.relabelling.node n) (new W)).1 =
        (ownImport? (W.treeOf m') (resolve (W.treeOf m') n (new (W.insertSource m'))).1).map
          h.relabelling.node := by
    rw [h.resolve_eq]
    exact ownImport?_declared h.relabelling hid (h.update.2.2.trans hid) _
  rw [referencedImport?, referencedImport?, hkind]
  cases (W.treeOf m').kind? n with
  | none => rfl
  | some kind =>
    cases kind with
    | ident | access | call => exact hasked
    | _ => rfl

/-- All imports that have been kept are used. -/
theorem mem_usedIn_treeOf {n : Nat} {i : Import} (hi : (n, i) ∈ (W.treeOf m').imports) :
    n ∈ usedIn (W.insertSource m') (W.treeOf m') := by
  have hkept : i ∈ m'.clauses :=
    clauses_treeAs m' _ _ ▸ List.mem_map.mpr ⟨(n, i), hi, rfl⟩
  obtain ⟨k, hk, hused⟩ := mem_usedClauses_iff.mp (h.mem_clauses_iff.mp hkept)
  obtain ⟨d, -, hd⟩ := (mem_usedIn_iff h.plain h.held).mp hused
  -- what uses the import has not been dropped
  obtain ⟨c, rfl⟩ := h.exists_node fun j hj => not_mem_importsUsedAt hj hd
  have hc : (m.treeAs (Store.idOf m.uri) version).kind? (h.relabelling.node c) =
      (W.treeOf m').kind? c := (h.embeds "").kind c
  obtain ⟨kind, hkind⟩ : ∃ kind, (W.treeOf m').kind? c = some kind := by
    refine Option.ne_none_iff_exists'.mp fun hnone => ?_
    rw [importsUsedAt, referencedImport?, hc, hnone] at hd
    exact List.not_mem_nil hd
  refine mem_usedIn h.update.1 treeOf_held (m'.isPreOrder_treeAs _ _) hkind ?_
  rw [importsUsedAt_new hkind, List.mem_append]
  rw [importsUsedAt_new (hc.trans hkind), List.mem_append] at hd
  refine hd.imp (fun hd => ?_) fun hd => ?_
  · rw [h.referencedImport?_eq, Option.mem_toList] at hd
    obtain ⟨k', hk', rfl⟩ := Option.map_eq_some_iff.mp hd
    have hsame : k' = n := by
      have himport := (h.embeds "").mem_imports h.relabelling.injective (m'.isPreOrder_treeAs _ _)
        (m.isPreOrder_treeAs _ _) hk
      have hnodup : (clauses (W.treeOf m')).Nodup := clauses_treeAs m' _ _ ▸ h.nodup
      exact congrArg Prod.fst (List.inj_on_of_nodup_map hnodup himport hi rfl)
    rw [hk', hsame]
    exact Option.mem_toList.mpr rfl
  · obtain ⟨j, hj, a, ha, y, hy, hmentions⟩ := mem_mentionedImports_iff.mp hd
    have hclause := (Tree.mem_imports_iff.mp hj).2.symm.trans (Tree.mem_imports_iff.mp hk).2
    obtain rfl := NodeKind.importClause.inj (Option.some.inj hclause)
    rw [← h.mentions_eq] at hmentions
    exact mem_mentionedImports_iff.mpr ⟨j, hi, a, ha, y, hy, hmentions⟩

end Tidies

/-- The imports that tidying leaves are some of those of the module, in another order.  Once they
have replaced those of the module, tidying again changes nothing exactly if all of them are found to
be used then, and they are if the module is tidiable. -/
theorem tidyImports_again (hW : W.IsPlain) {m m' : Module} {version : Nat}
    (hm : W.tree? (Store.idOf m.uri) = some (m.treeAs (Store.idOf m.uri) version))
    {e : ImportEdit}
    (he : (tidyImports (m.treeAs (Store.idOf m.uri) version) (new W)).1 = some e)
    (hbody : m'.unplaced = { m.unplaced with imports := m'.unplaced.imports })
    (himports : m'.imports.map (·.clause) = e.imports) :
    (∃ l : List Import, l.Sublist (m.imports.map (·.clause)) ∧ e.imports.Perm l) ∧
      ((tidyImports (W.treeOf m') (new (W.insertSource m'))).1.map
            (fun e => (e.imports, e.changed)) =
          (if e.imports = [] then none else some (e.imports, false)) ↔
        ∀ n i, (n, i) ∈ (W.treeOf m').imports →
          n ∈ usedIn (W.insertSource m') (W.treeOf m')) ∧
      (IsTidiable W (m.treeAs (Store.idOf m.uri) version) →
        (tidyImports (W.treeOf m') (new (W.insertSource m'))).1.map
            (fun e => (e.imports, e.changed)) =
          if e.imports = [] then none else some (e.imports, false)) := by
  have hstored : W.tree? (m.treeAs (Store.idOf m.uri) version).id =
      some (m.treeAs (Store.idOf m.uri) version) := by
    rw [Tree.id_treeAs, hm]
  have huri : m'.uri = m.uri := (congrArg Module.uri hbody).trans rfl
  obtain ⟨hsome, hagain⟩ := tidyImports_again_iff hW hstored he (m := m')
    (by rw [Tree.id_treeAs, huri]) himports
  rw [clauses_treeAs] at hsome
  refine ⟨hsome, hagain, fun htidiable => ?_⟩
  have h : Tidies W m version m' := ⟨hW, hm, htidiable, hbody,
    himports.trans (imports_of_tidyImports hW (.inr hstored) he)⟩
  exact hagain.mpr fun _ _ => h.mem_usedIn_treeOf

/-! ## A module with an unused import -/

/-- A property of a module that has the name of something else for its value. -/
def namingProperty (name other : String) : Source.Property :=
  ⟨name, none, [], some (.ident other), none, none⟩

/-- A module that refers to its first import in an annotation and to the second one in an
expression.  It writes the name of the third one where it means a property. -/
def thrifty : Module :=
  { withImports (bareModule "file:///w/m.pkl") ["pattern.pkl", "a.pkl", "b.pkl"] with
    properties := [typedProperty "p" "pattern", namingProperty "q" "a",
      typedProperty "b" "pattern", namingProperty "r" "b"] }

/-- The module with the imports that it uses. -/
def thriftier : Module :=
  { thrifty with imports := ["a.pkl", "pattern.pkl"].map plainImport }

theorem usedClauses_thrifty : usedClauses (storeWith thrifty) (firstTree thrifty) =
    [(plainImport "pattern.pkl").clause, (plainImport "a.pkl").clause] := by
  decide +kernel

theorem tidied_thrifty : tidied (storeWith thrifty) (firstTree thrifty) =
    [(plainImport "a.pkl").clause, (plainImport "pattern.pkl").clause] := by
  have hfirsts : ImportEdit.firsts (keyIn (storeWith thrifty) (firstTree thrifty))
      (usedClauses (storeWith thrifty) (firstTree thrifty)) =
        [(plainImport "pattern.pkl").clause, (plainImport "a.pkl").clause] := by
    rw [usedClauses_thrifty]
    decide
  rw [tidied, hfirsts]
  exact ImportEdit.sort_pair (by decide)

theorem isTidiable_thrifty : IsTidiable (storeWith thrifty) (firstTree thrifty) where
  names := by
    rw [usedClauses_thrifty]
    decide
  keys := by
    rw [usedClauses_thrifty]
    decide
  shadowed i hi hunused n hkind hdirect := by
    have hname : ∀ i ∈ clauses (firstTree thrifty),
        i ∉ [(plainImport "pattern.pkl").clause, (plainImport "a.pkl").clause] →
          i.bindingName = "b" := by
      decide
    -- the name stands outside of objects
    have hall : ∀ n ∈ (firstTree thrifty).indices,
        (firstTree thrifty).kind? n = some (.ident "b") →
          (firstTree thrifty).isDirect n = true := by
      decide +kernel
    rw [hname i hi (usedClauses_thrifty ▸ hunused)] at hkind
    rw [hall n (Tree.mem_indices_of_kind? hkind) hkind] at hdirect
    cases hdirect

theorem stored_thrifty :
    (storeWith thrifty).tree? (Store.idOf thrifty.uri) = some (firstTree thrifty) := by
  decide

theorem unplaced_thriftier : thriftier.unplaced =
    { thrifty.unplaced with imports := thriftier.unplaced.imports } := rfl

theorem exists_tidyImports_thrifty : ∃ e,
    (tidyImports (firstTree thrifty) (new (storeWith thrifty))).1 = some e ∧
      e.imports = thriftier.imports.map (·.clause) := by
  have hplain : (storeWith thrifty).IsPlain := isPlain_storeWith (by decide)
  have hheld : firstTree thrifty ∈ (storeWith thrifty).held := .inr stored_thrifty
  rw [tidyImports_new hplain hheld]
  exact ⟨_, rfl, tidied_thrifty⟩

/-- References are the same before and after. -/
theorem resolve_tidied_thrifty : ∃ r : Relabelling, r.module = Store.idOf thrifty.uri ∧
    ∀ n, (resolve (firstTree thrifty) (r.node n) (new (storeWith thrifty))).1 =
      ((resolve ((storeWith thrifty).treeOf thriftier) n
        (new ((storeWith thrifty).insertSource thriftier))).1).map r.declared := by
  obtain ⟨e, he, himports⟩ := exists_tidyImports_thrifty
  obtain ⟨r, hmodule, -, -, hsame, -⟩ := resolve_tidied (isPlain_storeWith (by decide))
    stored_thrifty he unplaced_thriftier himports.symm isTidiable_thrifty
  exact ⟨r, hmodule, hsame⟩

/-- Both imports that are left are used. -/
theorem tidyImports_again_thrifty :
    (tidyImports ((storeWith thrifty).treeOf thriftier)
        (new ((storeWith thrifty).insertSource thriftier))).1.map
        (fun e => (e.imports, e.changed)) =
      some (thriftier.imports.map (·.clause), false) := by
  obtain ⟨e, he, himports⟩ := exists_tidyImports_thrifty
  obtain ⟨-, -, hagain⟩ := tidyImports_again (isPlain_storeWith (by decide)) stored_thrifty he
    unplaced_thriftier himports.symm
  have hnonempty : thriftier.imports.map (·.clause) ≠ [] := List.cons_ne_nil _ _
  rw [himports, if_neg hnonempty] at hagain
  exact hagain isTidiable_thrifty

/-! ## Imports of one name -/

/-- An import under the name `x`. -/
def importAsX (uri : String) : Source.Import := ⟨uri, some "x", false, none⟩

/-- A module with two imports of one name, to the first of which the name refers. -/
def rivals : Source.Module :=
  { bareModule "file:///w/m.pkl" with
    imports := [importAsX "pattern.pkl", importAsX "a.pkl"]
    properties := [typedProperty "p" "x"] }

theorem tidied_rivals : tidied (storeWith rivals) (firstTree rivals) =
    [(importAsX "a.pkl").clause, (importAsX "pattern.pkl").clause] := by
  have hfirsts : ImportEdit.firsts (keyIn (storeWith rivals) (firstTree rivals))
      (usedClauses (storeWith rivals) (firstTree rivals)) =
        [(importAsX "pattern.pkl").clause, (importAsX "a.pkl").clause] := by
    decide
  rw [tidied, hfirsts]
  exact ImportEdit.sort_pair (by decide)

/-- The annotation of a property can be of another class of other modules after tidying. -/
theorem not_forall_same_type :
    ¬∀ (W : Store) (m : Source.Module) (version : Nat) (e : ImportEdit) (is : List Source.Import)
        (h : PropertyHeader) (a : TypeExpr) (n n' : Nat) (d : DeclRef),
      W.IsPlain →
      W.tree? (Store.idOf m.uri) = some (m.treeAs (Store.idOf m.uri) version) →
      (tidyImports (m.treeAs (Store.idOf m.uri) version) (new W)).1 = some e →
      is.map (·.clause) = e.imports →
      h.type = some a →
      (m.treeAs (Store.idOf m.uri) version).findMember? h.name = some n →
      (m.treeAs (Store.idOf m.uri) version).kind? n = some (.property h) →
      (W.treeOf { m with imports := is }).findMember? h.name = some n' →
      (W.treeOf { m with imports := is }).kind? n' = some (.property h) →
      d.site.module ≠ Store.idOf m.uri →
      (resolveType (m.treeAs (Store.idOf m.uri) version) n a (new W)).1 = .class d [] →
      (resolveType (W.treeOf { m with imports := is }) n' a
        (new (W.insertSource { m with imports := is }))).1 = .class d [] := by
  intro hsame
  have hplain : (storeWith rivals).IsPlain := isPlain_storeWith (by decide)
  have hstored : (storeWith rivals).tree? (firstTree rivals).id = some (firstTree rivals) := by
    decide
  obtain ⟨e, he⟩ : ∃ e, (tidyImports (firstTree rivals) (new (storeWith rivals))).1 = some e := by
    rw [tidyImports_new hplain (.inr hstored)]
    exact ⟨_, rfl⟩
  have himports := imports_of_tidyImports hplain (.inr hstored) he
  rw [tidied_rivals] at himports
  have hafter := hsame (storeWith rivals) rivals 1 e [importAsX "a.pkl", importAsX "pattern.pkl"]
    ⟨"p", some (.simple "x"), default⟩ (.simple "x") 3 3
    (moduleDecl (firstTree (bareModule "file:///w/pattern.pkl"))) hplain hstored he himports.symm
    rfl (by decide) (by decide) (by decide) (by decide)
    (by decide +kernel) (by decide +kernel)
  have hother : (resolveType ((storeWith rivals).treeOf
      { rivals with imports := [importAsX "a.pkl", importAsX "pattern.pkl"] }) 3 (.simple "x")
      (new ((storeWith rivals).insertSource
        { rivals with imports := [importAsX "a.pkl", importAsX "pattern.pkl"] }))).1 =
      moduleType (firstTree (bareModule "file:///w/a.pkl")) := by
    decide +kernel
  rw [hother] at hafter
  exact absurd hafter (by decide)

end Session

end PklAnalysis
