import PklAnalysis.Proofs.Analysis.ImportOrder
import PklAnalysis.Proofs.Resolution.SteadyQuestions
import PklAnalysis.Proofs.Source.Outlines

/-!
# Tidying imports again

The imports that a module should have are a part of those that it has, in order and without two of
the same module under the same alias.  Once a module has been given this list, tidying its imports
again changes nothing exactly if all of them are still found to be used.
-/

namespace PklAnalysis.Session

/-! ## Sessions that know the store as it is -/

/-- A session knows trees of the store only, and URIs lead in the store where they have led. -/
structure Mirrors (W : Store) (s : Session) : Prop extends IsCurrent W s where
  leads : s.LeadsAs W

variable {W : Store} {s : Session} {t : Tree}

theorem Mirrors.new (hW : W.IsPlain) : Mirrors W (new W) := ⟨.new hW, leadsAs_new W W⟩

theorem Mirrors.adopt (h : Mirrors W s) (hW : W.IsPlain) (ht : t ∈ W.held) :
    Mirrors W (adopt t s).2 :=
  ⟨(h.adopt_spec hW ht).1, h.leadsAs_adopt hW ht h.leads⟩

/-- A steady query gets the answer of a new session and is noticed by nothing that follows. -/
theorem Mirrors.query (h : Mirrors W s) (hW : W.IsPlain) {α : Type} [Grounding α] {q : Query α}
    (hq : Steady W.held q) : (q s).1 = (q (Session.new W)).1 ∧ Mirrors W (q s).2 := by
  have hsteady := hq W s hW subset_rfl h.toIsCurrent
  exact ⟨SteadyQuery.answer_eq hq hW subset_rfl h.toIsCurrent (.new hW) h.leads (leadsAs_new W W),
    hsteady.current, hsteady.leads h.leads⟩

theorem Mirrors.mapM (h : Mirrors W s) (hW : W.IsPlain) {α γ : Type} [Grounding α]
    {f : γ → Query α} {l : List γ} (hf : ∀ c ∈ l, Steady W.held (f c)) :
    (l.mapM f s).1 = l.map fun c => (f c (Session.new W)).1 := by
  induction l generalizing s with
  | nil => rfl
  | cons c l ih =>
    obtain ⟨hc, hl⟩ := List.forall_mem_cons.mp hf
    obtain ⟨hanswer, hmirrors⟩ := h.query hW hc
    rw [List.mapM_cons, bind_apply, bind_apply, List.map_cons, hanswer, ← ih hmirrors hl]
    rfl

/-! ## The new list -/

/-- The nodes of the imports that a new session over a store finds to be used. -/
def usedIn (W : Store) (t : Tree) : List Nat := (usedImports t (new W)).1

/-- What an import stands for in a new session over a store. -/
def keyIn (W : Store) (t : Tree) (i : Import) : String × Option String := (importKey t i (new W)).1

/-- The import clauses of a tree. -/
def clauses (t : Tree) : List Import := t.imports.map (·.2)

/-- The used imports of a tree. -/
def usedClauses (W : Store) (t : Tree) : List Import :=
  (t.imports.filter fun (n, _) => (usedIn W t).contains n).map (·.2)

/-- The imports that a tree should have. -/
def tidied (W : Store) (t : Tree) : List Import :=
  ImportEdit.sort (ImportEdit.firsts (keyIn W t) (usedClauses W t))

theorem Mirrors.distinctImports (h : Mirrors W s) (hW : W.IsPlain) (ht : t ∈ W.held)
    {is : List Import} (his : ∀ i ∈ is, ∃ n, (n, i) ∈ t.imports) :
    (distinctImports t is s).1 = ImportEdit.firsts (keyIn W t) is := by
  have hground := hW.grounded_of_mem ht
  have hkeyed : ∀ i ∈ is, Steady W.held
      (importKey t i >>= fun key => pure (key, i) : Query ((String × Option String) × Import)) :=
    fun i hi => (steady_importKey hground (his i hi).choose_spec).bind
      fun _ _ _ hkey => .pure ⟨hkey, trivial⟩
  have hkeys := h.mapM hW hkeyed
  show ((((is.mapM fun i => importKey t i >>= fun key => pure (key, i) :
    Query (List ((String × Option String) × Import))) s).1).foldl
      (fun d e => Dict.insertNew d e.1 e.2) Dict.empty).values = _
  rw [hkeys, List.foldl_map]
  rfl

/-- The answer of a new session. -/
theorem tidyImports_new (hW : W.IsPlain) (ht : t ∈ W.held) : (tidyImports t (new W)).1 =
    (coverAll (t.imports.map fun (n, _) => t.span n)).map fun span =>
      ⟨span, tidied W t, tidied W t ≠ clauses t⟩ := by
  have hground := hW.grounded_of_mem ht
  have hadopted := (Mirrors.new hW).adopt hW ht
  rw [tidyImports, bind_apply]
  cases coverAll (t.imports.map fun (n, _) => t.span n) with
  | none => rfl
  | some span =>
    obtain ⟨hused, hmirrors⟩ := hadopted.query hW (steady_usedImports hground)
    have himports : ∀ i ∈ usedClauses W t, ∃ n, (n, i) ∈ t.imports := by
      intro i hi
      obtain ⟨⟨n, i⟩, hmem, rfl⟩ := List.mem_map.mp hi
      exact ⟨n, (List.mem_filter.mp hmem).1⟩
    have hdistinct := hmirrors.distinctImports hW ht himports
    rw [usedClauses, usedIn] at hdistinct
    simp only
    rw [bind_apply, hused, bind_apply, hdistinct]
    rfl

/-! ## What is kept -/

theorem usedClauses_sublist (W : Store) (t : Tree) : (usedClauses W t).Sublist (clauses t) :=
  List.filter_sublist.map _

/-- The imports that a tree should have are some of those that it has, in another order. -/
theorem exists_sublist_perm_tidied (W : Store) (t : Tree) :
    ∃ l : List Import, l.Sublist (clauses t) ∧ (tidied W t).Perm l :=
  ⟨_, (ImportEdit.entries_firsts _ _).1.trans (usedClauses_sublist W t), ImportEdit.perm_sort _⟩

/-- No two of them are of the same module under the same alias. -/
theorem nodup_keys_tidied (W : Store) (t : Tree) : ((tidied W t).map (keyIn W t)).Nodup :=
  ((ImportEdit.perm_sort _).map _).nodup_iff.mpr (ImportEdit.nodup_firsts _ _)

theorem sort_tidied (W : Store) (t : Tree) : ImportEdit.sort (tidied W t) = tidied W t :=
  ImportEdit.sort_sort _

/-- The imports of a tree are those that it should have if they are in order, of different modules
or under different aliases, and used. -/
theorem tidied_eq_clauses_iff : tidied W t = clauses t ↔
    ImportEdit.sort (clauses t) = clauses t ∧ ((clauses t).map (keyIn W t)).Nodup ∧
      ∀ n i, (n, i) ∈ t.imports → n ∈ usedIn W t := by
  constructor
  · intro h
    refine ⟨h ▸ sort_tidied W t, h ▸ nodup_keys_tidied W t, fun n i hi => ?_⟩
    -- as many imports are left, so none of them is dropped for not being used
    have hsort := (ImportEdit.perm_sort (ImportEdit.firsts (keyIn W t) (usedClauses W t))).length_eq
    have hfirsts := (ImportEdit.entries_firsts (keyIn W t) (usedClauses W t)).1.length_le
    have hlength : (tidied W t).length = t.imports.length := by
      rw [h, clauses, List.length_map]
    rw [tidied, hsort] at hlength
    rw [hlength, usedClauses, List.length_map] at hfirsts
    have hall := List.filter_sublist.eq_of_length_le hfirsts
    have hused := List.filter_eq_self.mp hall (n, i) hi
    exact List.contains_iff_mem.mp hused
  · rintro ⟨hsort, hnodup, hused⟩
    have hall : usedClauses W t = clauses t := by
      rw [usedClauses, clauses]
      congr 1
      refine List.filter_eq_self.mpr fun ⟨n, i⟩ hi => ?_
      exact List.contains_iff_mem.mpr (hused n i hi)
    rw [tidied, hall, ImportEdit.firsts_of_nodup _ hnodup, hsort]

/-! ## Once more -/

/-- An import stands for the module to which it leads. -/
theorem keyIn_eq (W : Store) (t : Tree) (i : Import) : keyIn W t i =
    ((((resolveModule t i.uri (new W)).1.map (·.id)).toOption.map ModuleId.text).getD i.uri,
      i.asName) := by
  rw [keyIn, importKey, bind_apply]
  have hfound : (resolveModule? t i.uri (new W)).1
      = (resolveModule t i.uri (new W)).1.toOption := rfl
  rw [hfound]
  cases (resolveModule t i.uri (new W)).1 <;> rfl

/-- A URI leads to the same module in stores of the same frame. -/
theorem map_resolveModule_congr {V : Store} (h : Store.SameFrame V W) (hV : V.IsPlain)
    (hW : W.IsPlain) {u : Tree} (hid : u.id = t.id) (uri : String) :
    (resolveModule u uri (new V)).1.map (·.id) = (resolveModule t uri (new W)).1.map (·.id) := by
  by_cases hbase : uri = BaseModule.uri
  · rw [resolveModule_apply, resolveModule_apply, if_pos hbase, if_pos hbase]
  · have hV_new : (new V).targets.get? (u.id, uri) = none := rfl
    have hW_new : (new W).targets.get? (t.id, uri) = none := rfl
    obtain ⟨_, hleft, -⟩ := (IsCurrent.new hV).finds_new hV hbase hV_new
    obtain ⟨_, hright, -⟩ := (IsCurrent.new hW).finds_new hW hbase hW_new
    rw [hleft, hright, hid, h.map_find hV hW]

/-- An import stands for the same in stores of the same frame. -/
theorem keyIn_congr {V : Store} (h : Store.SameFrame V W) (hV : V.IsPlain) (hW : W.IsPlain)
    {u : Tree} (hid : u.id = t.id) : keyIn V u = keyIn W t := by
  funext i
  rw [keyIn_eq, keyIn_eq, map_resolveModule_congr h hV hW hid]

theorem coverAll_eq_none_iff {spans : List Span} : coverAll spans = none ↔ spans = [] := by
  cases spans with
  | nil => exact iff_of_true rfl rfl
  | cons s rest => exact iff_of_false (Option.some_ne_none _) (List.cons_ne_nil _ _)

/-- Tidying changes nothing about a module without imports, and else nothing if its imports are
those that it should have. -/
theorem tidyImports_unchanged_iff (hW : W.IsPlain) (ht : t ∈ W.held) :
    (tidyImports t (new W)).1.map (fun e => (e.imports, e.changed)) =
        (if clauses t = [] then none else some (clauses t, false)) ↔
      tidied W t = clauses t := by
  rw [tidyImports_new hW ht, Option.map_map]
  by_cases hempty : clauses t = []
  · have hnone : t.imports = [] := List.map_eq_nil_iff.mp hempty
    obtain ⟨l, hl, hperm⟩ := exists_sublist_perm_tidied W t
    rw [hempty] at hl
    rw [List.sublist_nil.mp hl] at hperm
    rw [if_pos hempty, hempty, hperm.eq_nil, hnone]
    exact iff_of_true rfl rfl
  · rw [if_neg hempty]
    obtain ⟨span, hspan⟩ : ∃ span, coverAll (t.imports.map fun (n, _) => t.span n) = some span := by
      refine Option.ne_none_iff_exists'.mp fun hnone => hempty ?_
      rw [clauses, List.map_eq_nil_iff.mp (coverAll_eq_none_iff.mp hnone), List.map_nil]
    rw [hspan, Option.map_some, Option.some_inj, Function.comp_apply, Prod.mk.injEq]
    simp

/-- An update of a module keeps a store plain, and its frame. -/
theorem update_spec (hW : W.IsPlain) (ht : W.tree? t.id = some t) {m : Source.Module}
    (hm : Store.idOf m.uri = t.id) :
    (W.insertSource m).IsPlain ∧ Store.SameFrame (W.insertSource m) W ∧ (W.treeOf m).id = t.id := by
  refine ⟨hW.insertSource ?_, (Store.sameFrame_insertSource ?_).symm, ?_⟩
  · rw [hm]
    exact hW.id_ne_base ht
  · rw [hm, ht, Option.isSome_some]
  · rw [Store.id_treeOf, hm]

theorem clauses_treeOf (W : Store) (m : Source.Module) :
    clauses (W.treeOf m) = m.imports.map (·.clause) :=
  m.map_imports_treeAs _ _

/-- If a module is given exactly the imports that tidying leaves, tidying them again changes nothing
exactly if all of them are found to be used then. -/
theorem unchanged_again_iff (hW : W.IsPlain) (ht : W.tree? t.id = some t) {m : Source.Module}
    (hm : Store.idOf m.uri = t.id) (himports : m.imports.map (·.clause) = tidied W t) :
    (tidyImports (W.treeOf m) (new (W.insertSource m))).1.map (fun e => (e.imports, e.changed)) =
        (if tidied W t = [] then none else some (tidied W t, false)) ↔
      ∀ n i, (n, i) ∈ (W.treeOf m).imports → n ∈ usedIn (W.insertSource m) (W.treeOf m) := by
  obtain ⟨hplain, hframe, hid⟩ := update_spec hW ht hm
  have hstored : (W.insertSource m).tree? (W.treeOf m).id = some (W.treeOf m) := by
    rw [Store.id_treeOf, Store.tree?_insertSource_self]
  have hclauses : clauses (W.treeOf m) = tidied W t := by rw [clauses_treeOf, himports]
  -- the new list is in order, and its imports stand for what they stood for before
  rw [← hclauses, tidyImports_unchanged_iff hplain (.inr hstored), tidied_eq_clauses_iff, hclauses,
    keyIn_congr hframe hplain hW hid]
  exact ⟨fun h => h.2.2, fun h => ⟨sort_tidied W t, nodup_keys_tidied W t, h⟩⟩

theorem imports_of_tidyImports (hW : W.IsPlain) (ht : t ∈ W.held) {e : ImportEdit}
    (he : (tidyImports t (new W)).1 = some e) : e.imports = tidied W t := by
  rw [tidyImports_new hW ht] at he
  obtain ⟨span, -, rfl⟩ := Option.map_eq_some_iff.mp he
  rfl

/-- The imports that tidying leaves are some of those of the module, in another order.  Once they
have replaced those of the module, tidying again changes nothing exactly if all of them are found to
be used then. -/
theorem tidyImports_again_iff (hW : W.IsPlain) (ht : W.tree? t.id = some t) {e : ImportEdit}
    (he : (tidyImports t (new W)).1 = some e) {m : Source.Module} (hm : Store.idOf m.uri = t.id)
    (himports : m.imports.map (·.clause) = e.imports) :
    (∃ l : List Import, l.Sublist (clauses t) ∧ e.imports.Perm l) ∧
      ((tidyImports (W.treeOf m) (new (W.insertSource m))).1.map (fun e => (e.imports, e.changed)) =
          (if e.imports = [] then none else some (e.imports, false)) ↔
        ∀ n i, (n, i) ∈ (W.treeOf m).imports → n ∈ usedIn (W.insertSource m) (W.treeOf m)) := by
  rw [imports_of_tidyImports hW (.inr ht) he] at himports ⊢
  exact ⟨exists_sublist_perm_tidied W t, unchanged_again_iff hW ht hm himports⟩

/-! ## An import that does not stay used -/

/-- A store with a module and two others. -/
def storeWith (m : Source.Module) : Store :=
  Store.ofSources default .none
    [bareModule "file:///w/a.pkl", bareModule "file:///w/pattern.pkl", m]

theorem isPlain_storeWith {m : Source.Module} (hm : Store.idOf m.uri ≠ BaseModule.id) :
    (storeWith m).IsPlain := by
  refine Store.isPlain_ofSources ProjectIndex.manifestIn?_none fun n hn => ?_
  have hothers : ∀ n ∈ [bareModule "file:///w/a.pkl", bareModule "file:///w/pattern.pkl"],
      Store.idOf n.uri ≠ BaseModule.id := by
    decide
  rcases List.mem_append.mp (show n ∈ [_, _] ++ [m] from hn) with hn | hn
  · exact hothers n hn
  · rwa [List.mem_singleton.mp hn]

/-- An import without alias. -/
def plainImport (uri : String) : Source.Import := ⟨uri, none, false, none⟩

/-- A module with other imports. -/
def withImports (m : Source.Module) (uris : List String) : Source.Module :=
  { m with imports := uris.map plainImport }

/-- A property of a module that has the name of an import for its type. -/
def typedProperty (name type : String) : Source.Property :=
  ⟨name, some (.simple type), [], none, none, none⟩

/-- A module that imports the first module a second time, under a URI from which the import takes
the name of a base class.  This class has a member with the name of the last import. -/
def borrower : Source.Module :=
  { withImports (bareModule "file:///w/m.pkl") ["a.pkl", "Regex?/../a.pkl", "pattern.pkl"] with
    properties := [typedProperty "p" "a",
      { typedProperty "q" "Regex" with
        body := some [.property "y" none (some (.ident "pattern")) none] }] }

/-- The tree of a module that has been stored once. -/
def firstTree (m : Source.Module) : Tree := m.treeAs (Store.idOf m.uri) 1

theorem tidied_borrower : tidied (storeWith borrower) (firstTree borrower) =
    [(plainImport "a.pkl").clause, (plainImport "pattern.pkl").clause] := by
  have hfirsts : ImportEdit.firsts (keyIn (storeWith borrower) (firstTree borrower))
      (usedClauses (storeWith borrower) (firstTree borrower)) =
        [(plainImport "a.pkl").clause, (plainImport "pattern.pkl").clause] := by
    decide +kernel
  rw [tidied, hfirsts]
  exact List.mergeSort_of_pairwise (by decide)

/-- The module with the imports that are left. -/
def repaid : Source.Module := withImports borrower ["a.pkl", "pattern.pkl"]

/-- The last import is not found to be used any more: its name is that of a member of the base
class, which no import hides now. -/
theorem not_used_repaid : ¬∀ n i, (n, i) ∈ ((storeWith borrower).treeOf repaid).imports →
    n ∈ usedIn ((storeWith borrower).insertSource repaid) ((storeWith borrower).treeOf repaid) := by
  intro hused
  have hmem : (2, (plainImport "pattern.pkl").clause)
      ∈ ((storeWith borrower).treeOf repaid).imports := by
    decide
  have hunused : ((usedIn ((storeWith borrower).insertSource repaid)
      ((storeWith borrower).treeOf repaid)).contains 2) = false := by
    decide +kernel
  have hcontains := List.contains_iff_mem.mpr (hused 2 _ hmem)
  rw [hunused] at hcontains
  exact Bool.false_ne_true hcontains

/-- Even if the imports of a module bind different names, tidying can leave an import that is not
found to be used any more. -/
theorem not_forall_unchanged_again :
    ¬∀ (W : Store) (m : Source.Module) (version : Nat) (e : ImportEdit) (is : List Source.Import),
      W.IsPlain →
      W.tree? (Store.idOf m.uri) = some (m.treeAs (Store.idOf m.uri) version) →
      (m.imports.map (·.clause.bindingName)).Nodup →
      (tidyImports (m.treeAs (Store.idOf m.uri) version) (new W)).1 = some e →
      is.map (·.clause) = e.imports →
      (tidyImports (W.treeOf { m with imports := is })
          (new (W.insertSource { m with imports := is }))).1.map
          (fun e => (e.imports, e.changed)) =
        if e.imports = [] then none else some (e.imports, false) := by
  intro h
  have hplain : (storeWith borrower).IsPlain := isPlain_storeWith (by decide)
  have hstored : (storeWith borrower).tree? (firstTree borrower).id
      = some (firstTree borrower) := by
    decide
  have hnames : (borrower.imports.map (·.clause.bindingName)).Nodup := by decide
  obtain ⟨e, he⟩ : ∃ e, (tidyImports (firstTree borrower) (new (storeWith borrower))).1
      = some e := by
    rw [tidyImports_new hplain (.inr hstored)]
    exact ⟨_, rfl⟩
  have himports := imports_of_tidyImports hplain (.inr hstored) he
  have hkept : repaid.imports.map (·.clause) = tidied (storeWith borrower) (firstTree borrower) :=
    tidied_borrower.symm
  have hsame : { borrower with imports := repaid.imports } = repaid := rfl
  have hunchanged := h (storeWith borrower) borrower 1 e repaid.imports hplain hstored hnames he
    (hkept.trans himports.symm)
  rw [hsame, himports] at hunchanged
  have hid : Store.idOf repaid.uri = (firstTree borrower).id := rfl
  exact not_used_repaid ((unchanged_again_iff hplain hstored hid hkept).mp hunchanged)

end PklAnalysis.Session
