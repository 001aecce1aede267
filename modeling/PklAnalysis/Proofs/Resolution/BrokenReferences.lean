import PklAnalysis.Proofs.Modules.DependencyClosure
import PklAnalysis.Proofs.Modules.FailedLookups
import PklAnalysis.Proofs.Resolution.Adoption
import PklAnalysis.Proofs.Resolution.Findings
import PklAnalysis.Proofs.Resolution.SteadyModules

/-!
# Broken references

Both the dependency graph of a module and a check of it follow the URIs of its clause and imports, one
lookup after the other.  The graph has what is not found as broken; the check reports it, but says nothing
about modules of the standard library that are not there.
-/

namespace PklAnalysis

variable {W V : Store} {t : Tree} {uri : String} {n : Nat}

/-- A module of the standard library is not in the store. -/
def Store.LacksStandard (W : Store) (id : ModuleId) (uri : String) : Prop :=
  Text.startsWith "pkl:" uri = true ∧
    ∃ e, (Store.resolve uri id W).1 = .error e ∧ e.isNotFound = true

/-! ## References in a tree -/

namespace Tree

/-- A node is the clause of a module or an import of one other module, with a URI. -/
def RefersAt (t : Tree) (n : Nat) (uri : String) : Prop :=
  (∃ kind, t.clause? = some (n, kind, uri)) ∨ ∃ i, (n, i) ∈ t.imports ∧ i.isGlob = false ∧ i.uri = uri

theorem refersAt_iff_references : (∃ n, t.RefersAt n uri) ↔
    ∃ kind, (uri, kind) ∈ DependencyGraph.references t := by
  simp only [RefersAt, DependencyGraph.references, List.mem_append, List.mem_map, Option.mem_toList,
    List.mem_filter]
  constructor
  · rintro ⟨n, ⟨kind, hclause⟩ | ⟨i, hi, hglob, rfl⟩⟩
    · exact ⟨.ofClause kind, .inl ⟨_, hclause, rfl⟩⟩
    · exact ⟨.import, .inr ⟨_, ⟨hi, by simp [hglob]⟩, rfl⟩⟩
  · rintro ⟨kind, ⟨⟨n, clause, uri'⟩, hclause, heq⟩ | ⟨⟨n, i⟩, ⟨hi, hglob⟩, heq⟩⟩
    · obtain ⟨rfl, -⟩ := Prod.mk.inj heq
      exact ⟨n, .inl ⟨clause, hclause⟩⟩
    · obtain ⟨rfl, -⟩ := Prod.mk.inj heq
      exact ⟨n, .inr ⟨i, hi, by simpa using hglob, rfl⟩⟩

/-- The children of a module are among its descendants. -/
theorem mem_descendants_root (hn : n ∈ t.children root) (hkind : (t.kind? n).isSome) :
    n ∈ t.descendants root := by
  have hlt : n < t.size := by
    rw [kind?, Option.isSome_map, node?, isSome_getElem?] at hkind
    exact hkind
  rw [descendants]
  obtain ⟨size, hsize⟩ : ∃ size, t.size = size + 1 := ⟨t.size - 1, by omega⟩
  rw [hsize, descendantsWithin, List.mem_cons]
  by_cases hroot : n = root
  · exact .inl hroot
  · -- there is another node than the root, so that the search goes down one level at least
    obtain ⟨depth, rfl⟩ : ∃ depth, size = depth + 1 := ⟨size - 1, by rw [root] at hroot; omega⟩
    exact .inr (List.mem_flatMap.mpr ⟨n, hn, List.mem_cons_self⟩)

theorem RefersAt.uriAt? (h : t.RefersAt n uri) :
    n ∈ t.descendants root ∧ Session.uriAt? t n = some uri := by
  obtain ⟨kind, hclause⟩ | ⟨i, hi, -, rfl⟩ := h
  · obtain ⟨m, hm, hkind⟩ := List.exists_of_findSome?_eq_some hclause
    split at hkind
    · next h =>
      cases hkind
      exact ⟨mem_descendants_root hm (by rw [h]; rfl), by rw [Session.uriAt?, h]⟩
    · cases hkind
  · obtain ⟨m, hm, hkind⟩ := List.mem_filterMap.mp hi
    split at hkind
    · next h =>
      cases hkind
      exact ⟨mem_descendants_root hm (by rw [h]; rfl), by rw [Session.uriAt?, h]⟩
    · cases hkind

end Tree

/-! ## The graph -/

namespace DependencyGraph

theorem broken_addDependency (g : DependencyGraph) (a b : ModuleId) (kind : DependencyKind) :
    (g.addDependency a b kind).broken = g.broken := by
  rw [addDependency]
  split <;> rfl

/-- The broken reference that a reference stands for, if a lookup does not find a module for it. -/
def unresolved? (W : Store) (id : ModuleId) (r : String × DependencyKind) : Option BrokenReference :=
  match (Store.resolve r.1 id W).1 with
  | .ok _ => none
  | .error e => some ⟨id, r.1, r.2, e⟩

theorem broken_addReference {id : ModuleId} (h : Store.AlikeFrom id W V) (g : DependencyGraph)
    (r : String × DependencyKind) :
    (addReference id g r V).1.broken = g.broken ++ (unresolved? W id r).toList ∧
      Store.AlikeFrom id W (addReference id g r V).2 := by
  rw [addReference, bind_apply, unresolved?, ← h.resolve_fst]
  have hafter := h.resolve_snd r.1
  generalize Store.resolve r.1 id V = found at hafter ⊢
  obtain ⟨target, after⟩ := found
  cases target with
  | ok u => exact ⟨by simp [pure, StateT.pure, broken_addDependency, broken_addModule], hafter⟩
  | error e => exact ⟨rfl, hafter⟩

theorem broken_addReferences {id : ModuleId} (h : Store.AlikeFrom id W V) (g : DependencyGraph)
    (rs : List (String × DependencyKind)) : (rs.foldlM (addReference id) g V).1.broken
      = g.broken ++ rs.filterMap (unresolved? W id) := by
  induction rs generalizing g V with
  | nil => exact (List.append_nil _).symm
  | cons r rs ih =>
    obtain ⟨hbroken, hafter⟩ := broken_addReference h g r
    rw [List.foldlM_cons, bind_apply, ih hafter, hbroken, List.append_assoc]
    cases hr : unresolved? W id r with
    | none => simp [hr]
    | some b => simp [hr]

/-- The broken references in the graph of one module are those of the module. -/
theorem broken_build (hW : W.loader = none) (ht : W.tree? t.id = some t) :
    (build [t.id] W).1.broken = (references t).filterMap (unresolved? W t.id) := by
  have hbuild : (build [t.id] W).1
      = ((references t).foldlM (addReference t.id) (empty.addModule t.id) W).1 := by
    change (addRoot empty t.id W).1 = _
    rw [addRoot, if_neg (by simp [contains, empty]), bind_apply]
    simp only [get, getThe, MonadStateOf.get, StateT.get, pure, ht]
  rw [hbuild, broken_addReferences (.refl hW), broken_addModule]
  rfl

/-- The graph of a module alone has a URI as broken. -/
def ListsBroken (W : Store) (id : ModuleId) (uri : String) : Prop :=
  ∃ b ∈ (build [id] W).1.broken, b.source = id ∧ b.uri = uri

instance (W : Store) (id : ModuleId) (uri : String) : Decidable (ListsBroken W id uri) :=
  inferInstanceAs (Decidable (∃ b ∈ (build [id] W).1.broken, b.source = id ∧ b.uri = uri))

theorem listsBroken_iff_error (hW : W.loader = none) (ht : W.tree? t.id = some t) :
    ListsBroken W t.id uri ↔
      (∃ n, t.RefersAt n uri) ∧ ∃ e, (Store.resolve uri t.id W).1 = .error e := by
  rw [ListsBroken, broken_build hW ht, Tree.refersAt_iff_references]
  constructor
  · rintro ⟨b, hb, -, rfl⟩
    obtain ⟨⟨uri, kind⟩, hr, hbroken⟩ := List.mem_filterMap.mp hb
    rw [unresolved?] at hbroken
    split at hbroken
    · cases hbroken
    · next e he =>
      cases hbroken
      exact ⟨⟨kind, hr⟩, e, he⟩
  · rintro ⟨⟨kind, hr⟩, e, he⟩
    exact ⟨⟨t.id, uri, kind, e⟩, List.mem_filterMap.mpr ⟨_, hr, by rw [unresolved?, he]⟩, rfl, rfl⟩

end DependencyGraph

/-! ## The check -/

namespace Session

variable {s : Session} {options : CheckOptions} {d : Diagnostic}

/-- A session remembers of the references of a module only what a lookup in the store finds. -/
structure FollowsFrom (W : Store) (t : Tree) (s : Session) : Prop where
  store : Store.AlikeFrom t.id W s.store
  targets : ∀ uri target, s.targets.get? (t.id, uri) = some target →
    (Store.resolve uri t.id W).1.map (·.id) = target
  known : ∀ uri id, s.targets.get? (t.id, uri) = some (.ok id) → (s.trees.get? id).isSome

theorem followsFrom_beforeUris (hW : W.loader = none) (ht : W.tree? t.id = some t) :
    FollowsFrom W t (beforeUris t (new W)) := by
  rw [beforeUris, adopt_new ht]
  exact ⟨.refl hW, nofun, nofun⟩

/-- A module that the session knows is found without a change. -/
theorem tree?_of_isSome {id : ModuleId} (h : (s.trees.get? id).isSome) :
    ∃ u, tree? id s = (some u, s) := by
  obtain ⟨own, hown⟩ := Option.isSome_iff_exists.mp h
  rw [tree?_apply, hown]
  split
  · exact ⟨_, rfl⟩
  · exact ⟨own, rfl⟩

/-- A reference that is followed for the first time is remembered as the store finds it. -/
theorem FollowsFrom.following (h : FollowsFrom W t s) (uri : String) :
    FollowsFrom W t (s.following (Store.resolve uri t.id s.store).2 t.id uri
      (Store.resolve uri t.id s.store).1) := by
  have hfound := h.store.resolve_fst uri
  have hgrows (id : ModuleId) (hid : (s.trees.get? id).isSome) :
      ((s.following (Store.resolve uri t.id s.store).2 t.id uri
        (Store.resolve uri t.id s.store).1).trees.get? id).isSome := by
    dsimp only [Session.following]
    cases (Store.resolve uri t.id s.store).1 with
    | error e => exact hid
    | ok u =>
      dsimp only
      rw [Dict.get?_insertNew, Option.isSome_or, hid]
      rfl
  have htarget (uri' : String) (target : Except ResolveError ModuleId)
      (htarget : (s.targets.insertNew (t.id, uri) ((Store.resolve uri t.id s.store).1.map (·.id))).get?
        (t.id, uri') = some target) :
      s.targets.get? (t.id, uri') = some target ∨
        uri = uri' ∧ (Store.resolve uri t.id s.store).1.map (·.id) = target := by
    rw [Dict.get?_insertNew, Option.or_eq_some_iff] at htarget
    refine htarget.imp_right fun hnew => ?_
    obtain ⟨hkey, hnew⟩ := Option.ite_none_right_eq_some.mp hnew.2
    exact ⟨(Prod.mk.inj (beq_iff_eq.mp hkey)).2, Option.some.inj hnew⟩
  refine ⟨h.store.resolve_snd uri, fun uri' target hget => ?_, fun uri' id hget => ?_⟩
  · obtain hold | ⟨rfl, rfl⟩ := htarget uri' target hget
    · exact h.targets uri' target hold
    · rw [hfound]
  · obtain hold | ⟨rfl, hnew⟩ := htarget uri' _ hget
    · exact hgrows id (h.known uri' id hold)
    · obtain ⟨u, hu, rfl⟩ := exists_of_map_eq_ok hnew
      dsimp only [Session.following]
      rw [hu]
      dsimp only
      rw [Dict.get?_insertNew, if_pos BEq.rfl]
      cases s.trees.get? u.id <;> rfl

/-- A reference of the module leads nowhere exactly if a lookup in the store finds nothing. -/
theorem FollowsFrom.resolveModule (h : FollowsFrom W t s) (uri : String) :
    (∀ e, (Session.resolveModule t uri s).1 = .error e ↔
      uri ≠ BaseModule.uri ∧ (Store.resolve uri t.id W).1 = .error e) ∧
    FollowsFrom W t (Session.resolveModule t uri s).2 := by
  rw [resolveModule_apply]
  by_cases hbase : uri = BaseModule.uri
  · rw [if_pos hbase]
    exact ⟨fun e => ⟨nofun, fun he => absurd hbase he.1⟩, h⟩
  rw [if_neg hbase]
  cases htarget : s.targets.get? (t.id, uri) with
  | none =>
    refine ⟨fun e => ?_, h.following uri⟩
    rw [and_iff_right hbase, ← h.store.resolve_fst uri]
  | some target =>
    have hfound := h.targets uri target htarget
    cases target with
    | error e =>
      refine ⟨fun e' => ?_, h⟩
      rw [and_iff_right hbase]
      cases hresolve : (Store.resolve uri t.id W).1 with
      | ok u =>
        rw [hresolve] at hfound
        cases hfound
      | error e'' =>
        rw [hresolve] at hfound
        cases hfound
        exact ⟨fun he => congrArg _ (Except.error.inj he), fun he => congrArg _ (Except.error.inj he)⟩
    | ok id =>
      obtain ⟨u, hu, -⟩ := exists_of_map_eq_ok hfound
      obtain ⟨own, hown⟩ := tree?_of_isSome (h.known uri id htarget)
      dsimp only
      rw [hown]
      refine ⟨fun e => ⟨nofun, fun he => ?_⟩, h⟩
      rw [hu] at he
      cases he.2

/-- What a check finds at a node whose URI leads nowhere. -/
def brokenAt? (W : Store) (t : Tree) (n : Nat) : Option Diagnostic := do
  let uri ← uriAt? t n
  match (Store.resolve uri t.id W).1 with
  | .ok _ => none
  | .error e =>
    if Text.startsWith "pkl:" uri && e.isNotFound then none else some (.atNode t n (.module e))

theorem brokenAt?_eq_some_iff : brokenAt? W t n = some d ↔
    ∃ uri e, uriAt? t n = some uri ∧ (Store.resolve uri t.id W).1 = .error e ∧
      ¬(Text.startsWith "pkl:" uri = true ∧ e.isNotFound = true) ∧
        .atNode t n (.module e) = d := by
  rw [brokenAt?, Option.bind_eq_bind, Option.bind_eq_some_iff]
  refine exists_congr fun uri => ?_
  cases (Store.resolve uri t.id W).1 with
  | ok u => simp
  | error e => simp

/-- The check of a URI finds what a lookup in the store does, as long as only references of this module
have been followed. -/
theorem FollowsFrom.checkUri (h : FollowsFrom W t s) (n : Nat) :
    (checkUri t n s).1 = brokenAt? W t n ∧ FollowsFrom W t (Session.checkUri t n s).2 := by
  rw [Session.checkUri, brokenAt?]
  cases uriAt? t n with
  | none => exact ⟨rfl, h⟩
  | some uri =>
    obtain ⟨herror, hafter⟩ := h.resolveModule uri
    dsimp only [Option.bind_eq_bind, Option.bind_some]
    rw [bind_apply]
    cases hresult : (Session.resolveModule t uri s).1 with
    | ok u =>
      refine ⟨?_, hafter⟩
      cases hresolve : (Store.resolve uri t.id W).1 with
      | ok u => rfl
      | error e =>
        -- only the URI of the base module leads somewhere that the store does not know
        have hbase : uri = BaseModule.uri := by
          by_contra hne
          rw [(herror e).mpr ⟨hne, hresolve⟩] at hresult
          cases hresult
        subst hbase
        have hnotFound := Store.isNotFound_of_resolve_baseUri h.store.unloaded hresolve
        have hstandard : Text.startsWith "pkl:" BaseModule.uri = true := by decide
        simp only [hnotFound, hstandard, Bool.and_self, if_true]
        rfl
    | error e =>
      obtain ⟨hbase, hresolve⟩ := (herror e).mp hresult
      have hstandard : isStandard uri = Text.startsWith "pkl:" uri := by
        rw [isStandard, decide_eq_true hbase, Bool.and_true]
      simp only [hresolve, hstandard]
      split
      · exact ⟨rfl, hafter⟩
      · exact ⟨rfl, hafter⟩

theorem mem_checkModule_iff_brokenAt? (hW : W.loader = none) (ht : W.tree? t.id = some t)
    (hoptions : options.moduleUris = true) (hd : d.finding.kind = .uri) :
    d ∈ (checkModule t options (new W)).1 ↔
      ∃ n ∈ t.descendants Tree.root, brokenAt? W t n = some d := by
  rw [mem_checkModule_uri hd, and_iff_right hoptions,
    findingsAt_eq (fun n s hs => hs.checkUri n) (followsFrom_beforeUris hW ht), List.mem_filterMap]

/-- A check of a module reports that the URI at a node leads nowhere. -/
def ReportsAt (W : Store) (t : Tree) (options : CheckOptions) (n : Nat) : Prop :=
  ∃ d ∈ (checkModule t options (new W)).1, d.node = n ∧
    (d.finding.code = "module-not-found" ∨ d.finding.code = "invalid-module-uri")

theorem kind_eq_uri_iff (f : Finding) :
    f.kind = .uri ↔ f.code = "module-not-found" ∨ f.code = "invalid-module-uri" := by
  cases f with
  | module e => cases e <;> simp [Finding.kind, Finding.code]
  | _ => simp [Finding.kind, Finding.code]

theorem reportsAt_iff (hW : W.loader = none) (ht : W.tree? t.id = some t)
    (hoptions : options.moduleUris = true) :
    ReportsAt W t options n ↔ n ∈ t.descendants Tree.root ∧ (brokenAt? W t n).isSome := by
  constructor
  · rintro ⟨d, hd, rfl, hcode⟩
    obtain ⟨m, hm, hbroken⟩ :=
      (mem_checkModule_iff_brokenAt? hW ht hoptions ((kind_eq_uri_iff _).mpr hcode)).mp hd
    obtain ⟨uri, e, -, -, -, rfl⟩ := brokenAt?_eq_some_iff.mp hbroken
    exact ⟨hm, Option.isSome_iff_exists.mpr ⟨_, hbroken⟩⟩
  · rintro ⟨hn, hsome⟩
    obtain ⟨d, hbroken⟩ := Option.isSome_iff_exists.mp hsome
    obtain ⟨uri, e, -, -, -, rfl⟩ := brokenAt?_eq_some_iff.mp hbroken
    exact ⟨_, (mem_checkModule_iff_brokenAt? hW ht hoptions rfl).mpr ⟨n, hn, hbroken⟩, rfl,
      (kind_eq_uri_iff _).mp rfl⟩

/-- A check of a module reports that a URI of its clause or of an import of one module leads nowhere. -/
def ReportsBroken (W : Store) (t : Tree) (options : CheckOptions) (uri : String) : Prop :=
  ∃ n, t.RefersAt n uri ∧ ReportsAt W t options n

theorem reportsBroken_iff_error (hW : W.loader = none) (ht : W.tree? t.id = some t)
    (hoptions : options.moduleUris = true) :
    ReportsBroken W t options uri ↔ (∃ n, t.RefersAt n uri) ∧
      ∃ e, (Store.resolve uri t.id W).1 = .error e ∧
        ¬(Text.startsWith "pkl:" uri = true ∧ e.isNotFound = true) := by
  rw [ReportsBroken, ← exists_and_right]
  refine exists_congr fun n => and_congr_right fun hn => ?_
  obtain ⟨hmem, huri⟩ := hn.uriAt?
  rw [reportsAt_iff hW ht hoptions, and_iff_right hmem, Option.isSome_iff_exists]
  simp only [brokenAt?_eq_some_iff, huri, Option.some.injEq]
  constructor
  · rintro ⟨d, uri', e, rfl, hresolve, hreported, -⟩
    exact ⟨e, hresolve, hreported⟩
  · rintro ⟨e, hresolve, hreported⟩
    exact ⟨_, uri, e, rfl, hresolve, hreported, rfl⟩

/-- The graph of a module has those references as broken that a check of the module reports, and
besides these the modules of the standard library that are not in the store, which the check passes
over. -/
theorem listsBroken_iff_reportsBroken (hW : W.loader = none) (ht : W.tree? t.id = some t)
    (hoptions : options.moduleUris = true) (uri : String) :
    (DependencyGraph.ListsBroken W t.id uri ↔ ReportsBroken W t options uri ∨
      (∃ n, t.RefersAt n uri) ∧ W.LacksStandard t.id uri) ∧
    ¬(ReportsBroken W t options uri ∧ W.LacksStandard t.id uri) := by
  rw [DependencyGraph.listsBroken_iff_error hW ht, reportsBroken_iff_error hW ht hoptions,
    Store.LacksStandard]
  refine ⟨⟨?_, ?_⟩, ?_⟩
  · rintro ⟨hrefers, e, he⟩
    by_cases hlacks : Text.startsWith "pkl:" uri = true ∧ e.isNotFound = true
    · exact .inr ⟨hrefers, hlacks.1, e, he, hlacks.2⟩
    · exact .inl ⟨hrefers, e, he, hlacks⟩
  · rintro (⟨hrefers, e, he, -⟩ | ⟨hrefers, -, e, he, -⟩)
    · exact ⟨hrefers, e, he⟩
    · exact ⟨hrefers, e, he⟩
  · rintro ⟨⟨-, e, he, hreported⟩, hstandard, e', he', hnotFound⟩
    obtain rfl := Except.error.inj (he.symm.trans he')
    exact hreported ⟨hstandard, hnotFound⟩

/-- A store with a module that imports a module that is not there, one of the standard library, and all
modules of a directory. -/
def importingStore : Store :=
  let import_ (uri : String) (isGlob : Bool) : Source.Import := ⟨uri, none, isGlob, none⟩
  Store.ofSources default .none [{ bareModule "file:///w/m.pkl" with
    imports := [import_ "missing.pkl" false, import_ "pkl:math" false, import_ "*.pkl" true] }]

def importingTree : Tree := (importingStore.tree? ⟨"file:///w/m.pkl"⟩).getD default

theorem tree?_importingStore : importingStore.tree? importingTree.id = some importingTree := rfl

/-- The module that is missing is broken in the graph, and so it is reported. -/
theorem reportsBroken_missing : importingStore.loader = none ∧
    DependencyGraph.ListsBroken importingStore importingTree.id "missing.pkl" ∧
    ReportsBroken importingStore importingTree .all "missing.pkl" := by
  have hloader : importingStore.loader = none := rfl
  have hlists : DependencyGraph.ListsBroken importingStore importingTree.id "missing.pkl" := by
    decide +kernel
  have hlacks : ¬importingStore.LacksStandard importingTree.id "missing.pkl" :=
    fun h => absurd h.1 (by decide)
  refine ⟨hloader, hlists, ?_⟩
  refine ((listsBroken_iff_reportsBroken hloader tree?_importingStore rfl "missing.pkl").1.mp
    hlists).resolve_right fun h => hlacks h.2

/-- The graph has the module of the standard library as broken, and the check passes over it; the check
reports the pattern, which the graph leaves out. -/
theorem lists_standard_reports_pattern :
    DependencyGraph.ListsBroken importingStore importingTree.id "pkl:math" ∧
    ¬ReportsBroken importingStore importingTree .all "pkl:math" ∧
    (∃ n i, (n, i) ∈ importingTree.imports ∧ i.uri = "*.pkl" ∧
      ReportsAt importingStore importingTree .all n) ∧
    ¬DependencyGraph.ListsBroken importingStore importingTree.id "*.pkl" := by
  have hloader : importingStore.loader = none := rfl
  refine ⟨by decide +kernel, ?_, ⟨3, ⟨"*.pkl", none, true⟩, by decide +kernel, rfl, ?_⟩,
    by decide +kernel⟩
  · rw [reportsBroken_iff_error hloader tree?_importingStore rfl]
    rintro ⟨-, e, he, hreported⟩
    have hresolve : (Store.resolve "pkl:math" importingTree.id importingStore).1
        = .error (.notFound "pkl:math" importingTree.id) := rfl
    obtain rfl := Except.error.inj (hresolve.symm.trans he)
    exact hreported ⟨by decide, rfl⟩
  · rw [reportsAt_iff hloader tree?_importingStore rfl]
    exact ⟨by decide +kernel, by decide +kernel⟩

end Session

end PklAnalysis
