import PklAnalysis.Proofs.Resolution.Adoption
import PklAnalysis.Proofs.Resolution.SteadyQuestions
import PklAnalysis.Resolution.Inference

/-!
# What is remembered is invisible

Sessions over a store without loader and projects answer questions while modules of the store are
updated.  Each question about a tree of the store gets the answer of a new session, whatever has
been asked before and which modules have been updated since then, exactly if the store holds no
module under the identity of the base module.

A session has the tree of the base module at hand, and takes it for a URI that is that of the base
module to the letter.  A URI which merely has the same identity, such as one with a blank in front,
is looked up in the store.  If the store holds another module under that identity, the reference
leads to that module; what is remembered of it is the identity, which leads to the base module from
then on.
-/

namespace PklAnalysis.Session

/-- The URI of the base module with a blank in front. -/
def blankUri : String := " pkl:base"

/-- A module under the identity of the base module, which refers to its own identity. -/
def shadow : Source.Module :=
  { bareModule BaseModule.uri with
    name := some "other"
    imports := [⟨blankUri, none, false, none⟩] }

theorem find_blankUri {W : Store} {t : Tree} (ht : W.tree? BaseModule.id = some t)
    (importer : ModuleId) : W.find blankUri importer = .ok t := by
  have hlocate : Store.locateIn W.config none blankUri importer
      = .ok (.single BaseModule.id none) := by
    rfl
  rw [Store.find, hlocate]
  simp [Target.single, Store.stored?, ht]

/-- The tree of the shadow in some version. -/
abbrev shadowTree (version : Nat) : Tree := shadow.treeAs BaseModule.id version

variable {W : Store} {version : Nat}

theorem moduleType_ne_shadowTree :
    moduleType BaseModule.tree ≠ moduleType (shadowTree version) := by
  intro h
  rw [moduleType, moduleType] at h
  have hdecl : moduleDecl BaseModule.tree = moduleDecl (shadowTree version) := (Ty.class.inj h).1
  have hname := congrArg DeclRef.name hdecl
  rw [moduleDecl, moduleDecl] at hname
  simp only at hname
  have hbase : moduleName BaseModule.tree = "base" := by decide +kernel
  have hshadow : moduleName (shadowTree version) = "other" := rfl
  rw [hbase, hshadow] at hname
  exact absurd hname (by decide)

theorem typeOf_shadowTree (s : Session) : typeOf (shadowTree version) 1 s =
    let found := resolveModule (shadowTree version) blankUri (adopt (shadowTree version) s).2
    ((found.1.toOption.map moduleType).getD .unknown, found.2) := rfl

/-- What a new session remembers once it has been asked for the type of the import. -/
def afterShadow (W : Store) (version : Nat) : Session :=
  { new W with
    trees := Dict.empty.insert BaseModule.id (shadowTree version)
    targets := Dict.empty.insertNew (BaseModule.id, blankUri) (.ok BaseModule.id) }

/-- A new session finds the module that the store holds. -/
theorem typeOf_shadowTree_new (hbare : W.IsBare)
    (ht : W.tree? BaseModule.id = some (shadowTree version)) :
    ∃ answers, (W.withAnswers answers).IsBare ∧ typeOf (shadowTree version) 1 (new W) =
      (moduleType (shadowTree version), afterShadow (W.withAnswers answers) version) := by
  have hadopt : (adopt (shadowTree version) (new W)).2 = (new W).setTree (shadowTree version) :=
    adopt_new ht
  obtain ⟨answers, hresolve, hbare'⟩ := Store.resolve_of_isBare hbare blankUri BaseModule.id
  rw [find_blankUri ht] at hresolve
  have hresolve : Store.resolve blankUri (shadowTree version).id
      ((new W).setTree (shadowTree version)).store
        = (.ok (shadowTree version), W.withAnswers answers) := hresolve
  have hnone : ((new W).setTree (shadowTree version)).targets.get?
      ((shadowTree version).id, blankUri) = none := rfl
  refine ⟨answers, hbare', ?_⟩
  rw [typeOf_shadowTree, hadopt, resolveModule_apply, if_neg (by decide), hnone, hresolve]
  rfl

/-- Asked again, it takes the base module for it. -/
theorem typeOf_shadowTree_again : typeOf (shadowTree version) 1 (afterShadow W version) =
    (moduleType BaseModule.tree, afterShadow W version) := by
  have hadopt : (adopt (shadowTree version) (afterShadow W version)).2
      = afterShadow W version := by
    have harrival : (afterShadow W version).arrival (shadowTree version) = .known :=
      if_pos (by simp)
    rw [adopt_apply, harrival]
    rfl
  rw [typeOf_shadowTree, hadopt, resolveModule_apply, if_neg (by decide)]
  rfl

/-! ## Questions -/

/-- A question about a module. -/
inductive Question where
  | resolve (node : Nat)
  | typeOf (node : Nat)
  | check (options : CheckOptions)
  | superMember (node : Nat)
  | tidyImports

/-- What a question is answered with. -/
abbrev Question.Answer : Question → Type
  | .resolve _ => Option Declared
  | .typeOf _ => Ty
  | .check _ => List Diagnostic
  | .superMember _ => Option SuperMember
  | .tidyImports => Option ImportEdit

instance (q : Question) : Grounding q.Answer :=
  match q with
  | .resolve _ => inferInstanceAs (Grounding (Option Declared))
  | .typeOf _ => inferInstanceAs (Grounding Ty)
  | .check _ => inferInstanceAs (Grounding (List Diagnostic))
  | .superMember _ => inferInstanceAs (Grounding (Option SuperMember))
  | .tidyImports => inferInstanceAs (Grounding (Option ImportEdit))

/-- The answer to a question about a tree. -/
def ask [Bounds] (t : Tree) : (q : Question) → Query q.Answer
  | .resolve n => resolve t n
  | .typeOf n => typeOf t n
  | .check options => checkModule t options
  | .superMember n => superMember? t n
  | .tidyImports => tidyImports t

/-- The sessions that come about over a store by updates of its modules and questions about its
trees. -/
inductive Reached (store : Store) : Session → Prop
  | new : Reached store (new store)
  | update {s : Session} {m : Source.Module} (hs : Reached store s)
      (hm : (s.store.tree? (Store.idOf m.uri)).isSome) :
      Reached store { s with store := s.store.insertSource m }
  | ask {s : Session} {id : ModuleId} {t : Tree} (hs : Reached store s)
      (ht : s.store.tree? id = some t) (q : Question) : Reached store (ask t q s).2

/-- Whatever has been asked before and whichever modules have been updated, each question about a
tree of the store gets the answer of a new session over the store. -/
def AnswersAnew (store : Store) : Prop :=
  ∀ s, Reached store s → ∀ id t, s.store.tree? id = some t → ∀ q : Question,
    (ask t q s).1 = (ask t q (new s.store)).1

/-- Each question about a tree of the store gets the answer of a new session. -/
def AnswersAsNew (s : Session) : Prop :=
  ∀ id t, s.store.tree? id = some t → ∀ q : Question,
    (ask t q s).1 = (ask t q (new s.store)).1

variable {s : Session}

theorem answersAlike_ask (t : Tree) (q : Question) : AnswersAlike t (ask t q) := by
  cases q with
  | resolve n => exact answersAlike_resolve t n
  | typeOf n => exact answersAlike_typeOf t n
  | check options => exact answersAlike_checkModule t options
  | superMember n => exact answersAlike_superMember? t n
  | tidyImports => exact answersAlike_tidyImports t

/-- A new session over the same store remembers nothing wrong. -/
theorem IsTruthful.anew (h : IsTruthful W s) : IsTruthful W (Session.new s.store) where
  store := h.store
  bare := h.bare
  keys := List.nodup_nil
  trees _ _ h := nomatch h
  classes := .empty
  aliases := .empty
  chains := .empty
  members := .empty
  targets _ _ _ h := nomatch h

/-- A session whose URIs lead where they have led answers like a new one, and so does one that knows
an older tree, as it forgets all answers. -/
theorem IsTruthful.answersAsNew (h : IsTruthful W s) (hW : W.IsPlain)
    (hs : IsOutdated W s ∨ s.LeadsAs W) : AnswersAsNew s := by
  intro id t ht q
  rw [h.tree?_store] at ht
  have hstored : W.tree? t.id = some t := by rwa [hW.keyed ht]
  have hadopted : (adopt t s).2.LeadsAs W := by
    rcases hs with hold | hleads
    · obtain ⟨-, -, htargets⟩ := h.adopt_spec hW (.inr hstored) hold
      exact (leadsAs_new W W).of_targets (.inr htargets)
    · exact h.leadsAs_adopt hW (.inr hstored) hleads
  have hadopted' := h.anew.leadsAs_adopt hW (.inr hstored) (leadsAs_new s.store W)
  rw [(answersAlike_ask t q W s hW hstored h).answer hadopted,
    (answersAlike_ask t q W _ hW hstored h.anew).answer hadopted']

/-- When a source is put into the store, what the session remembers stays right for the trees that
it knows, of which one may be older now. -/
theorem IsTruthful.insertSource (h : IsTruthful W s) {m : Source.Module} :
    IsTruthful (W.insertSource m) { s with store := s.store.insertSource m } := by
  obtain ⟨answers, hstore⟩ := h.store
  refine h.withStore rfl ⟨answers, by rw [hstore]; rfl⟩ h.bare.insertSource fun id t ht => ?_
  -- a tree of the updated module that the session knows is older than the new one
  obtain ⟨stored, hstored, hversion⟩ := h.trees id t ht
  rw [Store.tree?_insertSource]
  split
  · next hid =>
    have hnewer := Store.version_lt_treeOf (hid ▸ hstored)
    refine ⟨_, rfl, .inr ?_⟩
    rcases hversion with rfl | hversion
    · exact hnewer
    · exact hversion.trans hnewer
  · exact ⟨stored, hstored, hversion⟩

/-- Updates and questions over a plain store keep what a session remembers right, and URIs lead
where they have led. -/
theorem Reached.isTruthful {store : Store} (hstore : store.IsPlain) (hs : Reached store s) :
    ∃ W, W.IsPlain ∧ IsTruthful W s ∧ s.LeadsAs W := by
  induction hs with
  | new => exact ⟨store, hstore, (IsCurrent.new hstore).toIsTruthful, leadsAs_new store store⟩
  | @update s m _ hm ih =>
    obtain ⟨W, hW, hs, hleads⟩ := ih
    rw [hs.tree?_store] at hm
    have hbase : Store.idOf m.uri ≠ BaseModule.id := by
      intro hid
      rw [hid, hW.base] at hm
      exact Bool.false_ne_true hm
    have hplain := hW.insertSource hbase
    have hframe := Store.sameFrame_insertSource hm
    refine ⟨_, hplain, hs.insertSource, fun importer uri target htarget => ?_⟩
    rw [← hframe.map_find hW hplain]
    exact hleads importer uri target htarget
  | @ask s id t _ ht q ih =>
    obtain ⟨W, hW, hs, hleads⟩ := ih
    rw [hs.tree?_store] at ht
    have hid := hW.keyed ht
    have hanswered := answersAlike_ask t q W s hW (by rwa [hid]) hs
    have hadopted := hs.leadsAs_adopt hW (.inr (by rwa [hid])) hleads
    exact ⟨W, hW, hanswered.current.toIsTruthful, hanswered.leads hadopted⟩

theorem answersAnew_of_isPlain {store : Store} (hstore : store.IsPlain) : AnswersAnew store := by
  intro s hs
  obtain ⟨W, hW, htruthful, hleads⟩ := hs.isTruthful hstore
  exact htruthful.answersAsNew hW (.inr hleads)

/-- A module under the identity of the base module can be updated to one that refers to itself; the
type of this reference is not the same when it is asked for again. -/
theorem not_answersAnew {store : Store} (hbare : store.IsBare)
    (hbase : (store.tree? BaseModule.id).isSome) : ¬AnswersAnew store := by
  intro h
  let version := store.nextVersion BaseModule.id
  have hstored : (store.insertSource shadow).tree? BaseModule.id = some (shadowTree version) :=
    Store.tree?_insertSource_self store shadow
  have hupdated : Reached store (new (store.insertSource shadow)) := .update .new hbase
  obtain ⟨answers, hbare, hfirst⟩ := typeOf_shadowTree_new hbare.insertSource hstored
  have hasked := hupdated.ask hstored (.typeOf 1)
  rw [ask, hfirst] at hasked
  -- the same question again, to the session that remembers and to a new one
  have hsame := h _ hasked _ _ hstored (.typeOf 1)
  obtain ⟨_, -, hnew⟩ := typeOf_shadowTree_new hbare hstored
  rw [ask, typeOf_shadowTree_again] at hsame
  exact moduleType_ne_shadowTree (hsame.trans (congrArg Prod.fst hnew))

/-- What sessions over a store remember does not show, exactly if none of the sources with which the
store is filled has the identity of the base module. -/
theorem answersAnew_iff {config : GraphConfig} {files : Files} {sources : List Source.Module}
    (hfiles : ∀ dir, ProjectIndex.manifestIn? files dir = none) :
    AnswersAnew (Store.ofSources config files sources) ↔
      ∀ m ∈ sources, Store.idOf m.uri ≠ BaseModule.id := by
  constructor
  · intro h m hm hid
    refine not_answersAnew (Store.isBare_ofSources hfiles) ?_ h
    exact Store.isSome_tree?_ofSources.mpr ⟨m, hm, hid⟩
  · exact fun hsources => answersAnew_of_isPlain (Store.isPlain_ofSources hfiles hsources)

/-! ## Two modules -/

/-- A module with a property whose type is a class of another module. -/
def importer : Source.Module :=
  { bareModule "file:///w/a.pkl" with
    imports := [⟨"b.pkl", none, false, none⟩]
    properties := [⟨"x", some (.simple "b.Foo"), [], none, none, none⟩] }

/-- The other module, which has a class of a name. -/
def imported (name : String) : Source.Module :=
  { bareModule "file:///w/b.pkl" with classes := [⟨name, [], none, [], [], [], none⟩] }

def sharedStore : Store := Store.ofSources default .none [importer, imported "Foo"]

def importerTree : Tree := importer.treeAs (Store.idOf importer.uri) 1

example : (ask importerTree (.typeOf 2) (new sharedStore)).1 =
    .class ⟨⟨⟨"file:///w/b.pkl"⟩, 1⟩, "Foo"⟩ [] := by
  decide +kernel

/-- After a question about the property the class of the other module gets another name. -/
def updated : Session :=
  let s := (ask importerTree (.typeOf 2) (new sharedStore)).2
  { s with store := s.store.insertSource (imported "Bar") }

theorem reached_updated : Reached sharedStore updated := by
  have hshared : (new sharedStore).store.tree? importerTree.id = some importerTree := by
    decide
  exact .update (.ask .new hshared (.typeOf 2)) (by decide +kernel)

/-- The type of the property is a class until then and unknown afterwards, as for a new session. -/
theorem answersAnew_updated :
    (ask importerTree (.typeOf 2) (new sharedStore)).1
        = .class ⟨⟨⟨"file:///w/b.pkl"⟩, 1⟩, "Foo"⟩ [] ∧
      (ask importerTree (.typeOf 2) updated).1
        = (ask importerTree (.typeOf 2) (new updated.store)).1 ∧
      (ask importerTree (.typeOf 2) updated).1 = .unknown := by
  have hupdated : updated.store.tree? importerTree.id = some importerTree := by decide +kernel
  have hsources : ∀ m ∈ [importer, imported "Foo"], Store.idOf m.uri ≠ BaseModule.id := by
    decide
  have hshared : AnswersAnew sharedStore :=
    (answersAnew_iff ProjectIndex.manifestIn?_none).mpr hsources
  exact ⟨by decide +kernel, hshared updated reached_updated _ _ hupdated (.typeOf 2),
    by decide +kernel⟩

/-! ## A module under the identity of the base module -/

/-- A module that imports the base module, with a blank in front of the URI. -/
def baseImporter : Source.Module :=
  { bareModule "file:///w/m.pkl" with imports := [⟨blankUri, none, false, none⟩] }

/-- A store with another module under the identity of the base module. -/
def shadowingStore : Store :=
  Store.ofSources default .none [{ bareModule "pkl:base" with name := some "other" }, baseImporter]

def baseImporterTree : Tree := baseImporter.treeAs (Store.idOf baseImporter.uri) 1

/-- A session that has been asked for the type of the import. -/
def asked : Session := (ask baseImporterTree (.typeOf 1) (new shadowingStore)).2

/-- If a store may hold a module under the identity of the base module, an answer can depend on what
was asked before: the reference leads to that module first and to the base module from then on. -/
theorem not_forall_answersAnew :
    ¬∀ (config : GraphConfig) (files : Files) (sources : List Source.Module),
      (∀ dir, ProjectIndex.manifestIn? files dir = none) →
      AnswersAnew (Store.ofSources config files sources) := by
  intro h
  have hstored : (new shadowingStore).store.tree? baseImporterTree.id = some baseImporterTree := by
    decide
  have hstill : asked.store.tree? baseImporterTree.id = some baseImporterTree := by
    decide
  have hreached : Reached shadowingStore asked := .ask .new hstored (.typeOf 1)
  have hsame := h _ _ _ ProjectIndex.manifestIn?_none _ hreached _ _ hstill (.typeOf 1)
  have hdiffer : (typeOf baseImporterTree 1 asked).1
      ≠ (typeOf baseImporterTree 1 (new asked.store)).1 := by
    decide +kernel
  exact hdiffer hsame

end PklAnalysis.Session
