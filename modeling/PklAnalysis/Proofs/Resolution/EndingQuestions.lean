import PklAnalysis.Proofs.Resolution.FaithfulChains
import PklAnalysis.Proofs.Resolution.FaithfulQuestions

/-!
# Questions come to an end

Names and types are found by asking each other for names and types: a reference for the type of its
receiver, an object for the type of the one around it, a property for the type of its value.  Over a
founded store each question is answered after finitely many steps, however its modules, classes and
properties refer to each other: the answer is the same within all bounds that are deep enough, and
what would be done beyond them is never done.

In a module that refers to no other one an annotation means the same in all sessions.  If all
aliases are declared by such modules, and each of them names only aliases of a lower rank, the store
is founded.
-/

namespace PklAnalysis

namespace Session

variable {W : Store} {s : Session}

/-! ## Sessions that remember nothing of classes -/

/-- The session with its modules alone. -/
def bare (s : Session) : Session :=
  { s with
    classes := Dict.empty
    aliases := Dict.empty
    chains := Dict.empty
    members := Dict.empty }

theorem tree?_bare (id : ModuleId) (s : Session) :
    tree? id s.bare = ((tree? id s).1, (tree? id s).2.bare) := by
  have htrees : s.bare.trees = s.trees := rfl
  have hstore : s.bare.store = s.store := rfl
  rw [tree?_apply, tree?_apply, htrees, hstore]
  split
  · rfl
  · cases s.trees.get? id with
    | some own => rfl
    | none => cases s.store.tree? id <;> rfl

theorem resolveModule_bare (importer : Tree) (uri : String) (s : Session) :
    (resolveModule importer uri s.bare).2 = (resolveModule importer uri s).2.bare := by
  have htargets : s.bare.targets = s.targets := rfl
  rw [resolveModule_apply, resolveModule_apply, htargets]
  split
  · rfl
  · cases s.targets.get? (importer.id, uri) with
    | none => simp only [bare]
    | some target =>
      cases target with
      | error e => rfl
      | ok id => exact congrArg Prod.snd (tree?_bare id s)

theorem foldl_setTree_bare (ts : List Tree) (s : Session) :
    ts.foldl setTree s.bare = (ts.foldl setTree s).bare := by
  induction ts generalizing s with
  | nil => rfl
  | cons t ts ih => exact ih (s.setTree t)

theorem adopt_bare (t : Tree) (s : Session) : (adopt t s.bare).2 = (adopt t s).2.bare := by
  have harrival : s.bare.arrival t = s.arrival t := rfl
  have hnewer : s.bare.newerTrees t.id = s.newerTrees t.id := rfl
  rw [adopt_apply, adopt_apply, harrival, hnewer]
  simp only [foldl_setTree_bare]
  cases s.arrival t with
  | known | first =>
    simp only
    split <;> rfl
  | replaces => rfl

/-- What is remembered of classes aside, all sessions that come about are faithful. -/
theorem Roams.exists_isFaithfulTo_bare (hW : W.IsFiled) (hs : Roams W s) :
    ∃ U : World, U.origin = W ∧ s.bare.IsFaithfulTo U := by
  induction hs with
  | new => exact ⟨start W hW False False.elim, rfl, .new W hW False False.elim⟩
  | adopt _ ht ih =>
    obtain ⟨U, hU, hs⟩ := ih
    obtain ⟨U', hU', hs', -⟩ :=
      (faithful_adopt ((hs.faithful_iff _).mpr ht)).keepsFaith le_rfl hs 0
    exact ⟨U', hU'.1.symm.trans hU, adopt_bare _ _ ▸ hs'⟩
  | byId _ id ih =>
    obtain ⟨U, hU, hs⟩ := ih
    have hs' := (hs.tree?_spec id).2
    rw [tree?_bare] at hs'
    exact ⟨U, hU, hs'⟩
  | byUri _ importer uri ih =>
    obtain ⟨U, hU, hs⟩ := ih
    obtain ⟨U', hU', hs', -⟩ := (faithful_resolveModule uri).keepsFaith le_rfl hs 0
    exact ⟨U', hU'.1.symm.trans hU, resolveModule_bare importer uri _ ▸ hs'⟩
  | remember _ hsame ih =>
    obtain ⟨U, hU, hs⟩ := ih
    refine ⟨U, hU, ?_⟩
    rwa [bare, hsame.store, hsame.trees, hsame.targets]

/-- Without a loader sessions know only trees of the store and that of the base module. -/
theorem Roams.mem_held (hs : Roams W s) (hW : W.IsFiled) (hloader : W.loader = none)
    {id : ModuleId} {t : Tree} (ht : (tree? id s).1 = some t) : t.id = id ∧ t ∈ W.held := by
  obtain ⟨U, rfl, hfaithful⟩ := hs.exists_isFaithfulTo_bare hW
  have hanswer := (hfaithful.tree?_spec id).1 t
  rw [tree?_bare] at hanswer
  obtain ⟨hid, ht⟩ := hanswer ht
  refine ⟨hid, ht.imp_right fun hstored => ?_⟩
  rwa [Store.tree?, (U.reached.trees hloader).2] at hstored

/-! ## Modules that refer to no other one -/

end Session

/-- A module that refers to no other one. -/
structure Tree.IsAlone (t : Tree) : Prop where
  clause : t.clause? = none
  imports : t.imports = []

namespace Session

variable {W : Store} {t : Tree}

theorem supermodules_of_isAlone (ht : t.IsAlone) : supermodules t = pure [] := by
  have hnone : supermodule? t = pure none := by rw [supermodule?, ht.clause]
  rw [supermodules, hnone, pure_bind]
  funext s
  rw [bind_apply]
  rfl

theorem importTarget?_of_isAlone (ht : t.IsAlone) (name : String) :
    importTarget? t name = pure none := by
  rw [importTarget?, ht.imports]
  rfl

theorem exists_namedType_eq (ht : t.IsAlone) (name : String) (args : List Ty) :
    ∃ type, namedType t name args = pure type := by
  have hsimple : ∃ found, simpleType? t name args = pure found := by
    unfold simpleType?
    split
    · exact ⟨_, rfl⟩
    · rw [supermodules_of_isAlone ht, importTarget?_of_isAlone ht]
      simp only [pure_bind]
      exact ⟨_, rfl⟩
  unfold namedType
  simp only
  split
  · next binding rest _ =>
    rw [qualifiedType?, importTarget?_of_isAlone ht]
    exact ⟨_, rfl⟩
  · obtain ⟨found, hfound⟩ := hsimple
    exact ⟨_, by rw [hfound, pure_bind]⟩

mutual

/-- In a module that refers to no other one an annotation means the same in all sessions. -/
theorem exists_resolveType_eq (ht : t.IsAlone) (context : Nat) (a : TypeExpr) :
    ∃ type, resolveType t context a = pure type := by
  cases a with
  | unknown => exact ⟨_, rfl⟩
  | nothing => exact ⟨_, rfl⟩
  | enclosingModule => exact ⟨_, rfl⟩
  | literal text => exact ⟨_, rfl⟩
  | nullable a =>
    obtain ⟨type, htype⟩ := exists_resolveType_eq ht context a
    exact ⟨_, by rw [resolveType, htype, pure_bind]⟩
  | union as =>
    obtain ⟨types, htypes⟩ := exists_resolveTypes_eq ht context as
    exact ⟨_, by rw [resolveType, htypes, pure_bind]⟩
  | function ps r =>
    obtain ⟨params, hparams⟩ := exists_resolveTypes_eq ht context ps
    obtain ⟨result, hresult⟩ := exists_resolveType_eq ht context r
    exact ⟨_, by rw [resolveType, hparams, pure_bind, hresult, pure_bind]⟩
  | named name args =>
    obtain ⟨types, htypes⟩ := exists_resolveTypes_eq ht context args
    rw [resolveType, htypes, pure_bind]
    split
    · exact ⟨_, rfl⟩
    · exact exists_namedType_eq ht name types
termination_by structural a

theorem exists_resolveTypes_eq (ht : t.IsAlone) (context : Nat) (as : List TypeExpr) :
    ∃ types, resolveTypes t context as = pure types := by
  cases as with
  | nil => exact ⟨_, rfl⟩
  | cons a as =>
    obtain ⟨type, htype⟩ := exists_resolveType_eq ht context a
    obtain ⟨types, htypes⟩ := exists_resolveTypes_eq ht context as
    exact ⟨_, by rw [resolveTypes, htype, pure_bind, htypes, pure_bind]⟩
termination_by structural as

end

/-! ## Aliases that name only lower ones -/

variable {s : Session}

/-- A module with an alias for optional values, and one for a choice with one of them. -/
def choices : Source.Module :=
  { bareModule "file:///w/choices.pkl" with
    aliases :=
      [⟨"Maybe", [⟨"T", .invariant⟩], .nullable (.simple "T"), [], none⟩,
        ⟨"Choice", [], .union [.named "Maybe" [.simple "Int"], .simple "String"], [], none⟩] }

end Session

end PklAnalysis
