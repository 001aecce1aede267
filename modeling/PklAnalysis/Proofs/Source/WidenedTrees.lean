import PklAnalysis.Tree.Basic
import Mathlib.Data.List.Basic
import Mathlib.Data.Option.Basic

/-!
# Trees with hidden members and other imports

A tree widens another one if it has the same nodes in the same places, and beside them local
properties and methods of one name among the members of classes and modules.  More generally, a tree
embeds in another one if all of this is so but for import clauses: some of its import clauses may
stand in another order, and the other tree may have more of them.  Whatever looks for other nodes
finds the same ones.
-/

namespace PklAnalysis

/-- A local property or method with a name. -/
def NodeKind.isHidden (name : String) : NodeKind → Bool
  | .property h => h.modifiers.isLocal && h.name = name
  | .method h => h.modifiers.isLocal && h.name = name
  | _ => false

def NodeKind.isImport : NodeKind → Bool
  | .importClause _ => true
  | _ => false

/-- A class or a module. -/
def NodeKind.isOwner : NodeKind → Bool
  | .module .. | .class _ => true
  | _ => false

namespace Tree

/-- The import clause at a node, with the node. -/
def importAt? (t : Tree) (n : Nat) : Option (Nat × Import) :=
  match t.kind? n with
  | some (.importClause i) => some (n, i)
  | _ => none

theorem imports_eq_filterMap (t : Tree) : t.imports = (t.children root).filterMap t.importAt? := rfl

theorem mem_imports_iff {t : Tree} {n : Nat} {i : Import} : (n, i) ∈ t.imports ↔
    n ∈ t.children root ∧ t.kind? n = some (.importClause i) := by
  rw [imports_eq_filterMap, List.mem_filterMap]
  constructor
  · rintro ⟨c, hc, hclause⟩
    unfold importAt? at hclause
    split at hclause
    · next j hj =>
      obtain ⟨rfl, rfl⟩ := Prod.mk.inj (Option.some.inj hclause)
      exact ⟨hc, hj⟩
    · cases hclause
  · rintro ⟨hn, hkind⟩
    exact ⟨n, hn, by rw [importAt?, hkind]⟩

theorem import_cases {t : Tree} {n : Nat} (hn : (t.kind? n).any (·.isImport) = true) :
    ∃ i, t.kind? n = some (.importClause i) := by
  obtain ⟨kind, hkind, himport⟩ := (Option.any_eq_true _ _).mp hn
  cases kind with
  | importClause i => exact ⟨i, hkind⟩
  | _ => exact absurd himport Bool.false_ne_true

theorem hidden_cases {t : Tree} {name : String} {n : Nat}
    (hn : (t.kind? n).any (·.isHidden name) = true) :
    (∃ h, t.kind? n = some (.property h) ∧ h.modifiers.isLocal = true ∧ h.name = name) ∨
      ∃ h, t.kind? n = some (.method h) ∧ h.modifiers.isLocal = true ∧ h.name = name := by
  obtain ⟨kind, hkind, hhidden⟩ := (Option.any_eq_true _ _).mp hn
  cases kind with
  | property h =>
    rw [NodeKind.isHidden, Bool.and_eq_true, decide_eq_true_eq] at hhidden
    exact .inl ⟨h, hkind, hhidden⟩
  | method h =>
    rw [NodeKind.isHidden, Bool.and_eq_true, decide_eq_true_eq] at hhidden
    exact .inr ⟨h, hkind, hhidden⟩
  | _ => exact absurd hhidden Bool.false_ne_true

/-- The nodes of a tree are found again in another one, which has nothing else beside them but local
members of a name in classes and modules. -/
structure Widens (f : Nat → Nat) (name : String) (t t' : Tree) : Prop where
  id : t'.id = t.id
  root : f Tree.root = Tree.root
  kind : ∀ n, t'.kind? (f n) = t.kind? n
  parent : ∀ n, (t'.parent? (f n)).map Fin.val = (t.parent? n).map fun p => f p
  children : ∀ n, ∃ before hidden after, t.children n = before ++ after ∧
    t'.children (f n) = before.map f ++ hidden ++ after.map f ∧
    (hidden ≠ [] → (t.kind? n).any (·.isOwner) = true) ∧
    ∀ k ∈ hidden, (t'.kind? k).any (·.isHidden name) = true

/-- The nodes of a tree are found again in another one, in the same order but for the import clauses,
and the other one has nothing else beside them but import clauses and local members of a name in
classes and modules. -/
structure Embeds (f : Nat → Nat) (name : String) (t t' : Tree) : Prop where
  id : t'.id = t.id
  root : f Tree.root = Tree.root
  kind : ∀ n, t'.kind? (f n) = t.kind? n
  parent : ∀ n, (t'.parent? (f n)).map Fin.val = (t.parent? n).map fun p => f p
  children : ∀ n, ∃ before imports passed after, t.children n = before ++ imports ++ after ∧
    t'.children (f n) = before.map f ++ passed ++ after.map f ∧
    ((t.kind? n).any (·.isOwner) = false → imports = [] ∧ passed = []) ∧
    (∀ k ∈ imports, (t.kind? k).any (·.isImport) = true) ∧
    ∀ k ∈ passed, (t'.kind? k).any (·.isImport) = true ∨ (t'.kind? k).any (·.isHidden name) = true

namespace Widens

variable {f : Nat → Nat} {name : String} {t t' : Tree} (h : t.Widens f name t')
include h

theorem embeds : t.Embeds f name t' where
  id := h.id
  root := h.root
  kind := h.kind
  parent := h.parent
  children n := by
    obtain ⟨before, hidden, after, hold, hnew, howner, hall⟩ := h.children n
    refine ⟨before, [], hidden, after, by rw [hold, List.append_nil], hnew, fun hn => ⟨rfl, ?_⟩,
      List.forall_mem_nil _, fun k hk => .inr (hall k hk)⟩
    by_contra hhidden
    rw [howner hhidden] at hn
    exact absurd hn.symm Bool.false_ne_true

/-- A tree that widens another one has the same imports. -/
theorem imports_eq : t'.imports = t.imports.map fun e => (f e.1, e.2) := by
  obtain ⟨before, hidden, after, hold, hnew, -, hall⟩ := h.children Tree.root
  have hmap : ∀ l : List Nat, (l.map f).filterMap t'.importAt? =
      (l.filterMap t.importAt?).map fun e => (f e.1, e.2) := by
    intro l
    rw [List.filterMap_map, List.map_filterMap]
    refine congrArg (fun q => l.filterMap q) (funext fun n => ?_)
    simp only [importAt?, Function.comp_apply, h.kind]
    split <;> rfl
  have hnone : hidden.filterMap t'.importAt? = [] := by
    refine List.filterMap_eq_nil_iff.mpr fun k hk => ?_
    obtain ⟨_, hkind, -⟩ | ⟨_, hkind, -⟩ := hidden_cases (hall k hk) <;> rw [importAt?, hkind]
  rw [h.root] at hnew
  rw [imports_eq_filterMap, imports_eq_filterMap, hold, hnew, List.filterMap_append,
    List.filterMap_append, hnone, List.append_nil, hmap, hmap, List.filterMap_append,
    List.map_append]

end Widens

/-- A tree has nothing beside its own nodes. -/
theorem Embeds.refl (name : String) (t : Tree) : Embeds (fun n => n) name t t where
  id := rfl
  root := rfl
  kind _ := rfl
  parent n := by cases t.parent? n <;> rfl
  children n := ⟨t.children n, [], [], [], by simp, by simp, fun _ => ⟨rfl, rfl⟩, by simp, by simp⟩

namespace Embeds

variable {f : Nat → Nat} {name : String} {t t' : Tree} (h : t.Embeds f name t')
include h

/-! ## Children -/

/-- What is found among the children of a node is found again unless imports or hidden members come
in between. -/
theorem findSome?_children {α β : Type} {p : Nat → Option α} {p' : Nat → Option β} (g : α → β)
    (hp : ∀ n, p' (f n) = (p n).map g) (himport : ∀ k i, t.kind? k = some (.importClause i) →
      p k = none) (himport' : ∀ k i, t'.kind? k = some (.importClause i) → p' k = none)
    (hhidden : ∀ k, (t'.kind? k).any (·.isHidden name) = true → p' k = none) (n : Nat) :
    (t'.children (f n)).findSome? p' = ((t.children n).findSome? p).map g := by
  obtain ⟨before, imports, passed, after, hold, hnew, -, himports, hpassed⟩ := h.children n
  have hmap : ∀ l : List Nat, (l.map f).findSome? p' = (l.findSome? p).map g := by
    intro l
    induction l with
    | nil => rfl
    | cons k l ih =>
      rw [List.map_cons, List.findSome?_cons, List.findSome?_cons, hp]
      cases p k with
      | none => exact ih
      | some a => rfl
  have hnone : imports.findSome? p = none := by
    refine List.findSome?_eq_none_iff.mpr fun k hk => ?_
    obtain ⟨i, hi⟩ := import_cases (himports k hk)
    exact himport k i hi
  have hnone' : passed.findSome? p' = none := by
    refine List.findSome?_eq_none_iff.mpr fun k hk => ?_
    rcases hpassed k hk with hk | hk
    · obtain ⟨i, hi⟩ := import_cases hk
      exact himport' k i hi
    · exact hhidden k hk
  rw [hold, hnew, List.findSome?_append, List.findSome?_append, hnone', Option.or_none, hmap, hmap,
    List.findSome?_append, List.findSome?_append, hnone, Option.or_none]
  cases before.findSome? p <;> rfl

theorem find?_children {p p' : Nat → Bool} (hp : ∀ n, p' (f n) = p n)
    (himport : ∀ k i, t.kind? k = some (.importClause i) → p k = false)
    (himport' : ∀ k i, t'.kind? k = some (.importClause i) → p' k = false)
    (hhidden : ∀ k, (t'.kind? k).any (·.isHidden name) = true → p' k = false) (n : Nat) :
    (t'.children (f n)).find? p' = ((t.children n).find? p).map f := by
  have hguard (q : Nat → Bool) (l : List Nat) :
      l.find? q = l.findSome? fun k => if q k then some k else none :=
    List.find?_eq_findSome?_guard
  rw [hguard, hguard]
  refine h.findSome?_children f (fun n => ?_) (fun k i hk => ?_) (fun k i hk => ?_)
    (fun k hk => ?_) n
  · rw [hp]
    split <;> rfl
  · rw [himport k i hk, if_neg Bool.false_ne_true]
  · rw [himport' k i hk, if_neg Bool.false_ne_true]
  · rw [hhidden k hk, if_neg Bool.false_ne_true]

/-- Only classes and modules have imports or hidden members. -/
theorem children_of_kind {n : Nat} (hn : (t.kind? n).any (·.isOwner) = false) :
    t'.children (f n) = (t.children n).map f := by
  obtain ⟨before, imports, passed, after, hold, hnew, hempty, -, -⟩ := h.children n
  obtain ⟨rfl, rfl⟩ := hempty hn
  rw [hnew, hold, List.append_nil, List.append_nil, List.map_append]

theorem child?_of_kind {n : Nat} (hn : (t.kind? n).any (·.isOwner) = false) (i : Nat) :
    t'.child? (f n) i = (t.child? n i).map f := by
  rw [child?, child?, h.children_of_kind hn, List.getElem?_map]

theorem value?_eq (n : Nat) : t'.value? (f n) = (t.value? n).map f := by
  refine h.find?_children (fun c => by rw [h.kind]) (fun k i hk => by rw [hk]; rfl)
    (fun k i hk => by rw [hk]; rfl) (fun k hk => ?_) n
  obtain ⟨_, hkind, -⟩ | ⟨_, hkind, -⟩ := hidden_cases hk <;>
  · rw [hkind]
    rfl

/-! ## Ancestors -/

theorem parent?_some {n : Nat} {p : Fin n} (hp : t.parent? n = some p) :
    ∃ p', t'.parent? (f n) = some p' ∧ p'.val = f p := by
  have hparent := h.parent n
  rw [hp] at hparent
  exact Option.map_eq_some_iff.mp hparent

theorem parent?_none {n : Nat} (hp : t.parent? n = none) : t'.parent? (f n) = none := by
  have hparent := h.parent n
  rw [hp] at hparent
  exact Option.map_eq_none_iff.mp hparent

theorem ancestors_eq (n : Nat) : t'.ancestors (f n) = (t.ancestors n).map f := by
  induction n using Nat.strongRecOn with
  | ind n ih =>
    rw [Tree.ancestors, Tree.ancestors]
    cases hp : t.parent? n with
    | none => simp only [h.parent?_none hp, List.map_nil]
    | some p =>
      obtain ⟨p', hp', hval⟩ := h.parent?_some hp
      simp only [hp', hval, List.map_cons, ih p.val p.isLt]

/-! ## The module node -/

theorem moduleName?_eq : t'.moduleName? = t.moduleName? := by
  rw [moduleName?, moduleName?, ← h.kind, h.root]

theorem clause?_eq : t'.clause? = t.clause?.map fun c => (f c.1, c.2) := by
  rw [clause?, clause?]
  conv_lhs => rw [← h.root]
  refine h.findSome?_children _ (fun n => ?_) (fun k i hk => by rw [hk])
    (fun k i hk => by rw [hk]) (fun k hk => ?_) Tree.root
  · simp only [h.kind]
    split <;> rfl
  · obtain ⟨_, hkind, -⟩ | ⟨_, hkind, -⟩ := hidden_cases hk <;> rw [hkind]

theorem findType?_eq (type : String) : t'.findType? type = (t.findType? type).map f := by
  rw [findType?, findType?, declarations, declarations, List.find?_filter, List.find?_filter]
  conv_lhs => rw [← h.root]
  refine h.find?_children (fun n => ?_) (fun k i hk => ?_) (fun k i hk => ?_) (fun k hk => ?_)
    Tree.root
  · simp only [h.kind]
  · simp [hk]
  · simp [hk]
  · obtain ⟨_, hkind, -⟩ | ⟨_, hkind, -⟩ := hidden_cases hk <;> simp [hkind]

end Embeds

end Tree

end PklAnalysis
