import PklAnalysis.Proofs.Source.OffsetQueries
import PklAnalysis.Proofs.Source.SoughtNames
import PklAnalysis.Proofs.Source.Unplaced

/-!
# Descriptions with other imports

When the imports of a description are replaced by others, among which all of them are found again,
the nodes before the imports keep their numbers, those of the imports change places and those behind
them are shifted.  The tree of the description is embedded in that of the other one.
-/

namespace PklAnalysis

/-! ## New numbers -/

/-- New numbers for the nodes of a module: from the number `first` on there are nodes of `k`
imports, of which the `i`-th becomes the `σ i`-th of `k'` imports. -/
def moveImports (first k k' : Nat) (σ : Nat → Nat) (n : Nat) : Nat :=
  if n < first then n else if n < first + k then first + σ (n - first) else n - k + k'

section Numbers

variable {first k k' : Nat} {σ : Nat → Nat}

theorem moveImports_before {n : Nat} (hn : n < first) : moveImports first k k' σ n = n := if_pos hn

theorem moveImports_import {i : Nat} (hi : i < k) :
    moveImports first k k' σ (first + i) = first + σ i := by
  rw [moveImports, if_neg (by omega), if_pos (by omega), Nat.add_sub_cancel_left]

theorem moveImports_behind (j : Nat) :
    moveImports first k k' σ (first + k + j) = first + k' + j := by
  rw [moveImports, if_neg (by omega), if_neg (by omega)]
  omega

theorem moveImports_injective (hσ : ∀ i < k, σ i < k')
    (hinj : ∀ i < k, ∀ j < k, σ i = σ j → i = j) :
    Function.Injective (moveImports first k k' σ) := by
  -- before, among and behind the imports the new numbers are apart from each other
  have hcases (n : Nat) : (n < first ∧ moveImports first k k' σ n = n) ∨
      (∃ i < k, n = first + i ∧ moveImports first k k' σ n = first + σ i) ∨
      ∃ j, n = first + k + j ∧ moveImports first k k' σ n = first + k' + j := by
    by_cases hn : n < first
    · exact .inl ⟨hn, moveImports_before hn⟩
    · by_cases hi : n - first < k
      · refine .inr (.inl ⟨n - first, hi, by omega, ?_⟩)
        conv_lhs => rw [show n = first + (n - first) by omega, moveImports_import hi]
      · refine .inr (.inr ⟨n - first - k, by omega, ?_⟩)
        conv_lhs => rw [show n = first + k + (n - first - k) by omega, moveImports_behind]
  intro n n' h
  obtain ⟨hn, hf⟩ | ⟨i, hi, rfl, hf⟩ | ⟨j, rfl, hf⟩ := hcases n <;>
    obtain ⟨hn', hf'⟩ | ⟨i', hi', rfl, hf'⟩ | ⟨j', rfl, hf'⟩ := hcases n' <;>
    rw [hf, hf'] at h
  · exact h
  · omega
  · omega
  · omega
  · rw [hinj i hi i' hi' (Nat.add_left_cancel h)]
  · have hlt := hσ i hi
    omega
  · omega
  · have hlt := hσ i' hi'
    omega
  · omega

/-- All numbers but those of the new imports are met. -/
theorem exists_moveImports {n' : Nat} (hn' : n' < first ∨ first + k' ≤ n') :
    ∃ n, moveImports first k k' σ n = n' := by
  rcases hn' with hn' | hn'
  · exact ⟨n', moveImports_before hn'⟩
  · refine ⟨first + k + (n' - first - k'), ?_⟩
    rw [moveImports_behind]
    omega

end Numbers

theorem Tree.HoldsAll.of_append {t : Tree} {p n : Nat} {os os' : List Outline}
    (h : t.HoldsAll p n (os ++ os')) :
    t.HoldsAll p n os ∧ t.HoldsAll p (n + Outline.sizeOfAll os) os' := by
  obtain ⟨before, after, cursor, hn, hnodes⟩ := h
  rw [Outline.nodesOfAll_append] at hnodes
  constructor
  · refine ⟨before, Outline.nodesOfAll p (n + Outline.sizeOfAll os)
      (cursor + 2 * Outline.sizeOfAll os) os' ++ after, cursor, hn, ?_⟩
    rw [hnodes]
    simp only [List.append_assoc]
  · refine ⟨before ++ Outline.nodesOfAll p n cursor os, after, cursor + 2 * Outline.sizeOfAll os,
      ?_, ?_⟩
    · rw [List.length_append, Outline.length_nodesOfAll, hn]
    · rw [hnodes]
      simp only [List.append_assoc]

/-- The elements of a list by their places, counted from a number on. -/
theorem filterMap_range'_getElem? {α : Type} (first : Nat) (l : List α) :
    (List.range' first l.length).filterMap (fun k => l[k - first]?) = l := by
  induction l generalizing first with
  | nil => rfl
  | cons a l ih =>
    have hrest : ∀ k ∈ List.range' (first + 1) l.length,
        (a :: l)[k - first]? = l[k - (first + 1)]? := by
      intro k hk
      obtain ⟨n, -, rfl⟩ := List.mem_range'.mp hk
      rw [show first + 1 + 1 * n - first = n + 1 by omega,
        show first + 1 + 1 * n - (first + 1) = n by omega, List.getElem?_cons_succ]
    rw [List.length_cons, List.range'_succ, List.filterMap_cons, Nat.sub_self,
      List.getElem?_cons_zero, List.filterMap_congr hrest, ih]

/-- An import that is found again among those of another tree is one of the tree. -/
theorem Tree.Embeds.mem_imports {f : Nat → Nat} {name : String} {t t' : Tree}
    (h : t.Embeds f name t') (hf : Function.Injective f) (ht : t.IsPreOrder) (ht' : t'.IsPreOrder)
    {n : Nat} {i : Import} (hi : (f n, i) ∈ t'.imports) : (n, i) ∈ t.imports := by
  obtain ⟨hchild, hkind⟩ := Tree.mem_imports_iff.mp hi
  rw [h.kind] at hkind
  refine Tree.mem_imports_iff.mpr ⟨?_, hkind⟩
  obtain ⟨hlt, hparent⟩ := ht'.parent?_of_mem_children hchild
  have hn : n < t.size := List.mem_range.mp (Tree.mem_indices_of_kind? hkind)
  have hne : n ≠ Tree.root := by
    rintro rfl
    rw [h.root] at hlt
    exact Nat.lt_irrefl _ hlt
  obtain ⟨p, -, hp⟩ := ht.exists_mem_children hn hne
  -- the parents correspond to each other
  obtain ⟨hlt', hparent'⟩ := ht.parent?_of_mem_children hp
  have hparents := h.parent n
  rw [hparent, hparent'] at hparents
  have hsame : Tree.root = f p := Option.some.inj hparents
  have hroot : p = Tree.root := hf (hsame.symm.trans h.root.symm)
  exact hroot ▸ hp

namespace Source

open Outline

/-! ## Import clauses in an outline -/

theorem sizeOfAll_imports (is : List Import) : sizeOfAll (is.map importOutline) = is.length := by
  induction is with
  | nil => rfl
  | cons i is ih =>
    rw [List.map_cons, sizeOfAll, ih, List.length_cons, importOutline, size, sizeOfAll]
    omega

theorem siblingIndices_imports (n : Nat) (is : List Import) :
    siblingIndices n (is.map importOutline) = List.range' n is.length := by
  induction is generalizing n with
  | nil => rfl
  | cons i is ih =>
    rw [List.map_cons, siblingIndices, ih, List.length_cons, List.range'_succ]
    rfl

/-- The node of an import clause. -/
theorem exists_node_import (parent index cursor : Nat) {is : List Import} {n : Nat} {i : Import}
    (hi : is[n]? = some i) : ∃ span,
      (nodesOfAll parent index cursor (is.map importOutline))[n]? =
        some ⟨.importClause i.clause, some parent, [], span⟩ := by
  induction is generalizing n index cursor with
  | nil => cases hi
  | cons j is ih =>
    rw [List.map_cons, nodesOfAll]
    cases n with
    | zero =>
      obtain rfl := Option.some.inj hi
      exact ⟨_, rfl⟩
    | succ n => exact ih _ _ hi

/-! ## The body of a description -/

/-- What stands behind the imports. -/
def bodyOutlines (m : Module) : List Outline :=
  m.classes.map classOutline ++ m.aliases.map aliasOutline ++ m.properties.map propertyOutline
    ++ m.methods.map methodOutline

/-- The number of the first import. -/
def Module.firstImport (m : Module) : Nat := 1 + sizeOfAll (clauseOutline m)

theorem outline_eq (m : Module) : m.outline = .node (.module m.name m.isOpen) none
    (clauseOutline m ++ (m.imports.map importOutline ++ bodyOutlines m)) := by
  simp only [Module.outline, bodyOutlines, List.append_assoc]

theorem children_root_treeAs (m : Module) (id : ModuleId) (version : Nat) :
    (m.treeAs id version).children Tree.root = siblingIndices 1 (clauseOutline m) ++
      List.range' m.firstImport m.imports.length ++
        siblingIndices (m.firstImport + m.imports.length) (bodyOutlines m) := by
  rw [Module.treeAs, (Tree.holds_tree m.outline id version).children_eq, outline_eq,
    Outline.children, siblingIndices_append, siblingIndices_append, siblingIndices_imports,
    sizeOfAll_imports, List.append_assoc]
  rfl

/-- The nodes of a tree, apart from the first one: those before the imports, those of the imports,
and those behind them. -/
theorem node?_treeAs_succ (m : Module) (id : ModuleId) (version n : Nat) :
    (m.treeAs id version).node? (n + 1) = (nodesOfAll 0 1 1 (clauseOutline m) ++
      (nodesOfAll 0 m.firstImport (1 + 2 * sizeOfAll (clauseOutline m))
          (m.imports.map importOutline) ++
        nodesOfAll 0 (m.firstImport + m.imports.length)
          (1 + 2 * sizeOfAll (clauseOutline m) + 2 * m.imports.length) (bodyOutlines m)))[n]? := by
  rw [Module.treeAs, Tree.node?, Outline.tree, List.getElem?_toArray, outline_eq, nodes,
    nodesOfAll_append, nodesOfAll_append, sizeOfAll_imports, List.getElem?_cons_succ]
  rfl

section Nodes

variable (m : Module) (id : ModuleId) (version : Nat)

theorem node?_clause {n : Nat} (hn : n < sizeOfAll (clauseOutline m)) :
    (m.treeAs id version).node? (n + 1) = (nodesOfAll 0 1 1 (clauseOutline m))[n]? := by
  rw [node?_treeAs_succ, List.getElem?_append_left (by rwa [length_nodesOfAll])]

/-- The nodes of the imports are import clauses. -/
theorem node?_import {n : Nat} {i : Import} (hi : m.imports[n]? = some i) : ∃ span,
    (m.treeAs id version).node? (m.firstImport + n) =
      some ⟨.importClause i.clause, some 0, [], span⟩ := by
  have hlt : n < m.imports.length := (List.getElem?_eq_some_iff.mp hi).1
  have hfirst : m.firstImport + n = (sizeOfAll (clauseOutline m) + n) + 1 := by
    rw [Module.firstImport]
    omega
  rw [hfirst, node?_treeAs_succ, List.getElem?_append_right (by simp), length_nodesOfAll,
    Nat.add_sub_cancel_left, List.getElem?_append_left (by
      rwa [length_nodesOfAll, sizeOfAll_imports])]
  exact exists_node_import 0 _ _ hi

theorem node?_body (n : Nat) :
    (m.treeAs id version).node? (m.firstImport + m.imports.length + n) =
      (nodesOfAll 0 (m.firstImport + m.imports.length)
        (1 + 2 * sizeOfAll (clauseOutline m) + 2 * m.imports.length) (bodyOutlines m))[n]? := by
  have hfirst : m.firstImport + m.imports.length + n =
      (sizeOfAll (clauseOutline m) + (m.imports.length + n)) + 1 := by
    rw [Module.firstImport]
    omega
  rw [hfirst, node?_treeAs_succ, List.getElem?_append_right (by simp), length_nodesOfAll,
    Nat.add_sub_cancel_left, List.getElem?_append_right (by simp [sizeOfAll_imports]),
    length_nodesOfAll, sizeOfAll_imports, Nat.add_sub_cancel_left]

theorem kind?_import {n : Nat} {i : Import} (hi : m.imports[n]? = some i) :
    (m.treeAs id version).kind? (m.firstImport + n) = some (.importClause i.clause) := by
  obtain ⟨span, hnode⟩ := node?_import m id version hi
  rw [Tree.kind?, hnode, Option.map_some]

/-- The first node is that of the module. -/
theorem node?_root : ∃ children span, (m.treeAs id version).node? Tree.root =
    some ⟨.module m.name m.isOpen, none, children, span⟩ :=
  ⟨_, _, (Tree.holdsAt_tree m.outline id version).node?⟩

/-- The other children of the first node are no import clauses. -/
theorem kind?_ne_import {n : Nat} (hn : n ∈ siblingIndices 1 (clauseOutline m) ∨
    n ∈ siblingIndices (m.firstImport + m.imports.length) (bodyOutlines m))
    (i : PklAnalysis.Import) : (m.treeAs id version).kind? n ≠ some (.importClause i) := by
  have hclause : ∀ o ∈ clauseOutline m, o.kind.import? = none := by
    intro o ho
    rw [clauseOutline] at ho
    split at ho
    · rw [List.mem_singleton.mp ho]
      rfl
    · rw [List.mem_singleton.mp ho]
      rfl
    · cases ho
  have hbody : ∀ o ∈ bodyOutlines m, o.kind.import? = none := by
    simp only [bodyOutlines, List.forall_mem_append, List.forall_mem_map]
    exact ⟨⟨⟨fun _ _ => rfl, fun _ _ => rfl⟩, fun _ _ => rfl⟩, fun _ _ => rfl⟩
  have hnone : ∀ {p k : Nat} {os : List Outline}, (m.treeAs id version).HoldsAll p k os →
      n ∈ siblingIndices k os → (∀ o ∈ os, o.kind.import? = none) →
      (m.treeAs id version).kind? n ≠ some (.importClause i) := by
    intro p k os hos hn hall hkind
    obtain ⟨o, ho, hholds⟩ := hos.exists_holds hn
    obtain ⟨span, hnode⟩ := hholds.node?
    have himport := hall o ho
    rw [Tree.kind?, hnode, Option.map_some, Option.some_inj] at hkind
    rw [show o.kind = .importClause i from hkind] at himport
    cases himport
  have hchildren : m.outline.children =
      clauseOutline m ++ (m.imports.map importOutline ++ bodyOutlines m) := by
    rw [outline_eq, Outline.children]
  have hholds := (Tree.holds_tree m.outline id version).children
  rw [hchildren] at hholds
  obtain ⟨hbefore, hrest⟩ := hholds.of_append
  obtain ⟨-, hbehind⟩ := hrest.of_append
  rw [sizeOfAll_imports] at hbehind
  exact hn.elim (fun hn => hnone hbefore hn hclause) fun hn => hnone hbehind hn hbody

/-- The import clauses with their nodes. -/
theorem imports_treeAs : (m.treeAs id version).imports =
    m.imports.mapIdx fun n i => (m.firstImport + n, i.clause) := by
  have hnone (n : Nat) (hn : n ∈ siblingIndices 1 (clauseOutline m) ∨
      n ∈ siblingIndices (m.firstImport + m.imports.length) (bodyOutlines m)) :
      (m.treeAs id version).importAt? n = none := by
    rw [Tree.importAt?]
    split
    · next i hi => exact absurd hi (kind?_ne_import m id version hn i)
    · rfl
  have himports : (List.range' m.firstImport m.imports.length).filterMap
      (m.treeAs id version).importAt? =
        m.imports.mapIdx fun n i => (m.firstImport + n, i.clause) := by
    have hread : ∀ k ∈ List.range' m.firstImport m.imports.length,
        (m.treeAs id version).importAt? k = ((m.imports.mapIdx fun n i =>
          (m.firstImport + n, i.clause))[k - m.firstImport]?) := by
      intro k hk
      obtain ⟨n, hn, rfl⟩ := List.mem_range'.mp hk
      rw [Nat.one_mul, Nat.add_sub_cancel_left, Tree.importAt?,
        kind?_import m id version (List.getElem?_eq_getElem hn), List.getElem?_mapIdx,
        List.getElem?_eq_getElem hn, Option.map_some]
    have hall := filterMap_range'_getElem? m.firstImport
      (m.imports.mapIdx fun n i => (m.firstImport + n, i.clause))
    rw [List.length_mapIdx] at hall
    rw [List.filterMap_congr hread, hall]
  rw [Tree.imports_eq_filterMap, children_root_treeAs, List.filterMap_append,
    List.filterMap_append, List.filterMap_eq_nil_iff.mpr fun n hn => hnone n (.inl hn),
    List.filterMap_eq_nil_iff.mpr fun n hn => hnone n (.inr hn), List.append_nil,
    List.nil_append, himports]

end Nodes

/-! ## Replacing the imports -/

/-- Two descriptions differ in their imports only, apart from places. -/
structure Module.SameBody (m m' : Module) : Prop where
  name : m'.name = m.name
  isOpen : m'.isOpen = m.isOpen
  clause : clauseOutline m' = clauseOutline m
  body : unplacedAll (bodyOutlines m) = unplacedAll (bodyOutlines m')

/-- The imports of a description are found again among those of another one. -/
structure Module.ImportsAmong (m m' : Module) (σ : Nat → Nat) : Prop where
  clause : ∀ n < m.imports.length,
    (m'.imports[σ n]?).map Import.clause = (m.imports[n]?).map Import.clause
  injective : ∀ i < m.imports.length, ∀ j < m.imports.length, σ i = σ j → i = j

section Replaced

variable {m m' : Module} {σ : Nat → Nat}

/-- The numbers of the nodes after the imports have been replaced. -/
abbrev Module.moved (m m' : Module) (σ : Nat → Nat) : Nat → Nat :=
  moveImports m.firstImport m.imports.length m'.imports.length σ

theorem Module.ImportsAmong.lt (h : m.ImportsAmong m' σ) {n : Nat} (hn : n < m.imports.length) :
    σ n < m'.imports.length := by
  have hclause := h.clause n hn
  rw [List.getElem?_eq_getElem hn, Option.map_some] at hclause
  obtain ⟨i, hi, -⟩ := Option.map_eq_some_iff.mp hclause
  exact (List.getElem?_eq_some_iff.mp hi).1

theorem Module.ImportsAmong.moved_injective (h : m.ImportsAmong m' σ) :
    Function.Injective (m.moved m' σ) :=
  moveImports_injective (fun _ => h.lt) h.injective

variable (hsame : m.SameBody m') (hamong : m.ImportsAmong m' σ)
include hsame hamong

/-- Each node but the first is found again. -/
theorem node?_moved (id : ModuleId) (version version' : Nat) {n : Nat} (hn : n ≠ Tree.root) :
    ((m.treeAs id version).node? n = none ∧
      (m'.treeAs id version').node? (m.moved m' σ n) = none) ∨
    ∃ a a', (m.treeAs id version).node? n = some a ∧
      (m'.treeAs id version').node? (m.moved m' σ n) = some a' ∧ a.Moved (m.moved m' σ) a' := by
  obtain ⟨n, rfl⟩ := Nat.exists_eq_add_one_of_ne_zero hn
  have hfirst : m'.firstImport = m.firstImport := by
    rw [Module.firstImport, Module.firstImport, hsame.clause]
  have hfirst' : m.firstImport = sizeOfAll (clauseOutline m) + 1 := Nat.add_comm _ _
  have hroot : m.moved m' σ 0 = 0 := moveImports_before (by omega)
  rcases Nat.lt_or_ge n (sizeOfAll (clauseOutline m)) with hn | hn
  · have hlow : ∀ j < sizeOfAll (clauseOutline m), m.moved m' σ (1 + j) = 1 + j :=
      fun j hj => moveImports_before (by omega)
    have hmoved : List.Forall₂ (Node.Moved (m.moved m' σ)) (nodesOfAll 0 1 1 (clauseOutline m))
        (nodesOfAll 0 1 1 (clauseOutline m)) := moved_nodesOfAll rfl hroot 1 1 hlow
    have hn' : m.moved m' σ (n + 1) = n + 1 := moveImports_before (by omega)
    rw [hn', node?_clause m id version hn, node?_clause m' id version' (hsame.clause ▸ hn),
      hsame.clause]
    exact getElem?_forall₂ hmoved n
  · obtain ⟨k, rfl⟩ := Nat.exists_eq_add_of_le hn
    have hindex : sizeOfAll (clauseOutline m) + k + 1 = m.firstImport + k := by omega
    rw [hindex]
    rcases Nat.lt_or_ge k m.imports.length with hk | hk
    · -- an import is found again at its new place
      have hclause := hamong.clause k hk
      rw [List.getElem?_eq_getElem hk, Option.map_some] at hclause
      obtain ⟨i, hi, hclause⟩ := Option.map_eq_some_iff.mp hclause
      obtain ⟨span, hnode⟩ := node?_import m id version (List.getElem?_eq_getElem hk)
      obtain ⟨span', hnode'⟩ := node?_import m' id version' hi
      rw [hfirst] at hnode'
      have hmoved : m.moved m' σ (m.firstImport + k) = m.firstImport + σ k := moveImports_import hk
      rw [hmoved]
      refine .inr ⟨_, _, hnode, hnode', congrArg NodeKind.importClause hclause, ?_, rfl⟩
      rw [Option.map_some, hroot]
    · obtain ⟨j, rfl⟩ := Nat.exists_eq_add_of_le hk
      have hmoved : m.moved m' σ (m.firstImport + m.imports.length + j) =
          m.firstImport + m'.imports.length + j := moveImports_behind j
      have hnodes := moved_nodesOfAll (f := m.moved m' σ) hsame.body hroot
        (1 + 2 * sizeOfAll (clauseOutline m) + 2 * m.imports.length)
        (1 + 2 * sizeOfAll (clauseOutline m') + 2 * m'.imports.length)
        fun j _ => moveImports_behind j
      have hbody := node?_body m' id version' j
      rw [hfirst] at hbody
      rw [← Nat.add_assoc, hmoved, node?_body, hbody]
      exact getElem?_forall₂ hnodes j

/-- Only the module has other children than before. -/
theorem children_moved (id : ModuleId) (version version' : Nat) {n : Nat} (hn : n ≠ Tree.root) :
    (m'.treeAs id version').children (m.moved m' σ n) =
      ((m.treeAs id version).children n).map (m.moved m' σ) := by
  rw [Tree.children, Tree.children]
  obtain ⟨hnone, hnone'⟩ | ⟨a, a', ha, ha', hmoved⟩ :=
    node?_moved hsame hamong id version version' hn
  · rw [hnone, hnone', List.map_nil]
  · rw [ha, ha']
    exact hmoved.children

omit hamong in
/-- The children of the module are found again, with other imports in between. -/
theorem children_root_moved (id : ModuleId) (version' : Nat) :
    (m'.treeAs id version').children Tree.root =
      (siblingIndices 1 (clauseOutline m)).map (m.moved m' σ) ++
        List.range' m'.firstImport m'.imports.length ++
        (siblingIndices (m.firstImport + m.imports.length) (bodyOutlines m)).map
          (m.moved m' σ) := by
  have hfirst : m'.firstImport = m.firstImport := by
    rw [Module.firstImport, Module.firstImport, hsame.clause]
  have hbefore : siblingIndices 1 (clauseOutline m) =
      (siblingIndices 1 (clauseOutline m)).map (m.moved m' σ) := by
    refine siblingIndices_shift rfl fun j hj => moveImports_before ?_
    rw [Module.firstImport]
    omega
  have hbehind : siblingIndices (m.firstImport + m'.imports.length) (bodyOutlines m') =
      (siblingIndices (m.firstImport + m.imports.length) (bodyOutlines m)).map (m.moved m' σ) :=
    siblingIndices_shift hsame.body fun j _ => moveImports_behind j
  rw [children_root_treeAs, hsame.clause, ← hbefore, hfirst, hbehind]

/-- The tree of a description is embedded in that of a description with more imports in another
order. -/
theorem embeds_treeAs (name : String) (id : ModuleId) (version version' : Nat) :
    (m.treeAs id version).Embeds (m.moved m' σ) name (m'.treeAs id version') := by
  have hroot : m.moved m' σ Tree.root = Tree.root :=
    moveImports_before (by rw [Module.firstImport, Tree.root]; omega)
  obtain ⟨children, span, hfirst⟩ := node?_root m id version
  obtain ⟨children', span', hfirst'⟩ := node?_root m' id version'
  rw [hsame.name, hsame.isOpen] at hfirst'
  refine ⟨rfl, hroot, fun n => ?_, fun n => ?_, fun n => ?_⟩
  · by_cases hn : n = Tree.root
    · subst hn
      rw [hroot, Tree.kind?, Tree.kind?, hfirst, hfirst', Option.map_some, Option.map_some]
    · rw [Tree.kind?, Tree.kind?]
      obtain ⟨hnode, hnode'⟩ | ⟨a, a', ha, ha', hmoved⟩ :=
        node?_moved hsame hamong id version version' hn
      · rw [hnode, hnode']
      · rw [ha, ha', Option.map_some, Option.map_some, hmoved.kind]
  · by_cases hn : n = Tree.root
    · subst hn
      rw [hroot, Tree.parent?, Tree.parent?, hfirst, hfirst']
      rfl
    · obtain ⟨hnode, hnode'⟩ | ⟨a, a', ha, ha', hmoved⟩ :=
        node?_moved hsame hamong id version version' hn
      · rw [Tree.parent?, Tree.parent?, hnode, hnode']
        rfl
      · have hne : m.moved m' σ n ≠ Tree.root := fun h =>
          hn (hamong.moved_injective (h.trans hroot.symm))
        obtain ⟨p, hlt, hp, -⟩ := (m.isPreOrder_treeAs id version).parent n a ha hn
        obtain ⟨p', hlt', hp', -⟩ := (m'.isPreOrder_treeAs id version').parent _ a' ha' hne
        have hparents := hmoved.parent
        rw [hp, hp', Option.map_some, Option.some_inj] at hparents
        subst hparents
        rw [Tree.parent?_of_parent ha hp hlt, Tree.parent?_of_parent ha' hp' hlt']
        rfl
  · by_cases hn : n = Tree.root
    · subst hn
      rw [hroot]
      refine ⟨_, _, _, _, children_root_treeAs m id version,
        children_root_moved hsame id version', fun howner => ?_, fun k hk => ?_,
        fun k hk => .inl ?_⟩
      · rw [Tree.kind?, hfirst] at howner
        exact absurd howner.symm Bool.false_ne_true
      · obtain ⟨i, hi, rfl⟩ := List.mem_range'.mp hk
        rw [Nat.one_mul, kind?_import m id version (List.getElem?_eq_getElem hi)]
        rfl
      · obtain ⟨i, hi, rfl⟩ := List.mem_range'.mp hk
        rw [Nat.one_mul, kind?_import m' id version' (List.getElem?_eq_getElem hi)]
        rfl
    · exact ⟨(m.treeAs id version).children n, [], [], [], by simp,
        by simp [children_moved hsame hamong id version version' hn], fun _ => ⟨rfl, rfl⟩,
        List.forall_mem_nil _, List.forall_mem_nil _⟩

end Replaced

/-! ## Descriptions that differ in their imports -/

variable {m m' : Module}

theorem unplaced_bodyOutlines (m : Module) :
    unplacedAll (bodyOutlines m.unplaced) = unplacedAll (bodyOutlines m) := by
  have hclasses : Outline.unplaced ∘ classOutline ∘ Class.unplaced =
      Outline.unplaced ∘ classOutline := funext unplaced_classOutline
  simp only [bodyOutlines, unplacedAll_eq_map, List.map_append, Module.unplaced, List.map_map,
    hclasses]
  rfl

/-- Descriptions that are the same but for places and imports. -/
theorem Module.sameBody_of_unplaced
    (h : m'.unplaced = { m.unplaced with imports := m'.unplaced.imports }) : m.SameBody m' where
  name := (congrArg Module.name h).trans rfl
  isOpen := (congrArg Module.isOpen h).trans rfl
  clause := (congrArg clauseOutline h).trans rfl
  body := by
    have hbody : bodyOutlines m'.unplaced = bodyOutlines m.unplaced :=
      (congrArg bodyOutlines h).trans rfl
    rw [← unplaced_bodyOutlines m, ← hbody, unplaced_bodyOutlines]

theorem Module.SameBody.symm (h : m.SameBody m') : m'.SameBody m :=
  ⟨h.name.symm, h.isOpen.symm, h.clause.symm, h.body.symm⟩

/-- The import clauses of a description. -/
def Module.clauses (m : Module) : List PklAnalysis.Import := m.imports.map Import.clause

/-- The place of the first import with the clause of the `n`-th import of another description. -/
def Module.placeAmong (m m' : Module) (n : Nat) : Nat :=
  match m.clauses[n]? with
  | some i => m'.clauses.idxOf i
  | none => 0

/-- Different import clauses that another description has as well are found again in it. -/
theorem Module.importsAmong (hmem : ∀ i ∈ m.clauses, i ∈ m'.clauses) (hnodup : m.clauses.Nodup) :
    m.ImportsAmong m' (m.placeAmong m') := by
  have hplace : ∀ n (hn : n < m.clauses.length),
      m'.clauses[m.placeAmong m' n]? = some m.clauses[n] := by
    intro n hn
    rw [placeAmong, List.getElem?_eq_getElem hn]
    exact List.getElem?_idxOf (hmem _ (List.getElem_mem hn))
  have hlength : m.clauses.length = m.imports.length := List.length_map _
  refine ⟨fun n hn => ?_, fun i hi j hj hij => ?_⟩
  · rw [← List.getElem?_map, ← List.getElem?_map]
    exact (hplace n (hlength ▸ hn)).trans (List.getElem?_eq_getElem _).symm
  · rw [← hlength] at hi hj
    have hsame := hplace i hi
    rw [hij, hplace j hj, Option.some_inj] at hsame
    exact ((List.Nodup.getElem_inj_iff hnodup).mp hsame).symm

theorem moved_firstImport_add {i : PklAnalysis.Import} (hi : i ∈ m.clauses) :
    m.moved m' (m.placeAmong m') (m.firstImport + m.clauses.idxOf i) =
      m.firstImport + m'.clauses.idxOf i := by
  have hlt : m.clauses.idxOf i < m.imports.length := by
    have hlt := List.idxOf_lt_length_iff.mpr hi
    rwa [Module.clauses, List.length_map] at hlt
  rw [Module.moved, moveImports_import hlt, Module.placeAmong, List.getElem?_idxOf hi]

/-- Only imports are not found again. -/
theorem exists_moved {σ : Nat → Nat} (hsame : m.SameBody m') (id : ModuleId) (version' : Nat)
    {k : Nat} (hk : ∀ i, (m'.treeAs id version').kind? k ≠ some (.importClause i)) :
    ∃ n, m.moved m' σ n = k := by
  have hfirst : m'.firstImport = m.firstImport := by
    rw [Module.firstImport, Module.firstImport, hsame.clause]
  refine exists_moveImports ?_
  by_contra hrange
  obtain ⟨n, rfl⟩ := Nat.exists_eq_add_of_le (show m.firstImport ≤ k by omega)
  have hn : n < m'.imports.length := by omega
  exact hk _ (hfirst ▸ kind?_import m' id version' (List.getElem?_eq_getElem hn))

/-- If only one import clause passes a test, the first import found by it is the first one with this
clause. -/
theorem find?_imports (id : ModuleId) (version : Nat) {p : PklAnalysis.Import → Bool}
    {i : PklAnalysis.Import} (hi : i ∈ m.clauses) (hp : p i = true)
    (hunique : ∀ j ∈ m.clauses, p j = true → j = i) :
    (m.treeAs id version).imports.find? (fun e => p e.2) =
      some (m.firstImport + m.clauses.idxOf i, i) := by
  have hlength : m.clauses.length = m.imports.length := List.length_map _
  have hindex := List.idxOf_lt_length_iff.mpr hi
  have hclause (n : Nat) (hn : n < m.imports.length) (hn' : n < m.clauses.length) :
      m.imports[n].clause = m.clauses[n] := (List.getElem_map _).symm
  rw [imports_treeAs, List.find?_eq_some_iff_getElem]
  refine ⟨hp, m.clauses.idxOf i, by rwa [List.length_mapIdx, ← hlength], ?_, fun n hn => ?_⟩
  · rw [List.getElem_mapIdx, hclause _ _ hindex, List.getElem_idxOf hindex]
  · have hlt : n < m.clauses.length := Nat.lt_trans hn hindex
    rw [List.getElem_mapIdx, hclause _ _ hlt, Bool.not_eq_true', Bool.eq_false_iff]
    intro hpn
    -- before the first import with the clause stands no other one that passes
    have hsame := hunique _ (List.getElem_mem hlt) hpn
    have hfirst := List.not_of_lt_findIdx (p := (· == i)) hn
    rw [hsame, beq_self_eq_true] at hfirst
    cases hfirst

end Source

end PklAnalysis
