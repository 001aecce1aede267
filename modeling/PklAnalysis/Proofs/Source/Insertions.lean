import Mathlib.Data.List.Forall2
import Mathlib.Order.Monotone.Basic
import PklAnalysis.Proofs.Source.Outlines
import PklAnalysis.Proofs.Source.WidenedTrees

/-!
# Insertions into outlines

When an outline is inserted among the children of a class or a module, the nodes before it keep
their numbers and the nodes behind it are shifted by its size.  A numbered outline with a local
member inserted therefore widens the one without it.  Spans may change in any way.
-/

namespace PklAnalysis

/-- A node is found again with other numbers. -/
structure Node.Moved (f : Nat → Nat) (a a' : Node) : Prop where
  kind : a'.kind = a.kind
  parent : a'.parent = a.parent.map f
  children : a'.children = a.children.map f

/-- A node is found again with other numbers, and at most one node more among its children. -/
structure Node.Widened (f : Nat → Nat) (hidden : Nat) (a a' : Node) : Prop where
  kind : a'.kind = a.kind
  parent : a'.parent = a.parent.map f
  children : a'.children = a.children.map f ∨ a.kind.isOwner = true ∧
    ∃ before after, a.children = before ++ after ∧
      a'.children = before.map f ++ hidden :: after.map f

theorem Node.Moved.widened {f : Nat → Nat} {a a' : Node} (h : a.Moved f a') (hidden : Nat) :
    a.Widened f hidden a' := ⟨h.kind, h.parent, .inl h.children⟩

namespace Outline

mutual

/-- An outline without its spans. -/
def unplaced : Outline → Outline
  | .node kind _ children => .node kind none (unplacedAll children)

def unplacedAll : List Outline → List Outline
  | [] => []
  | o :: os => unplaced o :: unplacedAll os

end

theorem unplacedAll_eq_map (os : List Outline) : unplacedAll os = os.map unplaced := by
  induction os with
  | nil => rfl
  | cons o os ih => rw [unplacedAll, ih, List.map_cons]

mutual

@[simp] theorem size_unplaced (o : Outline) : o.unplaced.size = o.size := by
  cases o with
  | node kind span children => rw [unplaced, size, size, sizeOfAll_unplacedAll]
termination_by structural o

@[simp] theorem sizeOfAll_unplacedAll (os : List Outline) :
    sizeOfAll (unplacedAll os) = sizeOfAll os := by
  cases os with
  | nil => rfl
  | cons o os => rw [unplacedAll, sizeOfAll, sizeOfAll, size_unplaced, sizeOfAll_unplacedAll]
termination_by structural os

end

theorem size_eq {o o' : Outline} (h : o.unplaced = o'.unplaced) : o'.size = o.size := by
  rw [← size_unplaced o, h, size_unplaced]

theorem sizeOfAll_eq {os os' : List Outline} (h : unplacedAll os = unplacedAll os') :
    sizeOfAll os' = sizeOfAll os := by
  rw [← sizeOfAll_unplacedAll os, h, sizeOfAll_unplacedAll]

/-! ## Numbers of siblings -/

theorem sizeOfAll_append (os os' : List Outline) :
    sizeOfAll (os ++ os') = sizeOfAll os + sizeOfAll os' := by
  induction os with
  | nil => rw [List.nil_append, sizeOfAll, Nat.zero_add]
  | cons o os ih => rw [List.cons_append, sizeOfAll, sizeOfAll, ih, Nat.add_assoc]

theorem siblingIndices_append (index : Nat) (os os' : List Outline) :
    siblingIndices index (os ++ os') =
      siblingIndices index os ++ siblingIndices (index + sizeOfAll os) os' := by
  induction os generalizing index with
  | nil => rfl
  | cons o os ih =>
    rw [List.cons_append, siblingIndices, siblingIndices, ih, sizeOfAll, List.cons_append,
      Nat.add_assoc]

theorem nodesOfAll_append (parent index cursor : Nat) (os os' : List Outline) :
    nodesOfAll parent index cursor (os ++ os') = nodesOfAll parent index cursor os ++
      nodesOfAll parent (index + sizeOfAll os) (cursor + 2 * sizeOfAll os) os' := by
  induction os generalizing index cursor with
  | nil => rfl
  | cons o os ih =>
    rw [List.cons_append, nodesOfAll, nodesOfAll, ih, sizeOfAll, List.append_assoc, Nat.add_assoc,
      Nat.mul_add, Nat.add_assoc]

/-- Siblings are shifted as a whole. -/
theorem siblingIndices_shift {f : Nat → Nat} {os os' : List Outline}
    (h : unplacedAll os = unplacedAll os') {index base : Nat}
    (hf : ∀ j < sizeOfAll os, f (index + j) = base + j) :
    siblingIndices base os' = (siblingIndices index os).map f := by
  induction os generalizing os' index base with
  | nil =>
    cases os' with
    | nil => rfl
    | cons => cases h
  | cons o os ih =>
    cases os' with
    | nil => cases h
    | cons o' os' =>
      obtain ⟨ho, hos⟩ := List.cons.inj h
      have hpos := o.size_pos
      have hsize := size_eq ho
      rw [sizeOfAll] at hf
      rw [siblingIndices, siblingIndices, List.map_cons, hsize]
      refine congrArg₂ List.cons (hf 0 (by omega)).symm (ih hos fun j hj => ?_)
      rw [Nat.add_assoc, hf (o.size + j) (by omega), Nat.add_assoc]

/-! ## Nodes that are shifted -/

mutual

/-- The nodes of an outline that is shifted as a whole. -/
theorem moved_nodes {f : Nat → Nat} {o o' : Outline}
    (h : o.unplaced = o'.unplaced) (parent : Option Nat) {index base : Nat} (cursor cursor' : Nat)
    (hf : ∀ j < o.size, f (index + j) = base + j) :
    List.Forall₂ (Node.Moved f) (o.nodes parent index cursor)
      (o'.nodes (parent.map f) base cursor') := by
  cases o with
  | node kind span children =>
    cases o' with
    | node kind' span' children' =>
      obtain ⟨rfl, -, hchildren⟩ := Outline.node.inj h
      have hindex : f index = base := hf 0 (size_pos _)
      have hrest : ∀ j < sizeOfAll children, f (index + 1 + j) = base + 1 + j := by
        intro j hj
        rw [Nat.add_assoc, hf (1 + j) (by rw [size]; omega), Nat.add_assoc]
      rw [nodes, nodes]
      refine .cons ⟨rfl, rfl, siblingIndices_shift hchildren hrest⟩ ?_
      exact moved_nodesOfAll hchildren hindex _ _ hrest
termination_by structural o

theorem moved_nodesOfAll {f : Nat → Nat} {os os' : List Outline}
    (h : unplacedAll os = unplacedAll os') {parent parent' : Nat} (hparent : f parent = parent')
    {index base : Nat} (cursor cursor' : Nat) (hf : ∀ j < sizeOfAll os, f (index + j) = base + j) :
    List.Forall₂ (Node.Moved f) (nodesOfAll parent index cursor os)
      (nodesOfAll parent' base cursor' os') := by
  cases os with
  | nil =>
    cases os' with
    | nil => exact .nil
    | cons => cases h
  | cons o os =>
    cases os' with
    | nil => cases h
    | cons o' os' =>
      obtain ⟨ho, hos⟩ := List.cons.inj h
      rw [sizeOfAll] at hf
      rw [nodesOfAll, nodesOfAll, size_eq ho, ← hparent]
      refine List.rel_append
        (moved_nodes ho (some parent) cursor cursor' fun j hj => hf j (by omega)) ?_
      refine moved_nodesOfAll hos rfl _ _ fun j hj => ?_
      rw [Nat.add_assoc, hf (o.size + j) (by omega), Nat.add_assoc]
termination_by structural os

end

/-! ## Nodes around an insertion -/

/-- An outline has one outline more among the children of one of its classes or modules. -/
inductive Inserts (x : Outline) : Outline → Outline → Prop
  | here {kind : NodeKind} {span span' : Option Span} {before before' after after' : List Outline}
      (howner : kind.isOwner = true) (hbefore : unplacedAll before = unplacedAll before')
      (hafter : unplacedAll after = unplacedAll after') :
      Inserts x (.node kind span (before ++ after)) (.node kind span' (before' ++ x :: after'))
  | inside {kind : NodeKind} {span span' : Option Span} {before before' after after' : List Outline}
      {o o' : Outline} (hbefore : unplacedAll before = unplacedAll before') (ho : Inserts x o o')
      (hafter : unplacedAll after = unplacedAll after') :
      Inserts x (.node kind span (before ++ o :: after))
        (.node kind span' (before' ++ o' :: after'))

/-- Nodes from a number on are found again, with those of an outline in between from another number
on. -/
def Spliced (x : Outline) (f : Nat → Nat) (k index : Nat) (ns ns' : List Node) : Prop :=
  ∃ before before' first rest after after', ns = before ++ after ∧
    ns' = before' ++ (first :: rest) ++ after' ∧ index + before.length = k ∧
    (first :: rest).length = x.size ∧ first.kind = x.kind ∧
    List.Forall₂ (Node.Widened f k) before before' ∧
    List.Forall₂ (Node.Widened f k) after after'

variable {x : Outline} {f : Nat → Nat} {k : Nat}

/-- Siblings that are shifted as a whole. -/
theorem widened_nodesOfAll {os os' : List Outline} (h : unplacedAll os = unplacedAll os')
    {parent : Nat} (hparent : f parent = parent) {index base : Nat} (cursor cursor' : Nat)
    (hf : ∀ j < sizeOfAll os, f (index + j) = base + j) :
    List.Forall₂ (Node.Widened f k) (nodesOfAll parent index cursor os)
      (nodesOfAll parent base cursor' os') :=
  (moved_nodesOfAll h hparent cursor cursor' hf).imp fun _ _ hmoved => hmoved.widened k

theorem spliced_self (parent : Option Nat) (cursor : Nat) {ns ns' : List Node}
    (hns : List.Forall₂ (Node.Widened f k) ns ns') :
    Spliced x f k k ns (x.nodes parent k cursor ++ ns') := by
  obtain ⟨first, rest, hfirst, hkind⟩ := exists_nodes_eq_cons parent k cursor x
  refine ⟨[], [], first, rest, ns, ns', rfl, ?_, rfl, ?_, hkind, .nil, hns⟩
  · rw [hfirst, List.nil_append]
  · rw [← hfirst, length_nodes]

theorem Spliced.append_left {index : Nat} {ns ns' ms ms' : List Node}
    (hms : List.Forall₂ (Node.Widened f k) ms ms')
    (h : Spliced x f k (index + ms.length) ns ns') :
    Spliced x f k index (ms ++ ns) (ms' ++ ns') := by
  obtain ⟨before, before', first, rest, after, after', rfl, rfl, hk, hsize, hkind, hbefore,
    hafter⟩ := h
  refine ⟨ms ++ before, ms' ++ before', first, rest, after, after', ?_, ?_, ?_, hsize, hkind,
    List.rel_append hms hbefore, hafter⟩
  · rw [List.append_assoc]
  · simp only [List.append_assoc]
  · rw [List.length_append, ← Nat.add_assoc, hk]

theorem Spliced.append_right {index : Nat} {ns ns' ms ms' : List Node}
    (h : Spliced x f k index ns ns') (hms : List.Forall₂ (Node.Widened f k) ms ms') :
    Spliced x f k index (ns ++ ms) (ns' ++ ms') := by
  obtain ⟨before, before', first, rest, after, after', rfl, rfl, hk, hsize, hkind, hbefore,
    hafter⟩ := h
  refine ⟨before, before', first, rest, after ++ ms, after' ++ ms', ?_, ?_, hk, hsize, hkind,
    hbefore, List.rel_append hafter hms⟩
  · rw [List.append_assoc]
  · simp only [List.append_assoc]

theorem Inserts.size_eq {o o' : Outline} (h : Inserts x o o') : o'.size = o.size + x.size := by
  induction h with
  | here _ hbefore hafter =>
    rw [size, size, sizeOfAll_append, sizeOfAll_append, sizeOfAll, sizeOfAll_eq hbefore,
      sizeOfAll_eq hafter]
    omega
  | inside hbefore _ hafter ih =>
    rw [size, size, sizeOfAll_append, sizeOfAll_append, sizeOfAll, sizeOfAll, sizeOfAll_eq hbefore,
      sizeOfAll_eq hafter, ih]
    omega

/-- The number at which the nodes of an inserted outline begin splits the nodes of the outline
around it. -/
theorem Inserts.spliced_nodes {o o' : Outline} (h : Inserts x o o') (index : Nat) :
    ∃ k, index < k ∧ k ≤ index + o.size ∧ ∀ f : Nat → Nat, (∀ i < k, f i = i) →
      (∀ i, k ≤ i → f i = i + x.size) → ∀ parent cursor cursor',
        Spliced x f k index (o.nodes parent index cursor)
          (o'.nodes (parent.map f) index cursor') := by
  induction h generalizing index with
  -- the outline stands right among these children, so its number is the hidden one
  | @here kind span span' before before' after after' howner hbefore hafter =>
    refine ⟨index + 1 + sizeOfAll before, by omega, ?_,
      fun f hlow hhigh parent cursor cursor' => ?_⟩
    · rw [size, sizeOfAll_append]
      omega
    · have hsize := sizeOfAll_eq hbefore
      have hkept : ∀ j < sizeOfAll before, f (index + 1 + j) = index + 1 + j :=
        fun j hj => hlow _ (by omega)
      have hshifted : ∀ j < sizeOfAll after, f (index + 1 + sizeOfAll before + j) =
          index + 1 + sizeOfAll before + x.size + j := by
        intro j hj
        rw [hhigh _ (by omega)]
        omega
      have hchildren : siblingIndices (index + 1) (before' ++ x :: after') =
          (siblingIndices (index + 1) before).map f ++ (index + 1 + sizeOfAll before) ::
            (siblingIndices (index + 1 + sizeOfAll before) after).map f := by
        rw [siblingIndices_append, siblingIndices, hsize, siblingIndices_shift hbefore hkept,
          siblingIndices_shift hafter hshifted]
      have hindex : f index = index := hlow index (by omega)
      rw [nodes, nodes, nodesOfAll_append, nodesOfAll_append, nodesOfAll, hsize,
        ← List.cons_append, ← List.cons_append]
      refine .append_left (.cons ⟨rfl, rfl, .inr ⟨howner, _, _,
        siblingIndices_append (index + 1) before after, hchildren⟩⟩
        (widened_nodesOfAll hbefore hindex _ _ hkept)) ?_
      rw [List.length_cons, length_nodesOfAll, Nat.add_comm (sizeOfAll before), ← Nat.add_assoc]
      exact spliced_self _ _ (widened_nodesOfAll hafter hindex _ _ hshifted)
  -- the outline stands inside one child, between siblings that only move
  | @inside kind span span' before before' after after' o o' hbefore ho hafter ih =>
    obtain ⟨k, hlt, hle, hspliced⟩ := ih (index + 1 + sizeOfAll before)
    refine ⟨k, by omega, ?_, fun f hlow hhigh parent cursor cursor' => ?_⟩
    · rw [size, sizeOfAll_append, sizeOfAll]
      omega
    · have hsize := sizeOfAll_eq hbefore
      have hkept : ∀ j < sizeOfAll before, f (index + 1 + j) = index + 1 + j :=
        fun j hj => hlow _ (by omega)
      have hshifted : ∀ j < sizeOfAll after, f (index + 1 + sizeOfAll before + o.size + j) =
          index + 1 + sizeOfAll before + o'.size + j := by
        intro j hj
        rw [hhigh _ (by omega), ho.size_eq]
        omega
      have hchildren : siblingIndices (index + 1) (before' ++ o' :: after') =
          (siblingIndices (index + 1) (before ++ o :: after)).map f := by
        rw [siblingIndices_append, siblingIndices_append, siblingIndices, siblingIndices, hsize,
          List.map_append, List.map_cons, siblingIndices_shift hbefore hkept,
          siblingIndices_shift hafter hshifted, hlow _ hlt]
      have hindex : f index = index := hlow index (by omega)
      have hinner := hspliced f hlow hhigh (some index) (cursor + 1 + 2 * sizeOfAll before)
        (cursor' + 1 + 2 * sizeOfAll before)
      rw [Option.map_some, hindex] at hinner
      rw [nodes, nodes, nodesOfAll_append, nodesOfAll_append, nodesOfAll, nodesOfAll, hsize,
        ← List.cons_append, ← List.cons_append]
      refine .append_left (.cons ⟨rfl, rfl, .inl hchildren⟩
        (widened_nodesOfAll hbefore hindex _ _ hkept)) (.append_right ?_
          (widened_nodesOfAll hafter hindex _ _ hshifted))
      rw [List.length_cons, length_nodesOfAll, Nat.add_comm (sizeOfAll before), ← Nat.add_assoc]
      exact hinner

/-! ## Trees -/

/-- There is no node at an index in either list, or there are nodes at it that are related. -/
theorem getElem?_forall₂ {R : Node → Node → Prop} {ns ns' : List Node} (h : List.Forall₂ R ns ns')
    (n : Nat) : (ns[n]? = none ∧ ns'[n]? = none) ∨
      ∃ a a', ns[n]? = some a ∧ ns'[n]? = some a' ∧ R a a' := by
  induction h generalizing n with
  | nil => exact .inl ⟨rfl, rfl⟩
  | cons hab _ ih =>
    cases n with
    | zero => exact .inr ⟨_, _, rfl, rfl, hab⟩
    | succ n => exact ih n

/-- The numbers of the nodes around an insertion. -/
def shiftFrom (k size i : Nat) : Nat := if i < k then i else i + size

theorem strictMono_shiftFrom (k size : Nat) : StrictMono (shiftFrom k size) := by
  intro i j hij
  rw [shiftFrom, shiftFrom]
  split <;> split <;> omega

theorem Spliced.getElem? {ns ns' : List Node} (h : Spliced x f k 0 ns ns')
    (hf : f = shiftFrom k x.size) (n : Nat) : (ns[n]? = none ∧ ns'[f n]? = none) ∨
      ∃ a a', ns[n]? = some a ∧ ns'[f n]? = some a' ∧ a.Widened f k a' := by
  obtain ⟨before, before', first, rest, after, after', rfl, rfl, hk, hsize, -, hbefore, hafter⟩ := h
  have hlength := hbefore.length_eq
  rw [Nat.zero_add] at hk
  have hn : f n = if n < k then n else n + x.size := by rw [hf, shiftFrom]
  rw [hn]
  split
  · next hlt =>
    rw [List.append_assoc, List.getElem?_append_left (by omega),
      List.getElem?_append_left (by omega)]
    exact getElem?_forall₂ hbefore n
  · next hge =>
    rw [List.getElem?_append_right (by omega), List.getElem?_append_right (by
      rw [List.length_append]; omega)]
    have hrest : n + x.size - (before' ++ first :: rest).length = n - before.length := by
      rw [List.length_append, hsize]
      omega
    rw [hrest]
    exact getElem?_forall₂ hafter _

theorem Spliced.kind_hidden {ns ns' : List Node} (h : Spliced x f k 0 ns ns') :
    (ns'[k]?).map (·.kind) = some x.kind := by
  obtain ⟨before, before', first, rest, after, after', rfl, rfl, hk, -, hkind, hbefore, -⟩ := h
  have hlength := hbefore.length_eq
  rw [Nat.zero_add] at hk
  rw [List.append_assoc, List.getElem?_append_right (by omega), ← hlength, hk, Nat.sub_self,
    List.cons_append, List.getElem?_cons_zero, Option.map_some, hkind]

/-- A numbered outline in which a local member has been inserted widens the one without it. -/
theorem Inserts.widens {o o' : Outline} (h : Inserts x o o') {name : String}
    (hx : x.kind.isHidden name = true) (id : ModuleId) (version version' : Nat) :
    ∃ f, StrictMono f ∧ (o.tree id version).Widens f name (o'.tree id version') := by
  obtain ⟨k, hk, -, hspliced⟩ := h.spliced_nodes 0
  have hlow : ∀ i < k, shiftFrom k x.size i = i := fun i hi => if_pos hi
  have hhigh : ∀ i, k ≤ i → shiftFrom k x.size i = i + x.size :=
    fun i hi => if_neg (Nat.not_lt.mpr hi)
  have hsplice := hspliced _ hlow hhigh none 0 0
  have hmono := strictMono_shiftFrom k x.size
  have hnode (n : Nat) : ((o.tree id version).node? n = none ∧
      (o'.tree id version').node? (shiftFrom k x.size n) = none) ∨
      ∃ a a', (o.tree id version).node? n = some a ∧
        (o'.tree id version').node? (shiftFrom k x.size n) = some a' ∧
        a.Widened (shiftFrom k x.size) k a' := by
    rw [Tree.node?, Tree.node?, tree, tree, List.getElem?_toArray, List.getElem?_toArray]
    exact hsplice.getElem? rfl n
  have hhidden : (((o'.tree id version').kind? k).any (·.isHidden name)) = true := by
    have hkind := hsplice.kind_hidden
    rw [Option.map_none] at hkind
    rw [kind?_tree, hkind]
    exact hx
  refine ⟨_, hmono, rfl, hlow 0 hk, fun n => ?_, fun n => ?_, fun n => ?_⟩
  · rw [Tree.kind?, Tree.kind?]
    obtain ⟨hn, hn'⟩ | ⟨a, a', hn, hn', hab⟩ := hnode n
    · rw [hn, hn', Option.map_none]
    · rw [hn, hn', Option.map_some, Option.map_some, hab.kind]
  · rw [Tree.parent?, Tree.parent?]
    obtain ⟨hn, hn'⟩ | ⟨a, a', hn, hn', hab⟩ := hnode n
    · rw [hn, hn']
      rfl
    · simp only [hn, hn', Option.bind_eq_bind, Option.bind_some, hab.parent]
      cases a.parent with
      | none => rfl
      | some p =>
        simp only [Option.map_some, Option.bind_some, hmono.lt_iff_lt]
        split <;> rfl
  · rw [Tree.children, Tree.children, Tree.kind?]
    obtain ⟨hn, hn'⟩ | ⟨a, a', hn, hn', hab⟩ := hnode n
    · rw [hn, hn']
      exact ⟨[], [], [], rfl, rfl, fun h => absurd rfl h, List.forall_mem_nil _⟩
    · rw [hn, hn']
      rcases hab.children with hchildren | ⟨howner, before, after, hold, hnew⟩
      · exact ⟨a.children, [], [], by simp, by simp [hchildren], fun h => absurd rfl h,
          List.forall_mem_nil _⟩
      · exact ⟨before, [k], after, hold, by simp [hnew], fun _ => howner,
          List.forall_mem_singleton.mpr hhidden⟩

end Outline

end PklAnalysis
