import PklAnalysis.Analysis.ImportEdit
import PklAnalysis.Proofs.Lattice.Renumbering
import PklAnalysis.Proofs.Resolution.Answers
import PklAnalysis.Proofs.Source.SoughtNames
import PklAnalysis.Proofs.Source.WidenedTrees

/-!
# Stores with hidden members and other imports

A `Widening` of a store replaces the tree of one module by a tree in which it is embedded: one with
other imports, and with local members of one name.  The names in the annotations of the module have
to lead to the same imports.  Trees, nodes, places and declarations have counterparts over the other
store, and a value is carried over if it is grounded in the first store and its counterpart is met in
the second one.
-/

namespace PklAnalysis

/-- The clause of the import to which a name in an annotation may lead. -/
def Tree.importNamed? (t : Tree) (x : String) : Option Import :=
  (t.imports.find? fun (_, i) => !i.isGlob && i.bindingName = x).map (·.2)

/-- A name in an annotation of a tree may lead to the same import in another tree. -/
def Tree.AgreesOn (t t' : Tree) (y : String) : Prop :=
  ∀ x, Session.mentions t x y = true → t'.importNamed? x = t.importNamed? x

/-- All names in the annotations of a tree may lead to the same imports in another one. -/
def Tree.AgreesWith (t t' : Tree) : Prop :=
  ∀ n kind, t.kind? n = some kind → ∀ a ∈ Session.annotationsAt kind, ∀ y ∈ a.names, t.AgreesOn t' y

/-- Two stores that hold the same trees but for one module, whose tree in the second store has other
imports than in the first one and local members of a name beside the nodes of the first one. -/
structure Widening (W V : Store) (name : String) extends Relabelling where
  narrow : Tree
  wide : Tree
  plain : W.IsPlain
  plain' : V.IsPlain
  config : V.config = W.config
  held : W.tree? module = some narrow
  held' : V.tree? module = some wide
  others : ∀ id, id ≠ module → V.tree? id = W.tree? id
  embeds : narrow.Embeds node name wide
  agrees : narrow.AgreesWith wide

namespace Widening

variable {W V : Store} {name : String} (w : Widening W V name)

/-- The tree of the same module. -/
def tree (t : Tree) : Tree := if t.id = w.module then w.wide else t

/-- The number of a node in the tree of the same module. -/
def index (t : Tree) (n : Nat) : Nat := if t.id = w.module then w.node n else n

theorem id_narrow : w.narrow.id = w.module := w.plain.keyed w.held

theorem id_wide : w.wide.id = w.module := w.plain'.keyed w.held'

@[simp] theorem id_tree (t : Tree) : (w.tree t).id = t.id := by
  rw [tree]
  split
  · next hid => rw [w.id_wide, hid]
  · rfl

theorem module_ne_base : w.module ≠ BaseModule.id := by
  rw [← w.id_narrow]
  exact w.plain.id_ne_base (by rw [w.id_narrow, w.held])

@[simp] theorem site_siteOf (t : Tree) (n : Nat) :
    w.site (Session.siteOf t n) = Session.siteOf (w.tree t) (w.index t n) := by
  rw [Session.siteOf, Session.siteOf, Relabelling.site, index, id_tree]
  simp only
  split <;> rfl

@[simp] theorem index_injective (t : Tree) : Function.Injective (w.index t) := by
  intro n n' h
  rw [index, index] at h
  split at h
  · exact w.injective h
  · exact h

@[simp] theorem index_inj (t : Tree) {n n' : Nat} : w.index t n = w.index t n' ↔ n = n' :=
  (w.index_injective t).eq_iff

@[simp] theorem index_root (t : Tree) : w.index t Tree.root = Tree.root := by
  rw [index, w.embeds.root, ite_self]

/-! ## Trees of the store -/

theorem tree?_eq (id : ModuleId) : V.tree? id = (W.tree? id).map w.tree := by
  by_cases hid : id = w.module
  · rw [hid, w.held, w.held', Option.map_some, tree, if_pos w.id_narrow]
  · rw [w.others id hid]
    cases ht : W.tree? id with
    | none => rfl
    | some t => rw [Option.map_some, tree, if_neg (by rwa [w.plain.keyed ht])]

theorem tree_of_ne {t : Tree} (hid : t.id ≠ w.module) : w.tree t = t := if_neg hid

theorem index_of_ne {t : Tree} (hid : t.id ≠ w.module) (n : Nat) : w.index t n = n := if_neg hid

theorem tree_base : w.tree BaseModule.tree = BaseModule.tree :=
  w.tree_of_ne w.module_ne_base.symm

theorem mem_held {t : Tree} (ht : t ∈ W.held) : w.tree t ∈ V.held := by
  rcases ht with rfl | ht
  · rw [w.tree_base]
    exact V.base_mem_held
  · refine .inr ?_
    rw [id_tree, w.tree?_eq, ht, Option.map_some]

include w in
theorem sameFrame : W.SameFrame V where
  config := w.config.symm
  ids id := by rw [w.tree?_eq, Option.isSome_map]

theorem eq_narrow {t : Tree} (ht : t ∈ W.held) (hid : t.id = w.module) : t = w.narrow := by
  refine w.plain.eq_of_mem ht (.inr ?_) (hid.trans w.id_narrow.symm)
  rw [w.id_narrow, w.held]

theorem tree_narrow : w.tree w.narrow = w.wide := if_pos w.id_narrow

theorem index_narrow : w.index w.narrow = w.node := funext fun _ => if_pos w.id_narrow

/-- The tree of a module is embedded in its counterpart. -/
theorem embeds_tree {t : Tree} (ht : t ∈ W.held) : t.Embeds (w.index t) name (w.tree t) := by
  by_cases hid : t.id = w.module
  · obtain rfl := w.eq_narrow ht hid
    rw [w.index_narrow, w.tree_narrow]
    exact w.embeds
  · have hindex : w.index t = fun n => n := funext fun n => if_neg hid
    rw [hindex, tree, if_neg hid]
    exact .refl name t

theorem agreesWith_tree {t : Tree} (ht : t ∈ W.held) : t.AgreesWith (w.tree t) := by
  by_cases hid : t.id = w.module
  · obtain rfl := w.eq_narrow ht hid
    rw [w.tree_narrow]
    exact w.agrees
  · rw [w.tree_of_ne hid]
    exact fun _ _ _ _ _ _ _ _ _ => rfl

theorem grounded_tree {t : Tree} (ht : Grounded W.held t) : Grounded V.held (w.tree t) :=
  w.plain'.grounded_of_mem (w.mem_held (Store.IsPlain.mem_held ht))

/-! ## Declarations -/

theorem moduleName_tree {t : Tree} (ht : t ∈ W.held) :
    Session.moduleName (w.tree t) = Session.moduleName t := by
  rw [Session.moduleName, Session.moduleName, (w.embeds_tree ht).moduleName?_eq, id_tree]

theorem moduleDecl_tree {t : Tree} (ht : t ∈ W.held) :
    Session.moduleDecl (w.tree t) = w.decl (Session.moduleDecl t) := by
  rw [Session.moduleDecl, Session.moduleDecl, w.moduleName_tree ht, Relabelling.decl, site_siteOf,
    index_root]

theorem moduleType_tree {t : Tree} (ht : t ∈ W.held) :
    Session.moduleType (w.tree t) = w.ty (Session.moduleType t) := by
  rw [Session.moduleType, Session.moduleType, w.moduleDecl_tree ht]
  rfl

theorem declOf?_tree {t : Tree} (ht : t ∈ W.held) (n : Nat) :
    Session.declOf? (w.tree t) (w.index t n) = (Session.declOf? t n).map w.decl := by
  rw [Session.declOf?, Session.declOf?, (w.embeds_tree ht).kind]
  split
  · rw [Option.map_some, Relabelling.decl, site_siteOf]
  · rw [Option.map_some, Relabelling.decl, site_siteOf]
  · rw [Option.map_some, w.moduleDecl_tree ht]
  · rfl

theorem ownerOf?_tree {t : Tree} (ht : t ∈ W.held) (n : Nat) :
    Session.ownerOf? (w.tree t) (w.index t n) = (Session.ownerOf? t n).map w.decl := by
  rw [Session.ownerOf?, Session.ownerOf?]
  cases hp : t.parent? n with
  | none =>
    rw [(w.embeds_tree ht).parent?_none hp]
    rfl
  | some p =>
    obtain ⟨p', hp', hval⟩ := (w.embeds_tree ht).parent?_some hp
    rw [hp', Option.bind_eq_bind, Option.bind_some, Option.bind_eq_bind, Option.bind_some, hval,
      (w.embeds_tree ht).kind]
    split
    · exact w.declOf?_tree ht p
    · exact w.declOf?_tree ht p
    · rfl

theorem node_site {t : Tree} {s : Site} (hmodule : t.id = s.module) :
    (w.site s).node = w.index t s.node := by
  have hsite : s = Session.siteOf t s.node := by rw [Session.siteOf, hmodule]
  rw [hsite, site_siteOf]
  rfl

theorem node_decl {t : Tree} {d : DeclRef} (hmodule : t.id = d.site.module) :
    (w.decl d).site.node = w.index t d.site.node := w.node_site hmodule

/-- What is declared in the first store is declared in the second one. -/
theorem grounded_decl {d : DeclRef} (hd : Grounded W.held d) : Grounded V.held (w.decl d) := by
  obtain ⟨t, ht, hd⟩ := hd
  refine ⟨w.tree t, w.grounded_tree ht, ?_⟩
  rw [w.node_decl (Session.module_of_declOf? hd).symm,
    w.declOf?_tree (Store.IsPlain.mem_held ht), hd, Option.map_some]

theorem grounded_ty {t : Ty} (ht : Grounded W.held t) : Grounded V.held (w.ty t) :=
  Relabelling.allDecls_ty (fun _ => w.grounded_decl) ht

theorem grounded_tys {ts : List Ty} (hts : Grounded W.held ts) : Grounded V.held (ts.map w.ty) :=
  List.forall_mem_map.mpr fun t ht => w.grounded_ty (hts t ht)

theorem decl_base {d : DeclRef} (hd : d ∈ BaseModule.types.decls) : w.decl d = d := by
  have hmodule : ∀ d ∈ BaseModule.types.decls, d.site.module = BaseModule.id := by decide
  exact w.decl_of_ne fun h => w.module_ne_base (h.symm.trans (hmodule d hd))

/-! ## What is carried over -/

/-- A value is grounded in the first store, and another one is its counterpart. -/
def Carried {α β : Type} [Grounding α] (_ : Widening W V name) (f : α → β) (a : α) (b : β) : Prop :=
  Grounded W.held a ∧ b = f a

section Containers

variable {α β : Type} [Grounding α] {f : α → β} {w}

theorem Carried.forall₂ {l : List α} {k : List β} (h : w.Carried (List.map f) l k) :
    List.Forall₂ (w.Carried f) l k := by
  obtain ⟨hl, rfl⟩ := h
  induction l with
  | nil => exact .nil
  | cons a l ih =>
    have ⟨ha, hl⟩ := List.forall_mem_cons.mp hl
    exact .cons ⟨ha, rfl⟩ (ih hl)

theorem Carried.of_forall₂ {l : List α} {k : List β} (h : List.Forall₂ (w.Carried f) l k) :
    w.Carried (List.map f) l k := by
  induction h with
  | nil => exact ⟨.nil, rfl⟩
  | cons hab _ ih =>
    obtain ⟨ha, rfl⟩ := hab
    obtain ⟨hl, rfl⟩ := ih
    exact ⟨.cons ha hl, rfl⟩

theorem carried_option_iff {o : Option α} {p : Option β} :
    w.Carried (Option.map f) o p ↔ Option.Rel (w.Carried f) o p := by
  constructor
  · rintro ⟨ho, rfl⟩
    cases o with
    | none => exact .none
    | some a => exact .some ⟨ho.of_some, rfl⟩
  · intro h
    cases h with
    | none => exact ⟨.none, rfl⟩
    | some hab => exact ⟨hab.1.some, congrArg some hab.2⟩

end Containers

/-- What a steady query answers is grounded. -/
theorem parallel_carried {α β : Type} [Grounding α] {f : α → β} {q : Query α}
    {q' : Query β} (hq : Session.Steady W.held q)
    (h : Session.Parallel W V (fun a b => b = f a) q q') :
    Session.Parallel W V (w.Carried f) q q' := by
  obtain ⟨a, b, ha, hb, hab⟩ := h
  exact ⟨a, b, ha, hb, ha.grounded w.plain hq, hab⟩

end Widening

end PklAnalysis
