import PklAnalysis.Proofs.Source.Insertions

/-!
# Descriptions without places

Where the declarations of a description stand in the text makes no difference to the nodes of its
tree but for their spans: trees of descriptions that agree without their places have nodes of the
same kinds with the same parents and children.
-/

namespace PklAnalysis

/-! ## Trees without spans -/

/-- Two trees have the same nodes but for their spans. -/
structure Tree.Alike (t t' : Tree) : Prop where
  id : t'.id = t.id
  kind : ∀ n, t'.kind? n = t.kind? n
  parent : ∀ n, t'.parent? n = t.parent? n
  children : ∀ n, t'.children n = t.children n

theorem Outline.alike_tree {o o' : Outline} (h : o.unplaced = o'.unplaced) (id : ModuleId)
    (version version' : Nat) : (o.tree id version).Alike (o'.tree id version') := by
  have hmoved : List.Forall₂ (Node.Moved fun i => i) (o.nodes none 0 0) (o'.nodes none 0 0) :=
    moved_nodes h none 0 0 fun _ _ => rfl
  have hnode (n : Nat) : ((o.tree id version).node? n = none ∧
      (o'.tree id version').node? n = none) ∨
      ∃ a a', (o.tree id version).node? n = some a ∧ (o'.tree id version').node? n = some a' ∧
        a.Moved (fun i => i) a' := by
    rw [Tree.node?, Tree.node?, tree, tree, List.getElem?_toArray, List.getElem?_toArray]
    exact getElem?_forall₂ hmoved n
  refine ⟨rfl, fun n => ?_, fun n => ?_, fun n => ?_⟩
  · rw [Tree.kind?, Tree.kind?]
    obtain ⟨hn, hn'⟩ | ⟨a, a', hn, hn', hab⟩ := hnode n
    · rw [hn, hn']
    · rw [hn, hn', Option.map_some, Option.map_some, hab.kind]
  · rw [Tree.parent?, Tree.parent?]
    obtain ⟨hn, hn'⟩ | ⟨a, a', hn, hn', hab⟩ := hnode n
    · rw [hn, hn']
    · simp only [hn, hn', Option.bind_eq_bind, Option.bind_some, hab.parent, Option.map_id']
  · rw [Tree.children, Tree.children]
    obtain ⟨hn, hn'⟩ | ⟨a, a', hn, hn', hab⟩ := hnode n
    · rw [hn, hn']
    · simp only [hn, hn', hab.children, List.map_id']

/-! ## Descriptions without places -/

namespace Source

/-- A property without its place. -/
def Property.unplaced (p : Property) : Property := { p with span := none }

/-- A method without its place. -/
def Method.unplaced (m : Method) : Method := { m with span := none }

/-- A class without the places of its declarations. -/
def Class.unplaced (c : Class) : Class :=
  { c with
    properties := c.properties.map Property.unplaced
    methods := c.methods.map Method.unplaced
    span := none }

/-- A description without the places of its declarations. -/
def Module.unplaced (m : Module) : Module :=
  { m with
    imports := m.imports.map fun i => { i with span := none }
    classes := m.classes.map Class.unplaced
    aliases := m.aliases.map fun a => { a with span := none }
    properties := m.properties.map Property.unplaced
    methods := m.methods.map Method.unplaced }

theorem unplaced_classOutline (c : Class) :
    (classOutline c.unplaced).unplaced = (classOutline c).unplaced := by
  simp only [classOutline, Class.unplaced, Outline.unplaced, Outline.unplacedAll_eq_map,
    List.map_append, List.map_map]
  rfl

theorem unplaced_outline (m : Module) : m.unplaced.outline.unplaced = m.outline.unplaced := by
  have hclasses : Outline.unplaced ∘ classOutline ∘ Class.unplaced =
      Outline.unplaced ∘ classOutline := funext unplaced_classOutline
  simp only [Module.outline, Outline.unplaced, Outline.unplacedAll_eq_map,
    List.map_append, Module.unplaced, List.map_map, hclasses]
  rfl

end Source

end PklAnalysis
