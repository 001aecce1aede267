import PklAnalysis.Proofs.Analysis.TidyImports
import PklAnalysis.Proofs.Resolution.WidenedScopes
import PklAnalysis.Proofs.Source.PreOrder

/-!
# The use of imports

An import of a module is used if a reference of the module resolves to it or an annotation may refer
to it.  An identifier that has the name of an import refers to the first import of this name unless
it means something else, which outside of objects depends on no types.

The imports of a module can be tidied without harm if no import has the name of a used one, if no
two used ones stand for the same, and if in objects the names of the others mean something else.
-/

namespace PklAnalysis.Session

variable {W : Store} {t : Tree}

/-! ## Use -/

theorem mem_usedIn_iff (hW : W.IsPlain) (ht : t ∈ W.held) {n : Nat} : n ∈ usedIn W t ↔
    ∃ d ∈ t.descendants Tree.root, n ∈ (importsUsedAt t d (new W)).1 := by
  have hused : usedIn W t =
      ((t.descendants Tree.root).map fun d => (importsUsedAt t d (new W)).1).flatten := by
    rw [← (Mirrors.new hW).mapM hW fun d _ => steady_importsUsedAt (hW.grounded_of_mem ht) d]
    rfl
  rw [hused, ← List.flatMap_def, List.mem_flatMap]

theorem mem_usedIn (hW : W.IsPlain) (ht : t ∈ W.held) (hpre : t.IsPreOrder) {d n : Nat}
    {kind : NodeKind} (hkind : t.kind? d = some kind) (hn : n ∈ (importsUsedAt t d (new W)).1) :
    n ∈ usedIn W t := by
  refine (mem_usedIn_iff hW ht).mpr ⟨d, ?_, hn⟩
  rw [hpre.all]
  exact Tree.mem_indices_of_kind? hkind

theorem importsUsedAt_new {d : Nat} {kind : NodeKind} (hkind : t.kind? d = some kind) :
    (importsUsedAt t d (new W)).1 =
      (referencedImport? t d (new W)).1.toList ++ mentionedImports t kind := by
  rw [importsUsedAt, hkind]
  rfl

/-- The import of a tree that a reference has been resolved to. -/
def ownImport? (t : Tree) (found : Option Declared) : Option Nat :=
  (found.filter fun d => d.kind = .import && d.site.module = t.id).map (·.site.node)

/-- The imports to which an annotation may lead are used. -/
theorem mem_mentionedImports_iff {kind : NodeKind} {n : Nat} : n ∈ mentionedImports t kind ↔
    ∃ i, (n, i) ∈ t.imports ∧ ∃ a ∈ annotationsAt kind, ∃ y ∈ a.names,
      mentions t i.bindingName y = true := by
  simp only [mentionedImports, List.mem_map, List.mem_filter, List.any_eq_true, List.mem_flatMap]
  constructor
  · rintro ⟨⟨n, i⟩, ⟨hi, y, ⟨a, ha, hy⟩, hmentions⟩, rfl⟩
    exact ⟨i, hi, a, ha, y, hy, hmentions⟩
  · rintro ⟨i, hi, a, ha, y, hy, hmentions⟩
    exact ⟨(n, i), ⟨hi, y, ⟨a, ha, hy⟩, hmentions⟩, rfl⟩

/-- An import clause itself uses no import. -/
theorem not_mem_importsUsedAt {d n : Nat} {i : Import}
    (hkind : t.kind? d = some (.importClause i)) : n ∉ (importsUsedAt t d (new W)).1 := by
  have hmentioned : mentionedImports t (.importClause i) = [] := by
    simp [mentionedImports, annotationsAt]
  rw [importsUsedAt_new hkind, hmentioned, referencedImport?, hkind]
  exact List.not_mem_nil

theorem mem_usedClauses {n : Nat} {i : Import} (hi : (n, i) ∈ t.imports) (hn : n ∈ usedIn W t) :
    i ∈ usedClauses W t := by
  refine List.mem_map.mpr ⟨(n, i), List.mem_filter.mpr ⟨hi, ?_⟩, rfl⟩
  exact List.contains_iff_mem.mpr hn

/-! ## Tidiable modules -/

/-- A name means something at a node before imports are looked at, however little is known of the
types of expressions. -/
def IsShadowed (W : Store) (t : Tree) (n : Nat) (x : String) : Prop :=
  ∀ depth inProgress,
    (enclosing? (typingWithin depth inProgress) t n x .property (new W)).1 ≠ none

/-- No import has the name of a used one, no two used ones stand for the same, and where the name of
another import is written in an object it means something else. -/
structure IsTidiable (W : Store) (t : Tree) : Prop where
  names : ∀ i ∈ usedClauses W t, ∀ j ∈ clauses t, j.bindingName = i.bindingName → j = i
  keys : ∀ i ∈ usedClauses W t, ∀ j ∈ usedClauses W t, keyIn W t i = keyIn W t j → i = j
  shadowed : ∀ i ∈ clauses t, i ∉ usedClauses W t → ∀ n,
    t.kind? n = some (.ident i.bindingName) → t.isDirect n = false →
      IsShadowed W t n i.bindingName

theorem mem_usedClauses_iff {i : Import} :
    i ∈ usedClauses W t ↔ ∃ n, (n, i) ∈ t.imports ∧ n ∈ usedIn W t := by
  constructor
  · intro hi
    obtain ⟨⟨n, i⟩, hmem, rfl⟩ := List.mem_map.mp hi
    obtain ⟨hi, hn⟩ := List.mem_filter.mp hmem
    exact ⟨n, hi, List.contains_iff_mem.mp hn⟩
  · rintro ⟨n, hi, hn⟩
    exact mem_usedClauses hi hn

theorem nodup_tidied (W : Store) (t : Tree) : (tidied W t).Nodup := (nodup_keys_tidied W t).of_map _

/-- Exactly the used imports are kept. -/
theorem IsTidiable.mem_tidied_iff (h : IsTidiable W t) {i : Import} :
    i ∈ tidied W t ↔ i ∈ usedClauses W t := by
  rw [tidied, (ImportEdit.perm_sort _).mem_iff]
  have hsublist := (ImportEdit.entries_firsts (keyIn W t) (usedClauses W t)).1
  refine ⟨fun hi => hsublist.subset hi, fun hi => ?_⟩
  obtain ⟨j, hj, hkey⟩ := ImportEdit.exists_mem_firsts (keyIn W t) hi
  rwa [← h.keys j (hsublist.subset hj) i hi hkey]

/-- What a name means outside of objects does not depend on types. -/
theorem enclosing?_of_isDirect {n : Nat} {x : String} (hkind : t.kind? n = some (.ident x))
    (hn : t.isDirect n = true) (q q' : Typing) (kind : MemberKind) :
    enclosing? q t n x kind = enclosing? q' t n x kind := by
  have hscopes : ∀ scope ∈ t.ancestors n, t.kind? scope ≠ some .objectBody := by
    rw [Tree.isDirect, hkind] at hn
    simpa using hn
  have hinScopes : ∀ (scopes : List Nat) (child : Nat),
      (∀ scope ∈ scopes, t.kind? scope ≠ some .objectBody) →
      inScopes? q t x kind child scopes = inScopes? q' t x kind child scopes := by
    intro scopes
    induction scopes with
    | nil => exact fun _ _ => rfl
    | cons scope scopes ih =>
      intro child hall
      obtain ⟨hscope, hall⟩ := List.forall_mem_cons.mp hall
      have hinScope : inScope? q t scope child x kind = inScope? q' t scope child x kind := by
        unfold inScope?
        cases hkind : t.kind? scope with
        | none => rfl
        | some scopeKind =>
          cases scopeKind with
          | objectBody => exact absurd hkind hscope
          | _ => cases kind <;> rfl
      rw [inScopes?, inScopes?, hinScope]
      refine congrArg (inScope? q' t scope child x kind >>= ·) (funext fun found => ?_)
      cases found with
      | some found => rfl
      | none => exact ih scope hall
  rw [enclosing?, enclosing?, hinScopes _ n hscopes]

theorem steady_enclosing? {T : Set Tree} {q : Typing} (hq : q.IsSteady) (ht : Grounded T t)
    (n : Nat) (x : String) (kind : MemberKind) : Steady T (enclosing? q t n x kind) := by
  refine (steady_inScopes? hq ht x kind n _).bind fun U found hU hfound => ?_
  cases found with
  | some found => exact .pure hfound
  | none => exact steady_inModule? (ht.mono hU) x kind

/-- An import whose name is written in the module is used, unless the name means something else
there. -/
theorem exists_mem_usedClauses (hW : W.IsPlain) (ht : t ∈ W.held) (hpre : t.IsPreOrder) {n : Nat}
    {x : String} (hkind : t.kind? n = some (.ident x)) (hx : ∃ i ∈ clauses t, i.bindingName = x)
    (hnone : (enclosing? typing t n x .property (new W)).1 = none) :
    ∃ i ∈ usedClauses W t, i.bindingName = x := by
  have hground : Grounded W.held t := hW.grounded_of_mem ht
  have henclosing : Answers W (enclosing? typing t n x .property) none :=
    hnone ▸ .of_steady hW (steady_enclosing? isSteady_typing hground n x .property)
  obtain ⟨⟨k, i⟩, hfound⟩ : ∃ e, t.imports.find? (fun e => e.2.bindingName = x) = some e := by
    obtain ⟨i, hi, hname⟩ := hx
    obtain ⟨e, he, rfl⟩ := List.mem_map.mp hi
    exact Option.isSome_iff_exists.mp (List.find?_isSome.mpr ⟨e, he, decide_eq_true hname⟩)
  have himport : import? t x .property = some (Declared.atNode t k .import x) :=
    congrArg (Option.map _) hfound
  have hresolve : Answers W (resolve t n) (some (Declared.atNode t k .import x)) := by
    refine (Answers.of_steady hW (steady_adopt hground)).bind ?_
    rw [resolveIn, hkind]
    simp only
    rw [unqualified?_eq, himport]
    exact henclosing.bind (.pure _)
  have hreferenced : (referencedImport? t n (new W)).1 = some k := by
    rw [referencedImport?, hkind]
    show ownImport? t (resolve t n (new W)).1 = some k
    rw [hresolve.eq_new hW, ownImport?, Option.filter_some, if_pos (by simp [Declared.atNode])]
    rfl
  have hused : k ∈ usedIn W t := by
    refine mem_usedIn hW ht hpre hkind ?_
    rw [importsUsedAt_new hkind, hreferenced]
    exact List.mem_append_left _ List.mem_cons_self
  have hname := List.find?_some (p := fun e : Nat × Import => decide (e.2.bindingName = x)) hfound
  exact ⟨i, mem_usedClauses (List.mem_of_find?_eq_some hfound) hused, of_decide_eq_true hname⟩

/-- Outside of objects as well the name of an unused import means something else. -/
theorem IsTidiable.isShadowed (h : IsTidiable W t) (hW : W.IsPlain) (ht : t ∈ W.held)
    (hpre : t.IsPreOrder) {i : Import} (hi : i ∈ clauses t) (hunused : i ∉ usedClauses W t)
    {n : Nat} (hkind : t.kind? n = some (.ident i.bindingName)) :
    IsShadowed W t n i.bindingName := by
  cases hdirect : t.isDirect n with
  | false => exact h.shadowed i hi hunused n hkind hdirect
  | true =>
    intro depth inProgress hnone
    rw [enclosing?_of_isDirect hkind hdirect _ typing] at hnone
    obtain ⟨j, hj, hname⟩ := exists_mem_usedClauses hW ht hpre hkind ⟨i, hi, rfl⟩ hnone
    exact hunused (h.names j hj i hi hname.symm ▸ hj)

end PklAnalysis.Session
