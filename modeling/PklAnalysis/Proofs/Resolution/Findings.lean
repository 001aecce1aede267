import PklAnalysis.Analysis.Diagnostics
import PklAnalysis.Proofs.Modules.BareStore

/-!
# What checks find

A check of a module runs one check after the other, and each of them finds what is wrong in its own way
only.  So what is found in one way has been found by one check, in the session that those before it have
left behind.
-/

namespace PklAnalysis

/-- The ways in which something can be wrong, by the checks that find it. -/
inductive FindingKind where
  | uri
  | moduleCycle
  | classCycle
  | reference
  | type
  deriving DecidableEq

def Finding.kind : Finding → FindingKind
  | .module _ => .uri
  | .circularModule _ => .moduleCycle
  | .circularClass _ => .classCycle
  | .unresolvedReference _ => .reference
  | .typeMismatch .. => .type

namespace Session

variable {t : Tree} {k : FindingKind} {d : Diagnostic} {s : Session}

/-! ## Single checks -/

/-- A check finds what is wrong in one way. -/
def FindsOnly (k : FindingKind) (check : Query (Option Diagnostic)) : Prop :=
  ∀ s, ∀ d ∈ (check s).1, d.finding.kind = k

namespace FindsOnly

theorem none : FindsOnly k (Pure.pure Option.none) := fun _ _ h => nomatch h

theorem some (h : d.finding.kind = k) : FindsOnly k (Pure.pure (Option.some d)) := by
  rintro _ _ ⟨⟩
  exact h

theorem bind {α : Type} {q : Query α} {f : α → Query (Option Diagnostic)}
    (h : ∀ a, FindsOnly k (f a)) : FindsOnly k (q >>= f) := fun s => h _ (q s).2

end FindsOnly

theorem findsOnly_checkUri (t : Tree) (n : Nat) : FindsOnly .uri (checkUri t n) := by
  unfold checkUri
  split
  · exact .none
  · refine .bind fun target => ?_
    cases target with
    | ok _ => exact .none
    | error e =>
      simp only
      split
      · exact .none
      · exact .some rfl

theorem findsOnly_checkModuleCycle (t : Tree) : FindsOnly .moduleCycle (checkModuleCycle t) := by
  refine .bind fun chain => ?_
  split
  · exact .some rfl
  · exact .none

theorem findsOnly_checkClassCycle (t : Tree) (n : Nat) : FindsOnly .classCycle (checkClassCycle t n) := by
  unfold checkClassCycle
  split
  · refine .bind fun chain => ?_
    split
    · exact .some rfl
    · exact .none
  · exact .none

theorem findsOnly_checkReference (t : Tree) (n : Nat) : FindsOnly .reference (checkReference t n) := by
  unfold checkReference
  split
  · exact .none
  · refine .bind fun found => ?_
    split
    · exact .none
    · refine .bind fun excused => ?_
      split
      · exact .none
      · exact .some rfl

theorem findsOnly_checkType (t : Tree) (n : Nat) : FindsOnly .type (checkType t n) := by
  refine .bind fun found => ?_
  split
  · exact .none
  · refine .bind fun actual => .bind fun common => ?_
    split
    · exact .none
    · exact .some rfl

/-- What is found at the nodes of a module is found at some node, in a session of which all holds that
the check preserves. -/
theorem exists_of_mem_findingsAt {P : Session → Prop} {check : Nat → Query (Option Diagnostic)}
    (hcheck : ∀ n s, P s → P (check n s).2) (hs : P s) (hd : d ∈ (findingsAt t check s).1) :
    ∃ n s', P s' ∧ (check n s').1 = some d := by
  have hmap (ns : List Nat) : ∀ s, P s → some d ∈ (ns.mapM check s).1 →
      ∃ n s', P s' ∧ (check n s').1 = some d := by
    induction ns with
    | nil => exact fun s _ h => nomatch h
    | cons n ns ih =>
      intro s hs h
      rw [List.mapM_cons] at h
      rcases List.mem_cons.mp h with h | h
      · exact ⟨n, s, hs, h.symm⟩
      · exact ih _ (hcheck n s hs) h
  obtain ⟨o, ho, rfl⟩ := List.mem_filterMap.mp hd
  exact hmap _ s hs ho

/-- If each node has something that its check finds in every session of which all holds that the check
preserves, this is what is found at the nodes of a module. -/
theorem findingsAt_eq {P : Session → Prop} {check : Nat → Query (Option Diagnostic)}
    {found : Nat → Option Diagnostic}
    (hcheck : ∀ n s, P s → (check n s).1 = found n ∧ P (check n s).2) (hs : P s) :
    (findingsAt t check s).1 = (t.descendants Tree.root).filterMap found := by
  have hmap (ns : List Nat) : ∀ s, P s → (ns.mapM check s).1 = ns.map found := by
    induction ns with
    | nil => exact fun _ _ => rfl
    | cons n ns ih =>
      intro s hs
      obtain ⟨hfound, hafter⟩ := hcheck n s hs
      rw [List.mapM_cons]
      change (check n s).1 :: (ns.mapM check (check n s).2).1 = _
      rw [hfound, ih _ hafter, List.map_cons]
  change ((t.descendants Tree.root).mapM check s).1.filterMap id = _
  rw [hmap _ s hs, List.filterMap_map]
  rfl

theorem kind_of_mem_findingsAt {check : Nat → Query (Option Diagnostic)}
    (h : ∀ n, FindsOnly k (check n)) (hd : d ∈ (findingsAt t check s).1) : d.finding.kind = k := by
  obtain ⟨n, s', -, hfound⟩ :=
    exists_of_mem_findingsAt (P := fun _ => True) (fun _ _ _ => trivial) trivial hd
  exact h n s' d hfound

theorem mem_checkIf {wanted : Bool} {check : Query (List Diagnostic)} :
    d ∈ (checkIf wanted check s).1 ↔ wanted = true ∧ d ∈ (check s).1 := by
  unfold checkIf
  cases wanted with
  | true => exact (and_iff_right rfl).symm
  | false => exact iff_of_false (fun h => nomatch h) (fun h => nomatch h.1)

/-! ## One check after the other -/

/-- The session in which the URIs of a module are checked. -/
def beforeUris (t : Tree) (s : Session) : Session := (adopt t s).2

/-- The session in which the inheritance of a module is checked. -/
def beforeCycles (t : Tree) (options : CheckOptions) (s : Session) : Session :=
  (checkIf options.moduleUris (findingsAt t (checkUri t)) (beforeUris t s)).2

/-- The session in which the references of a module are checked. -/
def beforeReferences [Bounds] (t : Tree) (options : CheckOptions) (s : Session) : Session :=
  (checkIf options.circularInheritance (checkCycles t) (beforeCycles t options s)).2

/-- The session in which the types of a module are checked. -/
def beforeTypes [Bounds] (t : Tree) (options : CheckOptions) (s : Session) : Session :=
  (checkIf options.unresolvedReferences (findingsAt t (checkReference t))
    (beforeReferences t options s)).2

variable {options : CheckOptions}

theorem mem_checkModule : d ∈ (checkModule t options s).1 ↔
    options.moduleUris = true ∧ d ∈ (findingsAt t (checkUri t) (beforeUris t s)).1 ∨
    options.circularInheritance = true ∧ d ∈ (checkCycles t (beforeCycles t options s)).1 ∨
    options.unresolvedReferences = true ∧
      d ∈ (findingsAt t (checkReference t) (beforeReferences t options s)).1 ∨
    options.typeMismatches = true ∧
      d ∈ (findingsAt t (checkType t) (beforeTypes t options s)).1 := by
  rw [checkModule, bind_apply, bind_apply, bind_apply, bind_apply, bind_apply]
  change d ∈ List.mergeSort _ _ ↔ _
  rw [List.mem_mergeSort, List.mem_append, List.mem_append, List.mem_append, or_assoc, or_assoc]
  exact or_congr mem_checkIf (or_congr mem_checkIf (or_congr mem_checkIf mem_checkIf))

theorem mem_checkCycles : d ∈ (checkCycles t s).1 ↔
    (checkModuleCycle t s).1 = some d ∨
      d ∈ (findingsAt t (checkClassCycle t) (checkModuleCycle t s).2).1 := by
  change d ∈ (checkModuleCycle t s).1.toList ++ _ ↔ _
  rw [List.mem_append, Option.mem_toList]
  rfl

theorem kind_of_mem_checkCycles (hd : d ∈ (checkCycles t s).1) :
    d.finding.kind = .moduleCycle ∨ d.finding.kind = .classCycle :=
  (mem_checkCycles.mp hd).imp (fun h => findsOnly_checkModuleCycle t s d h)
    (kind_of_mem_findingsAt (findsOnly_checkClassCycle t))

/-- What is wrong with a URI is found by the first check. -/
theorem mem_checkModule_uri (hd : d.finding.kind = .uri) : d ∈ (checkModule t options s).1 ↔
    options.moduleUris = true ∧ d ∈ (findingsAt t (checkUri t) (beforeUris t s)).1 := by
  rw [mem_checkModule]
  refine or_iff_left ?_
  rintro (⟨-, h⟩ | ⟨-, h⟩ | ⟨-, h⟩)
  · rcases kind_of_mem_checkCycles h with h | h <;> cases hd.symm.trans h
  · cases hd.symm.trans (kind_of_mem_findingsAt (findsOnly_checkReference t) h)
  · cases hd.symm.trans (kind_of_mem_findingsAt (findsOnly_checkType t) h)

/-- That a module inherits from itself is found when its URIs have been checked. -/
theorem mem_checkModule_moduleCycle (hd : d.finding.kind = .moduleCycle) :
    d ∈ (checkModule t options s).1 ↔ options.circularInheritance = true ∧
      (checkModuleCycle t (beforeCycles t options s)).1 = some d := by
  rw [mem_checkModule]
  constructor
  · rintro (⟨-, h⟩ | ⟨hwanted, h⟩ | ⟨-, h⟩ | ⟨-, h⟩)
    · cases hd.symm.trans (kind_of_mem_findingsAt (findsOnly_checkUri t) h)
    · rcases mem_checkCycles.mp h with h | h
      · exact ⟨hwanted, h⟩
      · cases hd.symm.trans (kind_of_mem_findingsAt (findsOnly_checkClassCycle t) h)
    · cases hd.symm.trans (kind_of_mem_findingsAt (findsOnly_checkReference t) h)
    · cases hd.symm.trans (kind_of_mem_findingsAt (findsOnly_checkType t) h)
  · rintro ⟨hwanted, h⟩
    exact .inr (.inl ⟨hwanted, mem_checkCycles.mpr (.inl h)⟩)

/-- An unresolved reference is found when the URIs and the inheritance of the module have been
checked. -/
theorem mem_checkModule_reference (hd : d.finding.kind = .reference) :
    d ∈ (checkModule t options s).1 ↔ options.unresolvedReferences = true ∧
      d ∈ (findingsAt t (checkReference t) (beforeReferences t options s)).1 := by
  rw [mem_checkModule]
  constructor
  · rintro (⟨-, h⟩ | ⟨-, h⟩ | h | ⟨-, h⟩)
    · cases hd.symm.trans (kind_of_mem_findingsAt (findsOnly_checkUri t) h)
    · rcases kind_of_mem_checkCycles h with h | h <;> cases hd.symm.trans h
    · exact h
    · cases hd.symm.trans (kind_of_mem_findingsAt (findsOnly_checkType t) h)
  · exact fun h => .inr (.inr (.inl h))

/-- A mismatch of types is found by the last check. -/
theorem mem_checkModule_type (hd : d.finding.kind = .type) :
    d ∈ (checkModule t options s).1 ↔ options.typeMismatches = true ∧
      d ∈ (findingsAt t (checkType t) (beforeTypes t options s)).1 := by
  rw [mem_checkModule]
  constructor
  · rintro (⟨-, h⟩ | ⟨-, h⟩ | ⟨-, h⟩ | h)
    · cases hd.symm.trans (kind_of_mem_findingsAt (findsOnly_checkUri t) h)
    · rcases kind_of_mem_checkCycles h with h | h <;> cases hd.symm.trans h
    · cases hd.symm.trans (kind_of_mem_findingsAt (findsOnly_checkReference t) h)
    · exact h
  · exact fun h => .inr (.inr (.inr h))

end Session

end PklAnalysis
