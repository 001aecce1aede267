import PklAnalysis.Proofs.Lattice.Precision

/-!
# What a type opens to

The relations take a type apart: aliases are replaced, unions and question marks opened.
`TypeEnv.Opens` takes the same steps one at a time, and an alias by one definition at a time, so
that two types can be taken apart side by side: what a vaguer type opens to is unknown or matches
something that the other type opens to.
-/

namespace PklAnalysis

namespace TypeEnv

variable (env : TypeEnv Id)

/-- What a type alias with arguments stands for. -/
def unfold (d : DeclRef) (args : List Ty) : Ty :=
  match (env.aliasDef d : Option AliasDef) with
  | some a => a.target.substitute env.base a.decl.site args
  | none => .unknown

/-- A type with the aliases at its head replaced; none if an alias is met again or there are more
aliases in a row than are replaced. -/
def expandFrom? : Nat → List Site → Ty → Option Ty
  | n, seen, .typeAlias d args =>
    if seen.contains d.site then none
    else
      match n with
      | 0 => none
      | n + 1 => expandFrom? n (d.site :: seen) (env.unfold d args)
  | _, _, t => some t

/-- A type with the aliases at its head replaced, unless that is given up. -/
def expand? (t : Ty) : Option Ty := env.expandFrom? maxExpansions [] t

/-- Type aliases at the head of a type lead to a type that is none. -/
inductive Unfolds : Ty → Ty → Prop
  | done {t : Ty} (h : ∀ d args, t ≠ .typeAlias d args) : Unfolds t t
  | step {d : DeclRef} {args : List Ty} {x : Ty} (h : Unfolds (env.unfold d args) x) :
      Unfolds (.typeAlias d args) x

/-- A type can be taken apart to another one. -/
inductive Opens : Ty → Ty → Prop
  | refl (t : Ty) : Opens t t
  | unfold {d : DeclRef} {args : List Ty} {x : Ty} (h : Opens (env.unfold d args) x) :
      Opens (.typeAlias d args) x
  | member {ms : List Ty} {m x : Ty} (hm : m ∈ ms) (h : Opens m x) : Opens (.union ms) x
  | content {t x : Ty} (h : Opens t x) : Opens (.nullable t) x
  | null (t : Ty) : Opens (.nullable t) env.base.nullType

/-- An environment whose definitions only mention their own type parameters and no type without
values, and in which a superclass, with arguments for the parameters of its class, expands to a
class. -/
structure IsRegular : Prop where
  target : ∀ {d a}, env.aliasDef d = some a →
    a.target.isNothingFree = true ∧ a.target.mentionsOnly a.decl.site = true
  superclass : ∀ {d c s}, env.classDef d = some c → c.superclass = some s →
    s.isNothingFree = true ∧ s.mentionsOnly c.decl.site = true ∧
      ∀ args : List Ty, (∀ a ∈ args, a.isNormal env.base = true) →
        ∃ d' args', env.expand (s.substitute env.base c.decl.site args) = .class d' args'

end TypeEnv

/-- Whether a type is taken apart to the end. -/
def Ty.isHead : Ty → Bool
  | .unknown | .class .. | .function .. | .literal _ | .param _ => true
  | _ => false

theorem Ty.isLeaf_of_isHead {t : Ty} (h : t.isHead = true) : t.isLeaf = true := by
  cases t <;> first | rfl | exact (Bool.false_ne_true h).elim

theorem Ty.SameLeaf.isHead_eq {X : Ty → Ty → Prop} {l' l : Ty} (h : SameLeaf X l' l) :
    l'.isHead = l.isHead := by
  unfold SameLeaf at h
  split at h <;> first | rfl | exact h.elim

namespace TypeEnv

variable {env : TypeEnv Id}

/-! ## Expansion -/

theorem expandFrom?_alias (n : Nat) (seen : List Site) (d : DeclRef) (args : List Ty) :
    env.expandFrom? (n + 1) seen (.typeAlias d args) =
      if seen.contains d.site then none
      else env.expandFrom? n (d.site :: seen) (env.unfold d args) := rfl

theorem expandFrom_eq (n : Nat) (seen : List Site) (t : Ty) :
    env.expandFrom n seen t = (env.expandFrom? n seen t).getD .unknown := by
  induction n generalizing seen t with
  | zero =>
    cases t with
    | typeAlias d args =>
      rw [expandFrom, expandFrom?]
      split <;> rfl
    | _ => rfl
  | succ n ih =>
    cases t with
    | typeAlias d args =>
      rw [expandFrom, expandFrom?_alias]
      split
      · rfl
      · rw [← ih, unfold]
        change (match (env.aliasDef d : Option AliasDef) with | some a => _ | none => _ : Ty) = _
        cases (env.aliasDef d : Option AliasDef) with
        | some a => rfl
        | none => cases n <;> rfl
    | _ => rfl

theorem expand_eq (t : Ty) : env.expand t = (env.expand? t).getD .unknown :=
  expandFrom_eq maxExpansions [] t

/-- What is found by expansion is found with more steps and fewer aliases met before. -/
theorem expandFrom?_mono {n n' : Nat} {seen seen' : List Site} {t x : Ty}
    (h : env.expandFrom? n seen t = some x) (hn : n ≤ n') (hseen : seen' ⊆ seen) :
    env.expandFrom? n' seen' t = some x := by
  induction n generalizing n' seen seen' t with
  | zero =>
    cases t with
    | typeAlias d args =>
      rw [expandFrom?] at h
      split at h <;> exact nomatch h
    | _ => cases n' <;> exact h
  | succ n ih =>
    cases t with
    | typeAlias d args =>
      obtain ⟨n', rfl⟩ : ∃ k, n' = k + 1 := ⟨n' - 1, by omega⟩
      rw [expandFrom?_alias] at h ⊢
      by_cases hmem : d.site ∈ seen
      · simp [hmem] at h
      · have hmem' : d.site ∉ seen' := fun h => hmem (hseen h)
        simp only [List.contains_eq_mem, hmem, hmem', decide_false, Bool.false_eq_true, if_false]
          at h ⊢
        exact ih h (by omega) (List.cons_subset_cons _ hseen)
    | _ => cases n' <;> exact h

/-- What an alias stands for expands to the same type as the alias. -/
theorem expand?_unfold {d : DeclRef} {args : List Ty} {x : Ty}
    (h : env.expand? (.typeAlias d args) = some x) : env.expand? (env.unfold d args) = some x := by
  rw [expand?, maxExpansions, expandFrom?_alias] at h
  split at h
  · exact nomatch h
  · exact expandFrom?_mono h (by decide) (List.nil_subset _)

theorem unfolds_of_expandFrom? {n : Nat} {seen : List Site} {t x : Ty}
    (h : env.expandFrom? n seen t = some x) : env.Unfolds t x := by
  induction n generalizing seen t with
  | zero =>
    cases t with
    | typeAlias d args =>
      rw [expandFrom?] at h
      split at h <;> exact nomatch h
    | _ =>
      cases h
      exact .done nofun
  | succ n ih =>
    cases t with
    | typeAlias d args =>
      rw [expandFrom?_alias] at h
      split at h
      · exact nomatch h
      · exact .step (ih h)
    | _ =>
      cases h
      exact .done nofun

theorem Unfolds.ne_typeAlias {t x : Ty} (h : env.Unfolds t x) (d : DeclRef) (args : List Ty) :
    x ≠ .typeAlias d args := by
  induction h with
  | done h => exact h d args
  | step _ ih => exact ih

/-! ## Opening -/

theorem Opens.trans {t x y : Ty} (h : env.Opens t x) (h' : env.Opens x y) :
    env.Opens t y := by
  induction h with
  | refl => exact h'
  | unfold _ ih => exact .unfold (ih h')
  | member hm _ ih => exact .member hm (ih h')
  | content _ ih => exact .content (ih h')
  | null t =>
    cases h' with
    | refl => exact .null t

theorem opens_of_mem_leaves {t l : Ty} (h : l ∈ t.leaves env.base) : env.Opens t l := by
  induction t using Ty.byParts with
  | nothing => exact (List.not_mem_nil h).elim
  | nullable t ih =>
    rcases List.mem_cons.mp h with rfl | h
    · exact .null t
    · exact .content (ih h)
  | union ms ih =>
    rw [Ty.leaves, Ty.mem_leavesOfAll] at h
    obtain ⟨m, hm, h⟩ := h
    exact .member hm (ih m hm h)
  | unknown | class_ | typeAlias | function | literal | param =>
    rw [Ty.leaves_of_isLeaf rfl, List.mem_singleton] at h
    exact h ▸ .refl _

/-- A head opens to nothing but itself. -/
theorem Opens.eq_of_isHead {t x : Ty} (h : env.Opens t x) (ht : t.isHead = true) : x = t := by
  cases h with
  | refl => rfl
  | _ => exact (Bool.false_ne_true ht).elim

theorem Unfolds.opens {t x : Ty} (h : env.Unfolds t x) : env.Opens t x := by
  induction h with
  | done => exact .refl _
  | step _ ih => exact .unfold ih

section Regular

variable (henv : env.IsRegular)
include henv

theorem IsRegular.isNormal_unfold {args : List Ty}
    (hargs : ∀ a ∈ args, a.isNormal env.base = true) (d : DeclRef) :
    (env.unfold d args).isNormal env.base = true := by
  rw [unfold]
  split
  · next ha => exact Ty.isNormal_substitute (henv.target ha).1 hargs
  · rfl

theorem IsRegular.isNormal_of_opens {t x : Ty} (h : env.Opens t x)
    (ht : t.isNormal env.base = true) : x.isNormal env.base = true := by
  induction h with
  | refl => exact ht
  | unfold _ ih =>
    rw [Ty.isNormal, Ty.areNormal_iff] at ht
    exact ih (henv.isNormal_unfold ht _)
  | member hm _ ih => exact ih ((Ty.isNormal_union ht).2 _ hm).2
  | content _ ih => exact ih (Ty.isNormal_nullable.mp ht).1
  | null => rfl

theorem IsRegular.isNormal_expand {t : Ty} (ht : t.isNormal env.base = true) :
    (env.expand t).isNormal env.base = true := by
  rw [expand_eq]
  cases hx : env.expand? t with
  | none => rfl
  | some x => exact henv.isNormal_of_opens (unfolds_of_expandFrom? hx).opens ht

/-! ## Opening side by side -/

/-- An alias with vaguer arguments stands for a vaguer type. -/
theorem IsRegular.vaguer_unfold {args' args : List Ty}
    (h : Ty.Pointwise (Ty.Vaguer env.base) args' args) (d : DeclRef) :
    (env.unfold d args').Vaguer env.base (env.unfold d args) := by
  rw [unfold, unfold]
  split
  · next ha => exact Ty.vaguer_substitute h (henv.target ha).1
  · exact .unknown rfl

/-- What a type opens to at the end is unknown or matches something that another type opens to, if
this holds of the leaves of the type. -/
theorem IsRegular.exists_opens {t' t u' : Ty} (h : env.Opens t' u') (hu : u'.isHead = true)
    (hleaves : ∀ l' ∈ t'.leaves env.base, l' = .unknown ∨
      ∃ l ∈ t.leaves env.base, Ty.SameLeaf (Ty.Vaguer env.base) l' l) :
    u' = .unknown ∨ ∃ u, env.Opens t u ∧ Ty.SameLeaf (Ty.Vaguer env.base) u' u := by
  induction h generalizing t with
  | refl u' =>
    rw [Ty.leaves_of_isLeaf (Ty.isLeaf_of_isHead hu)] at hleaves
    refine (hleaves u' (List.mem_singleton_self u')).imp_right ?_
    rintro ⟨l, hl, hsame⟩
    exact ⟨l, opens_of_mem_leaves hl, hsame⟩
  | @unfold d args' x _ ih =>
    rcases hleaves _ (List.mem_singleton_self _) with hunknown | ⟨l, hl, hsame⟩
    · exact Ty.noConfusion hunknown
    · obtain ⟨args, rfl, hargs⟩ := hsame.of_typeAlias
      refine (ih hu fun l' hl' => (henv.vaguer_unfold hargs _).exists_leaf hl').imp_right ?_
      rintro ⟨u, hopens, hu⟩
      exact ⟨u, (opens_of_mem_leaves hl).trans (.unfold hopens), hu⟩
  | member hm _ ih =>
    refine ih hu fun l' hl' => hleaves l' ?_
    rw [Ty.leaves, Ty.mem_leavesOfAll]
    exact ⟨_, hm, hl'⟩
  | content _ ih => exact ih hu fun l' hl' => hleaves l' (List.mem_cons_of_mem _ hl')
  | null t' =>
    refine (hleaves _ List.mem_cons_self).imp_right ?_
    rintro ⟨l, hl, hsame⟩
    exact ⟨l, opens_of_mem_leaves hl, hsame⟩

end Regular

/-! ## Ancestors -/

theorem asSupertype?_class (d : DeclRef) (args : List Ty) (target : DeclRef) :
    env.asSupertype? (.class d args) target =
      env.climb target.site (Nat.succ env.classCount) [] d args := rfl

/-- One step on the way up. -/
theorem climb_step (target : Site) (n : Nat) (seen : List Site) (d : DeclRef) (args : List Ty) :
    env.climb target (n + 1) seen d args =
      if d.site = target then some args
      else if seen.contains d.site then none
      else match (env.classDef d : Option ClassDef) with
        | none => none
        | some c => match c.superclass with
          | none => none
          | some s => match env.expand (s.substitute env.base c.decl.site args) with
            | .class d' args' => env.climb target n (d.site :: seen) d' args'
            | _ => none := by
  rw [climb]
  rfl

theorem asSupertype?_self (d : DeclRef) (args : List Ty) :
    env.asSupertype? (.class d args) d = some args := by
  rw [asSupertype?_class, climb_step, if_pos rfl]

theorem unfolds_of_expand {t : Ty} {d : DeclRef} {args : List Ty}
    (h : env.expand t = .class d args) : env.Unfolds t (.class d args) := by
  rw [expand_eq] at h
  cases hx : env.expand? t with
  | none =>
    rw [hx] at h
    exact nomatch h
  | some x =>
    rw [hx] at h
    obtain rfl : x = .class d args := h
    exact unfolds_of_expandFrom? hx

section Regular

variable (henv : env.IsRegular)
include henv

/-- Two types of which one is vaguer, and that expand to classes, expand to one class. -/
theorem IsRegular.vaguer_class {t' t : Ty} {d' d : DeclRef} {args' args : List Ty}
    (h : t'.Vaguer env.base t) (ht' : env.Unfolds t' (.class d' args'))
    (ht : env.Unfolds t (.class d args)) :
    d' = d ∧ Ty.Pointwise (Ty.Vaguer env.base) args' args := by
  generalize hx : Ty.class d' args' = x at ht'
  induction ht' generalizing t with
  | done =>
    subst hx
    rcases h.exists_leaf (List.mem_singleton_self _) with hunknown | ⟨l, hl, hsame⟩
    · exact nomatch hunknown
    obtain ⟨bs, rfl, hargs⟩ := hsame.of_class
    cases ht with
    | done =>
      cases List.mem_singleton.mp hl
      exact ⟨rfl, hargs⟩
    | step => exact nomatch List.mem_singleton.mp hl
  | step _ ih =>
    rcases h.exists_leaf (List.mem_singleton_self _) with hunknown | ⟨l, hl, hsame⟩
    · exact nomatch hunknown
    obtain ⟨bs, rfl, hargs⟩ := hsame.of_typeAlias
    cases ht with
    | done => exact nomatch List.mem_singleton.mp hl
    | step ht =>
      cases List.mem_singleton.mp hl
      exact ih (henv.vaguer_unfold hargs _) ht hx

/-- A class with vaguer arguments has the same ancestors, with vaguer arguments. -/
theorem IsRegular.vaguer_climb (target : Site) (n : Nat) (seen : List Site) (d : DeclRef)
    {args' args : List Ty} (h : Ty.Pointwise (Ty.Vaguer env.base) args' args) :
    Option.Rel (Ty.Pointwise (Ty.Vaguer env.base)) (env.climb target n seen d args')
      (env.climb target n seen d args) := by
  induction n generalizing seen d args' args with
  | zero =>
    rw [climb, climb]
    split
    · exact .some h
    · split <;> exact .none
  | succ n ih =>
    rw [climb_step, climb_step]
    split
    · exact .some h
    split
    · exact .none
    cases hc : (env.classDef d : Option ClassDef) with
    | none => exact .none
    | some c =>
      cases hs : c.superclass with
      | none =>
        simp only [hs]
        exact .none
      | some s =>
        obtain ⟨hfree, -, hclass⟩ := henv.superclass hc hs
        obtain ⟨d', view', hd'⟩ := hclass args' h.isNormal_left
        obtain ⟨e, view, he⟩ := hclass args h.isNormal_right
        obtain ⟨rfl, hview⟩ := henv.vaguer_class (Ty.vaguer_substitute h hfree)
          (unfolds_of_expand hd') (unfolds_of_expand he)
        simp only [hs, hd', he]
        exact ih (d.site :: seen) d' hview

section Views

variable {d target : DeclRef} {args' args : List Ty}
variable (h : Ty.Pointwise (Ty.Vaguer env.base) args' args)
include h

theorem IsRegular.exists_vaguer_view {view : List Ty}
    (hview : env.asSupertype? (.class d args) target = some view) :
    ∃ view', env.asSupertype? (.class d args') target = some view' ∧
      Ty.Pointwise (Ty.Vaguer env.base) view' view := by
  have hrel := henv.vaguer_climb target.site (Nat.succ env.classCount) [] d h
  rw [← asSupertype?_class, ← asSupertype?_class, hview] at hrel
  generalize env.asSupertype? (.class d args') target = o at hrel
  cases hrel with
  | some hrel => exact ⟨_, rfl, hrel⟩

theorem IsRegular.no_vaguer_view (hview : env.asSupertype? (.class d args) target = none) :
    env.asSupertype? (.class d args') target = none := by
  have hrel := henv.vaguer_climb target.site (Nat.succ env.classCount) [] d h
  rw [← asSupertype?_class, ← asSupertype?_class, hview] at hrel
  generalize env.asSupertype? (.class d args') target = o at hrel
  cases hrel with
  | none => rfl

end Views

end Regular

end TypeEnv

end PklAnalysis
