import Mathlib.Order.Filter.AtTopBot.Basic
import Mathlib.Order.Filter.Finite
import PklAnalysis.Proofs.Lattice.EndlessTypes
import PklAnalysis.Proofs.Resolution.DeeperLookups
import PklAnalysis.Proofs.Resolution.OpenAncestors

/-!
# Looking for members comes to an end

The classes of a value, the arguments for the owner of a member and whether a value is open are
found by taking its type apart, as deep as it takes.  They are found at all depths from some depth
on exactly if the type ends by the definitions of the store.
-/

namespace PklAnalysis.Session

open Filter

variable {W : Store} {t : Ty}

/-- The definitions that a new session over a store finds. -/
def definitions (W : Store) : TypeEnv Id where
  classDef d := (classDef d (new W)).1
  aliasDef d := (aliasDef d (new W)).1
  base := BaseModule.types
  classCount := (new W).capacity

/-- What a type expands to by the definitions of a store. -/
def expansion (W : Store) (t : Ty) : Ty := (definitions W).expand t

/-- A computation that may fail has an answer, in all sessions over a store. -/
def Succeeds {α : Type} (W : Store) (x : OptionT Query α) : Prop :=
  ∃ a, Answers W x.run (some a)

/-- What is computed down to a depth has one answer, in all sessions over a store and at all depths
from some depth on. -/
def IsFound {α : Type} (W : Store) (f : Nat → OptionT Query α) : Prop :=
  ∃ a, ∀ᶠ depth in atTop, Answers W (f depth).run (some a)

/-- All that is asked about the type of a value when a member is looked for is found. -/
structure LookupEnds (W : Store) (t : Ty) : Prop where
  classes : IsFound W (receiverClassesWithin · t)
  args : ∀ owner, IsFound W (ownerArgsWithin owner · t)
  openness : IsFound W (isOpenTypeWithin · t)

/-! ## Expansion -/

theorem answers_expandFrom (hW : W.IsPlain) (n : Nat) (seen : List Site)
    (ht : Grounded W.held t) :
    Answers W (env.expandFrom n seen t) ((definitions W).expandFrom n seen t : Ty) := by
  induction n generalizing seen t with
  | zero =>
    unfold TypeEnv.expandFrom
    split
    · split
      · exact .pure _
      · exact .pure _
    · exact .pure _
  | succ n ih =>
    unfold TypeEnv.expandFrom
    split
    · next d args =>
      obtain ⟨hd, hargs⟩ := Grounded.typeAlias_iff.mp ht
      split
      · exact .pure _
      · have hfound : Answers W (aliasDef d) ((definitions W).aliasDef d) :=
          .of_steady hW (steady_aliasDef hd)
        have hground := hfound.grounded hW (steady_aliasDef hd)
        refine hfound.bind ?_
        generalize ((definitions W).aliasDef d : Option AliasDef) = found at hground ⊢
        cases found with
        | none => exact .pure _
        | some a => exact ih _ (hground.of_some.2.substitute _ hargs)
    · exact .pure _

/-- In all sessions over a store a type expands by the definitions of the store. -/
theorem answers_expand (hW : W.IsPlain) (ht : Grounded W.held t) :
    Answers W (env.expand t) (expansion W t) :=
  answers_expandFrom hW _ _ ht

theorem grounded_expand (hW : W.IsPlain) (ht : Grounded W.held t) :
    Grounded W.held (expansion W t) :=
  (answers_expand hW ht).grounded hW (steady_expand ht)

theorem grounded_component {T : Set Tree} (ht : Grounded T t) {a : Ty} (ha : a ∈ t.components) :
    Grounded T a := by
  cases t with
  | nullable t => exact List.mem_singleton.mp ha ▸ Grounded.nullable_iff.mp ht
  | union ms => exact Grounded.union_iff.mp ht a ha
  | _ => exact (List.not_mem_nil ha).elim

/-- What an annotation in a tree of a store denotes is a type about the trees of the store. -/
theorem grounded_resolved (hW : W.IsPlain) {t : Tree} (ht : t ∈ W.held) (n : Nat) (a : TypeExpr) :
    Grounded W.held (resolveType t n a (new W)).1 :=
  (SteadyQuery.keeps (steady_resolveType (hW.grounded_of_mem ht) n a) hW (.new hW)).2

/-! ## Computations that succeed -/

namespace Succeeds

variable {α β γ : Type} {x : OptionT Query α} {f : α → OptionT Query β} {l : List γ}

theorem pure (a : α) : Succeeds W (Pure.pure a : OptionT Query α) := ⟨a, .pure _⟩

theorem lift [Grounding α] (hW : W.IsPlain) {q : Query α} (hq : Steady W.held q) :
    Succeeds W (monadLift q : OptionT Query α) := ⟨_, (Answers.of_steady hW hq).run_lift⟩

theorem bind (hx : Succeeds W x) (hf : ∀ a, Succeeds W (f a)) : Succeeds W (x >>= f) := by
  obtain ⟨a, ha⟩ := hx
  obtain ⟨b, hb⟩ := hf a
  exact ⟨b, ha.run_bind_some hb⟩

theorem lift_bind {q : Query α} {a : α} (hq : Answers W q a) (hf : Succeeds W (f a)) :
    Succeeds W (monadLift q >>= f) := by
  obtain ⟨b, hb⟩ := hf
  exact ⟨b, hq.run_lift.run_bind_some hb⟩

theorem mapM {f : γ → OptionT Query α} (h : ∀ c ∈ l, Succeeds W (f c)) :
    Succeeds W (l.mapM f) := by
  induction l with
  | nil =>
    rw [List.mapM_nil]
    exact .pure []
  | cons c l ih =>
    obtain ⟨hc, hl⟩ := List.forall_mem_cons.mp h
    rw [List.mapM_cons]
    exact hc.bind fun a => (ih hl).bind fun as => .pure (a :: as)

theorem firstAnswer {f : γ → OptionT Query (Option α)} (h : ∀ c ∈ l, Succeeds W (f c)) :
    Succeeds W (Session.firstAnswer f l) := by
  induction l with
  | nil => exact .pure none
  | cons c l ih =>
    obtain ⟨hc, hl⟩ := List.forall_mem_cons.mp h
    refine hc.bind fun o => ?_
    cases o with
    | none => exact ih hl
    | some a => exact .pure (some a)

theorem anyM {f : γ → OptionT Query Bool} (h : ∀ c ∈ l, Succeeds W (f c)) :
    Succeeds W (l.anyM f) := by
  induction l with
  | nil => exact .pure false
  | cons c l ih =>
    obtain ⟨hc, hl⟩ := List.forall_mem_cons.mp h
    refine hc.bind fun b => ?_
    cases b with
    | false => exact ih hl
    | true => exact .pure true

end Succeeds

theorem Answers.extends {α : Type} {x y : OptionT Query α} {a : α} (hx : Answers W x.run (some a))
    (h : Extends y x) : Answers W y.run (some a) := by
  intro s hs
  obtain ⟨hanswer, hfaithful⟩ := hx s hs
  rw [h s a (x.run s).2 (Prod.ext hanswer rfl)]
  exact ⟨rfl, hfaithful⟩

theorem isFound_of_eventually {α : Type} {f : Nat → OptionT Query α}
    (hf : ∀ depth, Extends (f (depth + 1)) (f depth))
    (h : ∀ᶠ depth in atTop, Succeeds W (f depth)) : IsFound W f := by
  obtain ⟨N, a, ha⟩ := h.exists
  exact ⟨a, eventually_atTop.mpr ⟨N, fun depth hdepth => ha.extends (extends_of_le hf hdepth)⟩⟩

/-- Of computations in a row it is enough that one has no answer. -/
theorem Answers.run_mapM_none {γ α : Type} {f : γ → OptionT Query α} {l : List γ}
    (h : ∀ c ∈ l, ∃ o, Answers W (f c).run o) {c : γ} (hc : c ∈ l)
    (hnone : Answers W (f c).run none) : Answers W (l.mapM f).run none := by
  induction l with
  | nil => exact nomatch hc
  | cons b l ih =>
    obtain ⟨⟨o, ho⟩, hl⟩ := List.forall_mem_cons.mp h
    rw [List.mapM_cons]
    rcases List.mem_cons.mp hc with rfl | hc
    · exact hnone.run_bind_none
    · cases o with
      | none => exact ho.run_bind_none
      | some a => exact ho.run_bind_some (ih hl hc).run_bind_none

/-! ## Types that end -/

section Steps

variable (hW : W.IsPlain) (ht : Grounded W.held t) {depth : Nat}
include hW ht

theorem succeeds_receiverClassesWithin
    (h : ∀ a, (definitions W).ComponentOf a t → Succeeds W (receiverClassesWithin depth a)) :
    Succeeds W (receiverClassesWithin (depth + 1) t) := by
  change ∀ a ∈ (expansion W t).components, _ at h
  unfold receiverClassesWithin
  refine .lift_bind (answers_expand hW ht) ?_
  generalize expansion W t = type at h
  cases type with
  | nullable a => exact (h a (List.mem_singleton_self a)).bind fun ds => .pure _
  | union ms => exact (Succeeds.mapM h).bind fun dss => .pure _
  | function ps r =>
    simp only
    split <;> exact .pure _
  | unknown | nothing | «class» | typeAlias | literal | param => exact .pure _

theorem succeeds_ownerArgsWithin {owner : DeclRef}
    (h : ∀ a, (definitions W).ComponentOf a t → Succeeds W (ownerArgsWithin owner depth a)) :
    Succeeds W (ownerArgsWithin owner (depth + 1) t) := by
  have htype := grounded_expand hW ht
  change ∀ a ∈ (expansion W t).components, _ at h
  unfold ownerArgsWithin
  refine .lift_bind (answers_expand hW ht) ?_
  generalize expansion W t = type at h htype
  cases type with
  | «class» d args => exact .lift hW (steady_asSupertype? htype owner)
  | function ps r =>
    obtain ⟨hps, hr⟩ := Grounded.function_iff.mp htype
    exact .lift hW (steady_asSupertype? (hps.functionView hr) owner)
  | nullable a => exact h a (List.mem_singleton_self a)
  | union ms => exact .firstAnswer h
  | unknown | nothing | typeAlias | literal | param => exact .pure none

theorem succeeds_isOpenTypeWithin
    (h : ∀ a, (definitions W).ComponentOf a t → Succeeds W (isOpenTypeWithin depth a)) :
    Succeeds W (isOpenTypeWithin (depth + 1) t) := by
  have htype := grounded_expand hW ht
  change ∀ a ∈ (expansion W t).components, _ at h
  unfold isOpenTypeWithin
  refine .lift_bind (answers_expand hW ht) ?_
  generalize expansion W t = type at h htype
  cases type with
  | «class» d args =>
    simp only
    split
    · exact .pure true
    · exact .lift hW (steady_hasUnknownAncestor (Grounded.class_iff.mp htype).1)
  | nullable a => exact h a (List.mem_singleton_self a)
  | union ms => exact .anyM h
  | unknown | param => exact .pure true
  | nothing | typeAlias | function | literal => exact .pure false

end Steps

/-- What has an answer about a type with one step more than about its components, has an answer
about each type that ends with enough steps. -/
theorem eventually_succeeds (hW : W.IsPlain) {α : Type} {f : Nat → Ty → OptionT Query α}
    (hstep : ∀ {t : Ty}, Grounded W.held t → ∀ {depth : Nat},
      (∀ a, (definitions W).ComponentOf a t → Succeeds W (f depth a)) →
        Succeeds W (f (depth + 1) t))
    (h : (definitions W).Ends t) (ht : Grounded W.held t) :
    ∀ᶠ depth in atTop, Succeeds W (f depth t) := by
  induction h with
  | intro t _ ih =>
    -- there are finitely many components, so one depth is enough for all of them
    have hcomponents : ∀ᶠ depth in atTop,
        ∀ a ∈ {a | (definitions W).ComponentOf a t}, Succeeds W (f depth a) :=
      (eventually_all_finite (List.finite_toSet _)).mpr fun a ha =>
        ih a ha (grounded_component (grounded_expand hW ht) ha)
    obtain ⟨N, hN⟩ := eventually_atTop.mp hcomponents
    refine eventually_atTop.mpr ⟨N + 1, fun depth hdepth => ?_⟩
    obtain ⟨depth, rfl⟩ := Nat.exists_eq_add_of_le' (Nat.one_le_of_lt hdepth)
    exact hstep ht (hN depth (Nat.le_of_succ_le_succ hdepth))

theorem lookupEnds_of_ends (hW : W.IsPlain) (ht : Grounded W.held t) (h : (definitions W).Ends t) :
    LookupEnds W t where
  classes := isFound_of_eventually (receiverClassesWithin_succ · t)
    (eventually_succeeds hW (fun ht _ => succeeds_receiverClassesWithin hW ht) h ht)
  args owner := isFound_of_eventually (ownerArgsWithin_succ owner · t)
    (eventually_succeeds hW (fun ht _ => succeeds_ownerArgsWithin hW ht) h ht)
  openness := isFound_of_eventually (isOpenTypeWithin_succ · t)
    (eventually_succeeds hW (fun ht _ => succeeds_isOpenTypeWithin hW ht) h ht)

/-- Looking for members always comes to an end if no alias leads back to itself. -/
theorem lookupEnds_of_wellFounded (hW : W.IsPlain) (h : WellFounded (definitions W).Mentions)
    (ht : Grounded W.held t) : LookupEnds W t :=
  lookupEnds_of_ends hW ht (TypeEnv.ends_of_acc fun d _ => h.apply d)

/-! ## Types without an end -/

/-- The classes of a type without an end are not found at any depth. -/
theorem not_receiverClassesWithin (hW : W.IsPlain) {t : Ty} (ht : Grounded W.held t)
    (h : ¬(definitions W).Ends t) (depth : Nat) :
    Answers W (receiverClassesWithin depth t).run none := by
  obtain ⟨a, hendless, ha⟩ := exists_not_acc_lt_of_not_acc h
  change a ∈ (expansion W t).components at ha
  have htype := grounded_expand hW ht
  unfold receiverClassesWithin
  refine (answers_expand hW ht).run_lift.run_bind_some ?_
  generalize expansion W t = type at ha htype
  cases type with
  | nullable b =>
    obtain rfl := List.mem_singleton.mp ha
    cases depth with
    | zero => exact .pure none
    | succ depth =>
      have hb := Grounded.nullable_iff.mp htype
      exact (not_receiverClassesWithin hW hb hendless depth).run_bind_none
  | union ms =>
    cases depth with
    | zero => exact .pure none
    | succ depth =>
      have hms := Grounded.union_iff.mp htype
      -- all members are followed, and so is the one without an end
      have hsome (m : Ty) (hm : m ∈ ms) : ∃ o, Answers W (receiverClassesWithin depth m).run o :=
        ⟨_, .of_steady hW (steady_receiverClassesWithin depth (hms m hm)).run⟩
      have hnone := not_receiverClassesWithin hW (hms a ha) hendless depth
      exact (Answers.run_mapM_none hsome ha hnone).run_bind_none
  | _ => exact (List.not_mem_nil ha).elim
termination_by depth

theorem ends_of_lookupEnds (hW : W.IsPlain) (ht : Grounded W.held t) (h : LookupEnds W t) :
    (definitions W).Ends t := by
  by_contra hendless
  obtain ⟨ds, hfound⟩ := h.classes
  obtain ⟨depth, hds⟩ := hfound.exists
  have hnone := not_receiverClassesWithin hW ht hendless depth
  exact nomatch (hds.eq_new hW).symm.trans (hnone.eq_new hW)

/-- Looking for members of values of a type comes to an end exactly if the type ends. -/
theorem lookupEnds_iff_ends (hW : W.IsPlain) (ht : Grounded W.held t) :
    LookupEnds W t ↔ (definitions W).Ends t :=
  ⟨ends_of_lookupEnds hW ht, lookupEnds_of_ends hW ht⟩

/-! ## An alias with a parameter -/

/-- A module with an alias for optional values, and one for a choice with one of them. -/
def chooser : Source.Module :=
  { bareModule "file:///w/m.pkl" with
    aliases :=
      [⟨"Maybe", [⟨"T", .invariant⟩], .nullable (.simple "T"), [], none⟩,
        ⟨"Choice", [], .union [.named "Maybe" [.simple "Int"], .simple "String"], [], none⟩] }

def chooserTree : Tree := chooser.treeAs (Store.idOf chooser.uri) 1

def chooserStore : Store := Store.ofSources default .none [chooser]

/-- Looking for members of values of an annotated choice comes to an end. -/
theorem lookupEnds_iff_ends_choice :
    LookupEnds chooserStore
      (resolveType chooserTree Tree.root (.simple "Choice") (new chooserStore)).1 := by
  have hplain : chooserStore.IsPlain :=
    Store.isPlain_ofSources ProjectIndex.manifestIn?_none (by decide)
  have hstored : chooserTree ∈ chooserStore.held := .inr (Store.tree?_ofSources_singleton chooser)
  have hground := grounded_resolved hplain hstored Tree.root (.simple "Choice")
  let maybe : DeclRef := ⟨⟨chooserTree.id, 1⟩, "Maybe"⟩
  let choice : DeclRef := ⟨⟨chooserTree.id, 2⟩, "Choice"⟩
  have hnone : (aliasDef maybe (new chooserStore)).1.map (·.target.aliases) = some [] := by
    decide +kernel
  have hmaybe : Acc (definitions chooserStore).Mentions maybe :=
    TypeEnv.acc_mentions hnone (List.forall_mem_nil _)
  have hchoice : Acc (definitions chooserStore).Mentions choice :=
    TypeEnv.acc_mentions (by decide +kernel) (List.forall_mem_singleton.mpr hmaybe)
  have haliases : (resolveType chooserTree Tree.root (.simple "Choice")
      (new chooserStore)).1.aliases = [choice] := by
    decide +kernel
  refine (lookupEnds_iff_ends hplain hground).mpr (TypeEnv.ends_of_acc ?_)
  rw [haliases]
  exact List.forall_mem_singleton.mpr hchoice

/-! ## An alias without an end -/

/-- A module with an alias for itself with a question mark. -/
def endless : Source.Module :=
  { bareModule "file:///w/m.pkl" with aliases := [⟨"A", [], .nullable (.simple "A"), [], none⟩] }

def endlessTree : Tree := endless.treeAs (Store.idOf endless.uri) 1

def endlessStore : Store := Store.ofSources default .none [endless]

/-- An annotation can denote a type without an end. -/
theorem not_forall_lookupEnds :
    ¬∀ W : Store, W.IsPlain → ∀ t ∈ W.held, ∀ (n : Nat) (a : TypeExpr),
      LookupEnds W (resolveType t n a (new W)).1 := by
  intro h
  have hplain : endlessStore.IsPlain :=
    Store.isPlain_ofSources ProjectIndex.manifestIn?_none (by decide)
  have hstored : endlessTree ∈ endlessStore.held := .inr (Store.tree?_ofSources_singleton endless)
  have hlookup := h endlessStore hplain endlessTree hstored Tree.root (.simple "A")
  have hground := grounded_resolved hplain hstored Tree.root (.simple "A")
  have hends := ends_of_lookupEnds hplain hground hlookup
  have hitself : (resolveType endlessTree Tree.root (.simple "A") (new endlessStore)).1 ∈
      (expansion endlessStore
        (resolveType endlessTree Tree.root (.simple "A") (new endlessStore)).1).components := by
    decide +kernel
  exact TypeEnv.not_ends_of_cycle (.single hitself) hends

end PklAnalysis.Session
