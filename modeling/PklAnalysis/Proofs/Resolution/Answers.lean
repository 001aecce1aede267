import Mathlib.Data.List.Forall2
import Mathlib.Data.Option.Basic
import PklAnalysis.Proofs.Resolution.SteadyInference
import PklAnalysis.Proofs.Resolution.Adoption

/-!
# Answers side by side

A steady query has one answer in all sessions over a store that remember nothing but what is still
so.  Answers can be put together without the sessions, so a query about one store can be compared
with a query about another one: they run side by side if their answers are in a relation.
-/

namespace PklAnalysis.Session

variable {W V : Store}

/-- A session over a store remembers nothing that a new session would not find out. -/
structure IsFaithful (W : Store) (s : Session) : Prop where
  current : IsCurrent W s
  leads : s.LeadsAs W

theorem isFaithful_new (hW : W.IsPlain) : IsFaithful W (new W) := ⟨.new hW, leadsAs_new W W⟩

/-- What a query answers in any session over a store. -/
def Answers {α : Type} (W : Store) (q : Query α) (a : α) : Prop :=
  ∀ s, IsFaithful W s → (q s).1 = a ∧ IsFaithful W (q s).2

namespace Answers

variable {α β : Type}

theorem pure (a : α) : Answers W (Pure.pure a) a := fun _ hs => ⟨rfl, hs⟩

theorem bind {q : Query α} {f : α → Query β} {a : α} {b : β} (hq : Answers W q a)
    (hf : Answers W (f a) b) : Answers W (q >>= f) b := by
  intro s hs
  obtain ⟨rfl, hs'⟩ := hq s hs
  exact hf _ hs'

theorem of_steady [Grounding α] (hW : W.IsPlain) {q : Query α} (hq : Steady W.held q) :
    Answers W q (q (new W)).1 := by
  intro s hs
  have hsteady := hq W s hW subset_rfl hs.current
  exact ⟨SteadyQuery.answer_eq hq hW subset_rfl hs.current (.new hW) hs.leads (leadsAs_new W W),
    hsteady.current, hsteady.leads hs.leads⟩

theorem eq_new (hW : W.IsPlain) {q : Query α} {a : α} (h : Answers W q a) : (q (new W)).1 = a :=
  (h _ (isFaithful_new hW)).1

theorem unique (hW : W.IsPlain) {q : Query α} {a b : α} (ha : Answers W q a) (hb : Answers W q b) :
    a = b :=
  (ha.eq_new hW).symm.trans (hb.eq_new hW)

/-- What a query goes on with has the answer of the query. -/
theorem of_bind [Grounding β] (hW : W.IsPlain) {q : Query α} {f : α → Query β} {a : α} {b : β}
    (h : Answers W (q >>= f) b) (hq : Answers W q a) (hf : Steady W.held (f a)) :
    Answers W (f a) b := by
  have hrest := of_steady hW hf
  exact (hq.bind hrest).unique hW h ▸ hrest

theorem grounded [Grounding α] (hW : W.IsPlain) {q : Query α} (hq : Steady W.held q) {a : α}
    (h : Answers W q a) : Grounded W.held a :=
  h.eq_new hW ▸ (SteadyQuery.keeps hq hW (.new hW)).2

/-- Queries that do the same in all sessions over a store have the same answers. -/
theorem congr {q q' : Query α} {a : α} (h : Answers W q a)
    (hqq' : ∀ s, IsFaithful W s → q' s = q s) : Answers W q' a := by
  intro s hs
  rw [hqq' s hs]
  exact h s hs

/-- A query whose answers are remembered has the answers that it remembers. -/
theorem remembered [Grounding α] {table : Session → Dict Site α}
    {store : Session → Dict Site α → Session} {ask compute : DeclRef → Query α}
    (hshelf : Shelf table store ask)
    (hask : ∀ d, ask d = Session.remembered d.site table store (compute d)) (hW : W.IsPlain)
    {d : DeclRef} (hsteady : Steady W.held (ask d)) {a : α} (h : Answers W (compute d) a) :
    Answers W (ask d) a := by
  have hnew : (ask d (new W)).1 = a := by
    rw [hask, remembered_apply, hshelf.empty]
    exact h.eq_new hW
  exact hnew ▸ of_steady hW hsteady

end Answers

/-! ## Side by side -/

/-- A monad in which computations about two stores can be compared. -/
class ParallelMonad (n : Type → Type) [Monad n] where
  Parallel : {α β : Type} → Store → Store → (α → β → Prop) → n α → n β → Prop
  pure : ∀ {W V : Store} {α β : Type} {P : α → β → Prop} {a : α} {b : β}, P a b →
    Parallel W V P (Pure.pure a) (Pure.pure b)
  bind : ∀ {W V : Store} {α β γ δ : Type} {P : α → β → Prop} {Q : γ → δ → Prop} {x : n α}
    {y : n β} {f : α → n γ} {g : β → n δ}, Parallel W V P x y →
    (∀ a b, P a b → Parallel W V Q (f a) (g b)) → Parallel W V Q (x >>= f) (y >>= g)
  imp : ∀ {W V : Store} {α β : Type} {P Q : α → β → Prop} {x : n α} {y : n β},
    Parallel W V P x y → (∀ a b, P a b → Q a b) → Parallel W V Q x y

/-- The answers of a computation about one store and of a computation about another one are in a
relation. -/
def Parallel {n : Type → Type} [Monad n] [ParallelMonad n] {α β : Type} (W V : Store)
    (P : α → β → Prop) (x : n α) (y : n β) : Prop := ParallelMonad.Parallel W V P x y

instance : ParallelMonad Query where
  Parallel W V P x y := ∃ a b, Answers W x a ∧ Answers V y b ∧ P a b
  pure {W V _ _ P a b} h := ⟨a, b, .pure a, .pure b, h⟩
  bind {W V _ _ _ _ P Q x y f g} hxy hfg := by
    obtain ⟨a, b, hx, hy, hab⟩ := hxy
    obtain ⟨c, d, hf, hg, hcd⟩ := hfg a b hab
    exact ⟨c, d, hx.bind hf, hy.bind hg, hcd⟩
  imp := by
    rintro W V α β P Q x y ⟨a, b, hx, hy, hab⟩ hPQ
    exact ⟨a, b, hx, hy, hPQ a b hab⟩

/-- Queries that may fail both fail or both have an answer. -/
instance : ParallelMonad (OptionT Query) where
  Parallel W V P x y := Parallel (n := Query) W V (Option.Rel P) x.run y.run
  pure h := ParallelMonad.pure (n := Query) (.some h)
  bind {W V α β γ δ P Q x y f g} hxy hfg := by
    change ParallelMonad.Parallel (n := Query) W V (Option.Rel Q)
      (x.run >>= fun o => match o with | some a => (f a).run | none => pure none)
      (y.run >>= fun o => match o with | some b => (g b).run | none => pure none)
    refine ParallelMonad.bind hxy fun a b hab => ?_
    cases hab with
    | some hab => exact hfg _ _ hab
    | none => exact ParallelMonad.pure .none
  imp hxy hPQ := by
    refine ParallelMonad.imp (n := Query) hxy fun a b hab => ?_
    cases hab with
    | some hab => exact .some (hPQ _ _ hab)
    | none => exact .none

namespace Parallel

variable {n : Type → Type} [Monad n] [ParallelMonad n]
variable {α β γ δ : Type} {P : α → β → Prop} {Q : γ → δ → Prop}

protected theorem pure {a : α} {b : β} (h : P a b) :
    Parallel W V P (pure a : n α) (pure b) := ParallelMonad.pure h

protected theorem bind {x : n α} {y : n β} {f : α → n γ} {g : β → n δ} (hxy : Parallel W V P x y)
    (hfg : ∀ a b, P a b → Parallel W V Q (f a) (g b)) : Parallel W V Q (x >>= f) (y >>= g) :=
  ParallelMonad.bind hxy hfg

protected theorem map [LawfulMonad n] {x : n α} {y : n β} {f : α → γ} {g : β → δ}
    (hxy : Parallel W V P x y) (hfg : ∀ a b, P a b → Q (f a) (g b)) :
    Parallel W V Q (f <$> x) (g <$> y) := by
  rw [map_eq_pure_bind, map_eq_pure_bind]
  exact hxy.bind fun a b hab => .pure (hfg a b hab)

protected theorem imp {x : n α} {y : n β} {P' : α → β → Prop} (hxy : Parallel W V P x y)
    (hP : ∀ a b, P a b → P' a b) : Parallel W V P' x y := ParallelMonad.imp hxy hP

theorem lift {x : Query α} {y : Query β} (hxy : Parallel W V P x y) :
    Parallel W V P (monadLift x : OptionT Query α) (monadLift y) := by
  change Parallel (n := Query) W V (Option.Rel P) (x >>= fun a => pure (some a))
    (y >>= fun b => pure (some b))
  exact hxy.bind fun a b hab => .pure (.some hab)

theorem failure : Parallel W V P (failure : OptionT Query α) failure :=
  Parallel.pure (n := Query) .none

theorem run {x : OptionT Query α} {y : OptionT Query β} (hxy : Parallel W V P x y) :
    Parallel W V (Option.Rel P) x.run y.run := hxy

section Lists

variable {R : γ → δ → Prop} {l : List γ} {k : List δ} {f : γ → n α} {g : δ → n β}

theorem mapM [LawfulMonad n] (hlk : List.Forall₂ R l k)
    (hfg : ∀ c d, R c d → Parallel W V P (f c) (g d)) :
    Parallel W V (List.Forall₂ P) (l.mapM f) (k.mapM g) := by
  induction hlk with
  | nil =>
    rw [List.mapM_nil, List.mapM_nil]
    exact .pure .nil
  | cons hcd _ ih =>
    rw [List.mapM_cons, List.mapM_cons]
    refine (hfg _ _ hcd).bind fun a b hab => ih.bind fun as bs habs => .pure ?_
    exact .cons hab habs

theorem firstAnswer {f : γ → n (Option α)} {g : δ → n (Option β)} (hlk : List.Forall₂ R l k)
    (hfg : ∀ c d, R c d → Parallel W V (Option.Rel P) (f c) (g d)) :
    Parallel W V (Option.Rel P) (Session.firstAnswer f l) (Session.firstAnswer g k) := by
  induction hlk with
  | nil => exact .pure .none
  | cons hcd _ ih =>
    refine (hfg _ _ hcd).bind fun a b hab => ?_
    cases hab with
    | some hab => exact .pure (.some hab)
    | none => exact ih

theorem optionMapM [LawfulMonad n] {o : Option γ} {p : Option δ} (hop : Option.Rel R o p)
    (hfg : ∀ c d, R c d → Parallel W V P (f c) (g d)) :
    Parallel W V (Option.Rel P) (o.mapM f) (p.mapM g) := by
  cases hop with
  | none => exact .pure .none
  | some hcd => exact (hfg _ _ hcd).map fun a b hab => .some hab

end Lists

end Parallel

end PklAnalysis.Session
