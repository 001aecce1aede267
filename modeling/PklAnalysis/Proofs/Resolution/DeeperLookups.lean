import Mathlib.Order.Basic
import PklAnalysis.Proofs.Resolution.Steady

/-!
# Looking for members deeper

What is found about the type of a value at some depth is found at every greater depth, and in the
same way.  So it is what the analysis finds, which takes types apart as deep as any stack holds.
-/

namespace PklAnalysis.Session

variable {α β γ : Type}

/-- A computation does what another one does wherever that has an answer. -/
def Extends (y x : OptionT Query α) : Prop :=
  ∀ s a s', x.run s = (some a, s') → y.run s = (some a, s')

namespace Extends

variable {x y z : OptionT Query α} {f g : α → OptionT Query β}

theorem refl (x : OptionT Query α) : Extends x x := fun _ _ _ h => h

theorem trans (h : Extends z y) (h' : Extends y x) : Extends z x :=
  fun s a s' hx => h s a s' (h' s a s' hx)

theorem failure (y : OptionT Query α) : Extends y failure := fun _ _ _ h => nomatch h

theorem bind (hxy : Extends y x) (hfg : ∀ a, Extends (g a) (f a)) :
    Extends (y >>= g) (x >>= f) := by
  intro s b s'' h
  rw [OptionT.run_bind, Option.elimM, bind_apply] at h ⊢
  cases hx : x.run s with
  | mk o s' =>
    rw [hx] at h
    cases o with
    | none => cases h
    | some a =>
      rw [hxy s a s' hx]
      exact hfg a s' b s'' h

theorem mapM {f g : γ → OptionT Query α} (h : ∀ c, Extends (g c) (f c)) (l : List γ) :
    Extends (l.mapM g) (l.mapM f) := by
  induction l with
  | nil => exact .refl _
  | cons c l ih =>
    rw [List.mapM_cons, List.mapM_cons]
    exact (h c).bind fun a => ih.bind fun as => .refl _

theorem firstAnswer {f g : γ → OptionT Query (Option α)} (h : ∀ c, Extends (g c) (f c))
    (l : List γ) : Extends (Session.firstAnswer g l) (Session.firstAnswer f l) := by
  induction l with
  | nil => exact .refl _
  | cons c l ih =>
    refine (h c).bind fun o => ?_
    cases o with
    | none => exact ih
    | some a => exact .refl _

theorem anyM {f g : γ → OptionT Query Bool} (h : ∀ c, Extends (g c) (f c)) (l : List γ) :
    Extends (l.anyM g) (l.anyM f) := by
  induction l with
  | nil => exact .refl _
  | cons c l ih =>
    refine (h c).bind fun b => ?_
    cases b with
    | false => exact ih
    | true => exact .refl _

end Extends

/-! ## One step more -/

theorem receiverClassesWithin_succ (depth : Nat) (t : Ty) :
    Extends (receiverClassesWithin (depth + 1) t) (receiverClassesWithin depth t) := by
  unfold receiverClassesWithin
  refine (Extends.refl _).bind fun type => ?_
  cases type with
  | nullable a =>
    cases depth with
    | zero => exact .failure _
    | succ depth => exact (receiverClassesWithin_succ depth a).bind fun ds => .refl _
  | union ms =>
    cases depth with
    | zero => exact .failure _
    | succ depth =>
      exact (Extends.mapM (receiverClassesWithin_succ depth) ms).bind fun dss => .refl _
  | unknown | nothing | «class» | typeAlias | function | literal | param => exact .refl _

theorem ownerArgsWithin_succ (owner : DeclRef) (depth : Nat) (t : Ty) :
    Extends (ownerArgsWithin owner (depth + 1) t) (ownerArgsWithin owner depth t) := by
  unfold ownerArgsWithin
  refine (Extends.refl _).bind fun type => ?_
  cases type with
  | nullable a =>
    cases depth with
    | zero => exact .failure _
    | succ depth => exact ownerArgsWithin_succ owner depth a
  | union ms =>
    cases depth with
    | zero => exact .failure _
    | succ depth => exact .firstAnswer (ownerArgsWithin_succ owner depth) ms
  | unknown | nothing | «class» | typeAlias | function | literal | param => exact .refl _

theorem isOpenTypeWithin_succ (depth : Nat) (t : Ty) :
    Extends (isOpenTypeWithin (depth + 1) t) (isOpenTypeWithin depth t) := by
  unfold isOpenTypeWithin
  refine (Extends.refl _).bind fun type => ?_
  cases type with
  | nullable a =>
    cases depth with
    | zero => exact .failure _
    | succ depth => exact isOpenTypeWithin_succ depth a
  | union ms =>
    cases depth with
    | zero => exact .failure _
    | succ depth => exact .anyM (isOpenTypeWithin_succ depth) ms
  | unknown | nothing | «class» | typeAlias | function | literal | param => exact .refl _

theorem extends_of_le {f : Nat → OptionT Query α} (h : ∀ depth, Extends (f (depth + 1)) (f depth))
    {depth depth' : Nat} (hle : depth ≤ depth') : Extends (f depth') (f depth) := by
  induction hle with
  | refl => exact .refl _
  | step _ ih => exact (h _).trans ih

/-! ## What the analysis finds -/

section Found

variable {depth : Nat} (hdepth : depth ≤ maxUnfolding) {t : Ty} {s s' : Session}
include hdepth

theorem receiverClasses_eq {ds : List DeclRef}
    (h : (receiverClassesWithin depth t).run s = (some ds, s')) :
    receiverClasses t s = (ds, s') := by
  have hmax := extends_of_le (receiverClassesWithin_succ · t) hdepth s ds s' h
  rw [receiverClasses, bounded_atDepth, bind_apply, hmax]
  rfl

theorem ownerArgs?_eq {owner : DeclRef} {args : Option (List Ty)}
    (h : (ownerArgsWithin owner depth t).run s = (some args, s')) :
    ownerArgs? t owner s = (args, s') := by
  have hmax := extends_of_le (ownerArgsWithin_succ owner · t) hdepth s args s' h
  rw [ownerArgs?, bounded_atDepth, bind_apply, hmax]
  rfl

theorem isOpenType_eq {isOpen : Bool} (h : (isOpenTypeWithin depth t).run s = (some isOpen, s')) :
    isOpenType t s = (isOpen, s') := by
  have hmax := extends_of_le (isOpenTypeWithin_succ · t) hdepth s isOpen s' h
  rw [isOpenType, bounded_atDepth, bind_apply, hmax]
  rfl

end Found

end PklAnalysis.Session
