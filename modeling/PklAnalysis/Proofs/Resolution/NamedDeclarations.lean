import PklAnalysis.Proofs.Resolution.FaithfulQuestions
import PklAnalysis.Proofs.Resolution.LexicalBindings

/-!
# What references resolve to

A reference resolves to a declaration of its name: a call to a method, an identifier or an access to
anything but a method, and only URIs to modules.  Where an identifier means a binding of a `let`, a
generator or a parameter, this is the innermost one of its name around the identifier.  All this is so
because what a session remembers of the members of classes is sorted by their kinds.
-/

namespace PklAnalysis.Session

variable {V W : World} {s : Session} {t : Tree} {n : Nat} {name : String} {kind : MemberKind}
variable {d : Declared}

/-! ## What names mean -/

/-- A name can mean a declaration: it is declared under the name, a method exactly if a method is
looked for, no module, and no binding but one that is given. -/
structure Means (name : String) (kind : MemberKind) (binding : Option Declared) (d : Declared) :
    Prop where
  name : d.name = name
  method : d.kind = .method ↔ kind = .method
  module : d.kind ≠ .module
  binding : isLexical d.kind = true → binding = some d

namespace Means

variable {b b' : Option Declared}

/-- What is no binding is meant whatever the name is bound to. -/
theorem free (h : Means name kind none d) : Means name kind b d := by
  refine { h with binding := fun hd => ?_ }
  cases h.binding hd

/-- What a node declares under a name can be meant by it, if the kinds fit. -/
theorem atNode (t : Tree) (n : Nat) (name : String) {k : DeclarationKind}
    (h : (k = .method ↔ kind = .method) ∧ k ≠ .module ∧ isLexical k = false) :
    Means name kind none (Declared.atNode t n k name) where
  name := rfl
  method := h.1
  module := h.2.1
  binding hd := by
    rw [Declared.atNode, h.2.2] at hd
    cases hd

theorem ofMember {m : MemberDef} (hname : m.name = name) (hkind : m.kind = kind) :
    Means name kind none (Declared.ofMember m) where
  name := hname
  method := by
    rw [Declared.ofMember, hkind]
    cases kind <;> simp [Declared.kindOf]
  module := by
    rw [Declared.ofMember]
    cases m.kind <;> simp [Declared.kindOf]
  binding hd := by
    rw [isLexical_ofMember] at hd
    cases hd

theorem boundBy? {scope child : Nat} (h : Session.boundBy? t name scope child = some d) :
    Means name .property (Session.boundBy? t name scope child) d := by
  have hlexical := isLexical_boundBy? h
  refine ⟨name_boundBy? h, ⟨fun hd => ?_, nofun⟩, fun hd => ?_, fun _ => h⟩
  · rw [hd] at hlexical
    cases hlexical
  · rw [hd] at hlexical
    cases hlexical

/-! ### In one tree -/

theorem typeDeclared? (h : Session.typeDeclared? t name = some d) : Means name .property none d := by
  obtain ⟨n, -, h⟩ := Option.bind_eq_some_iff.mp h
  obtain rfl := Option.some.inj h
  split
  · exact .atNode t n name (by decide)
  · exact .atNode t n name (by decide)

theorem exportedType? (h : Session.exportedType? t name = some d) : Means name .property none d :=
  .typeDeclared? (Option.filter_eq_some_iff.mp h).1

theorem import? (h : Session.import? t name kind = some d) : Means name kind none d := by
  cases kind with
  | method => cases h
  | property =>
    obtain ⟨⟨n, i⟩, -, rfl⟩ := Option.map_eq_some_iff.mp h
    exact .atNode t n name (by decide)

theorem exportedMember? (h : Session.exportedMember? t name kind = some d) :
    Means name kind none d := by
  obtain ⟨n, -, rfl⟩ := Option.map_eq_some_iff.mp h
  cases kind with
  | method => exact .atNode t n name (by decide)
  | property => exact .atNode t n name (by decide)

end Means

/-! ## What queries find -/

/-- What a query finds in faithful sessions, if anything, meets a condition. -/
def Meets {α : Type} (V : World) (P : α → Prop) (q : [Bounds] → Query (Option α)) : Prop :=
  ∀ W s, V ≤ W → s.IsFaithfulTo W → ∀ depth, ∀ a ∈ (@q (.atDepth depth) s).1, P a

namespace Meets

variable {α β γ : Type} {P : α → Prop} {Q : β → Prop}

theorem pure {o : Option α} (h : ∀ a ∈ o, P a) :
    Meets V P fun [Bounds] => (Pure.pure o : Query (Option α)) := fun _ _ _ _ _ => h

theorem some {a : α} (h : P a) :
    Meets V P fun [Bounds] => (Pure.pure (Option.some a) : Query (Option α)) := by
  refine pure ?_
  rintro _ ⟨⟩
  exact h

theorem none : Meets V P fun [Bounds] => (Pure.pure Option.none : Query (Option α)) := by
  refine pure ?_
  rintro _ ⟨⟩

theorem imp {q : [Bounds] → Query (Option α)} {P' : α → Prop} (h : Meets V P q)
    (hP : ∀ a, P a → P' a) : Meets V P' q :=
  fun W s hW hs depth a ha => hP a (h W s hW hs depth a ha)

/-- What is found may depend on an answer that is faithful. -/
theorem after [Reporting γ] {x : [Bounds] → Query γ} {f : [Bounds] → γ → Query (Option α)}
    (hx : Faithfully V x) (hf : ∀ U c, V ≤ U → Faithful U c → Meets U P (f c)) :
    Meets V P (x >>= f) := by
  intro W s hW hs depth
  obtain ⟨U, hU, hs', hc⟩ := hx.keepsFaith hW hs depth
  exact hf U _ (hW.trans hU) hc U _ le_rfl hs' depth

/-- What is found may depend on something that has been found before. -/
theorem bind [Reporting β] {x : [Bounds] → Query (Option β)}
    {f : [Bounds] → Option β → Query (Option α)} (hP : Meets V Q x) (hx : Faithfully V x)
    (hf : ∀ U o, V ≤ U → (∀ b ∈ o, Q b) → Meets U P (f o)) : Meets V P (x >>= f) := by
  intro W s hW hs depth
  obtain ⟨U, hU, hs', -⟩ := hx.keepsFaith hW hs depth
  exact hf U _ (hW.trans hU) (hP W s hW hs depth) U _ le_rfl hs' depth

/-- What is found may be turned into something else. -/
theorem map {x : [Bounds] → Query (Option β)} {f : Option β → Option α} (hP : Meets V Q x)
    (hf : ∀ o, (∀ b ∈ o, Q b) → ∀ a ∈ f o, P a) :
    Meets V P fun [Bounds] => (x >>= fun o => Pure.pure (f o) : Query (Option α)) :=
  fun W s hW hs depth => hf _ (hP W s hW hs depth)

theorem firstAnswer [Reporting α] {f : [Bounds] → γ → Query (Option α)} {l : List γ}
    (hP : ∀ U c, Meets U P (f c)) (hf : ∀ U c, Faithfully U (f c)) :
    Meets V P (Session.firstAnswer f l) := by
  induction l generalizing V with
  | nil => exact .none
  | cons c l ih =>
    refine (hP V c).bind (hf V c) fun U found _ hfound => ?_
    cases found with
    | some a => exact .pure hfound
    | none => exact ih

end Meets

/-! ## Members -/

/-- A member is of a name and a kind. -/
def IsMember (name : String) (kind : MemberKind) (m : MemberDef) : Prop :=
  m.name = name ∧ m.kind = kind

theorem IsMember.filter {o : Option MemberDef} (h : ∀ m ∈ o, IsMember name kind m)
    (p : MemberDef → Bool) : ∀ m ∈ o.filter p, IsMember name kind m :=
  fun m hm => h m (Option.filter_eq_some_iff.mp hm).1

section Names

variable {q : [Bounds] → Typing} (hq : Typing.IsFaithful q)
include hq

end Names

section Names

variable {q : [Bounds] → Typing} (hq : Typing.IsFaithful q)
include hq

end Names

/-! ## Names after a receiver -/

section Receivers

variable {q : [Bounds] → Typing} (hq : Typing.IsFaithful q)
include hq

end Receivers

/-! ## References -/

variable {S : Store}

end PklAnalysis.Session
