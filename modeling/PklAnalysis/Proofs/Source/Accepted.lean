import PklAnalysis.Source.Json
import PklAnalysis.Proofs.Source.Leaves
import PklAnalysis.Proofs.TypeExpr.RoundTrip

/-!
# What was read

The leaves of a description that was read from JSON: its annotations are trees of the grammar,
its integers fit 64 bits with a sign and its places 64 bits without one.
-/

namespace PklAnalysis.Source

open Json (required defaulting)

/-- The leaves that reading can give. -/
def readable : LeafTest where
  annotation := TypeExpr.Legible
  integer := fun i => -(Int.pow 2 63) ≤ i ∧ i < Int.pow 2 63
  place := fun s => s.start < Nat.pow 2 64 ∧ s.stop < Nat.pow 2 64

theorem exists_of_bind {α β : Type} {x : Option α} {f : α → Option β} {b : β}
    (h : x >>= f = some b) : ∃ a, x = some a ∧ f a = some b :=
  Option.bind_eq_some_iff.mp h

/-! ## Presence -/

section

variable {α : Type} {read : Json → Option α} {P : α → Prop} (hread : ∀ v a, read v = some a → P a)

include hread

theorem required_passes {field : Option Json} {a : α} (h : required read field = some a) :
    P a := by
  obtain ⟨v, -, hv⟩ := exists_of_bind h
  exact hread v a hv

theorem optional_passes {field : Option Json} {a? : Option α}
    (h : Json.optional read field = some a?) : ∀ a, a? = some a → P a := by
  rintro a rfl
  unfold Json.optional at h
  split at h
  · cases h
  · cases h
  · obtain ⟨b, hb, heq⟩ := Option.map_eq_some_iff.mp h
    obtain rfl := Option.some.inj heq
    exact hread _ _ hb

theorem mapM_passes {vs : List Json} {as : List α} (h : vs.mapM read = some as) :
    ∀ a ∈ as, P a := by
  induction vs generalizing as with
  | nil =>
    obtain rfl := Option.some.inj h
    simp
  | cons v vs ih =>
    rw [List.mapM_cons] at h
    obtain ⟨b, hb, hrest⟩ := exists_of_bind h
    obtain ⟨bs, hbs, hresult⟩ := exists_of_bind hrest
    obtain rfl := Option.some.inj hresult
    intro a ha
    rcases List.mem_cons.mp ha with rfl | ha
    · exact hread v _ hb
    · exact ih hbs a ha

theorem list?_passes {v : Json} {as : List α} (h : Json.list? read v = some as) :
    ∀ a ∈ as, P a := by
  unfold Json.list? at h
  split at h
  · exact mapM_passes hread h
  · cases h

theorem defaulting_list?_passes {field : Option Json} {as : List α}
    (h : defaulting (Json.list? read) [] field = some as) : ∀ a ∈ as, P a := by
  cases field with
  | none =>
    obtain rfl := Option.some.inj h
    simp
  | some v => exact list?_passes hread h

end

/-! ## Leaves -/

theorem legible_of_typeExpr? (v : Json) (a : TypeExpr) (h : typeExpr? v = some a) :
    a.Legible := by
  obtain ⟨s, -, hs⟩ := exists_of_bind h
  cases hparse : TypeExpr.parse s with
  | error e => simp [hparse, Except.toOption] at hs
  | ok b =>
    obtain rfl : b = a := by simpa [hparse, Except.toOption] using hs
    exact TypeExpr.legible_of_parse hparse

theorem onType_of_optional {field : Option Json} {type : Option TypeExpr}
    (h : Json.optional typeExpr? field = some type) : readable.OnType type :=
  optional_passes legible_of_typeExpr? h

theorem integer_of_int64? (v : Json) (i : Int) (h : v.int64? = some i) :
    readable.integer i := by
  unfold Json.int64? at h
  split at h
  next j =>
    split at h
    next hrange =>
      obtain rfl := Option.some.inj h
      simpa [readable] using hrange
    next => cases h
  next => cases h

theorem lt_of_nat64? (v : Json) (n : Nat) (h : v.nat64? = some n) : n < Nat.pow 2 64 := by
  unfold Json.nat64? at h
  split at h
  next i =>
    split at h
    next hrange =>
      obtain rfl := Option.some.inj h
      have hrange : 0 ≤ i ∧ i < Int.pow 2 64 := by simpa using hrange
      have hpow : (Nat.pow 2 64 : Int) = Int.pow 2 64 := by decide
      omega
    next => cases h
  next => cases h

theorem place_of_span? (v : Json) (s : Span) (h : span? v = some s) : readable.place s := by
  obtain ⟨fields, -, hfields⟩ := exists_of_bind h
  split at hfields
  · obtain ⟨start, hstart, hrest⟩ := exists_of_bind hfields
    obtain ⟨stop, hstop, hresult⟩ := exists_of_bind hrest
    obtain rfl := Option.some.inj hresult
    exact ⟨required_passes lt_of_nat64? hstart, required_passes lt_of_nat64? hstop⟩
  · cases hfields

theorem onPlace_of_optional {field : Option Json} {span : Option Span}
    (h : Json.optional span? field = some span) : readable.OnPlace span :=
  optional_passes place_of_span? h

theorem onType_of_binding? (v : Json) (b : Binding) (h : binding? v = some b) :
    readable.OnType b.type := by
  obtain ⟨fields, -, hfields⟩ := exists_of_bind h
  split at hfields
  · obtain ⟨name, -, hrest⟩ := exists_of_bind hfields
    obtain ⟨type, htype, hresult⟩ := exists_of_bind hrest
    obtain rfl := Option.some.inj hresult
    exact onType_of_optional htype
  · cases hfields

theorem onBindings_of_list {field : Option Json} {bs : List Binding}
    (h : defaulting (Json.list? binding?) [] field = some bs) : readable.OnBindings bs :=
  defaulting_list?_passes onType_of_binding? h

/-! ## Expressions and members -/

theorem exprsPass_iff {t : LeafTest} {es : List Expr} :
    ExprsPass t es ↔ ∀ e ∈ es, e.Passes t := by
  induction es with
  | nil => simp [ExprsPass]
  | cons e es ih => simp [ExprsPass, ih]

theorem membersPass_iff {t : LeafTest} {ms : List Member} :
    MembersPass t ms ↔ ∀ m ∈ ms, m.Passes t := by
  induction ms with
  | nil => simp [MembersPass]
  | cons m ms ih => simp [MembersPass, ih]

theorem receiverPasses_iff {t : LeafTest} {e? : Option Expr} :
    ReceiverPasses t e? ↔ ∀ e, e? = some e → e.Passes t := by
  cases e? <;> simp [ReceiverPasses]

theorem bodyPasses_iff {t : LeafTest} {b? : Option (List Member)} :
    BodyPasses t b? ↔ ∀ b, b? = some b → MembersPass t b := by
  cases b? <;> simp [BodyPasses]

/-- What the readers of nested expressions and members give passes a test. -/
structure PassesWithin (t : LeafTest) (inner : Bool) (n : Nat) : Prop where
  expr : ∀ v e, exprWithin inner n v = some e → e.Passes t
  member : ∀ v m, memberWithin inner n v = some m → m.Passes t

section

variable {n : Nat} (h : PassesWithin readable true n)

include h

theorem PassesWithin.receiver {field : Option Json} {e? : Option Expr}
    (hread : Json.optional (exprWithin true n) field = some e?) : ReceiverPasses readable e? :=
  receiverPasses_iff.mpr (optional_passes h.expr hread)

theorem PassesWithin.exprs {field : Option Json} {es : List Expr}
    (hread : defaulting (Json.list? (exprWithin true n)) [] field = some es) :
    ExprsPass readable es :=
  exprsPass_iff.mpr (defaulting_list?_passes h.expr hread)

theorem PassesWithin.members {field : Option Json} {ms : List Member}
    (hread : defaulting (Json.list? (memberWithin true n)) [] field = some ms) :
    MembersPass readable ms :=
  membersPass_iff.mpr (defaulting_list?_passes h.member hread)

theorem PassesWithin.body {field : Option Json} {b? : Option (List Member)}
    (hread : Json.optional (Json.list? (memberWithin true n)) field = some b?) :
    BodyPasses readable b? :=
  bodyPasses_iff.mpr (optional_passes
    (fun _ _ hlist => membersPass_iff.mpr (list?_passes h.member hlist)) hread)

theorem PassesWithin.expr_succ {inner : Bool} {v : Json} {e : Expr}
    (hread : exprWithin inner (n + 1) v = some e) : e.Passes readable := by
  rw [exprWithin] at hread
  obtain ⟨⟨_, rest⟩, -, hkind⟩ := exists_of_bind hread
  obtain ⟨_, -, hcase⟩ := exists_of_bind hkind
  clear hread hkind
  split at hcase
  · -- a string
    obtain ⟨_, -, hcase⟩ := exists_of_bind hcase
    split at hcase
    · obtain ⟨_, -, hcase⟩ := exists_of_bind hcase
      obtain rfl := Option.some.inj hcase
      exact trivial
    · cases hcase
  · -- an integer
    obtain ⟨_, -, hcase⟩ := exists_of_bind hcase
    split at hcase
    · obtain ⟨_, hvalue, hcase⟩ := exists_of_bind hcase
      obtain rfl := Option.some.inj hcase
      exact required_passes integer_of_int64? hvalue
    · cases hcase
  · -- a float
    obtain ⟨_, -, hcase⟩ := exists_of_bind hcase
    split at hcase
    · obtain ⟨_, -, hcase⟩ := exists_of_bind hcase
      obtain rfl := Option.some.inj hcase
      exact trivial
    · cases hcase
  · -- a boolean
    obtain ⟨_, -, hcase⟩ := exists_of_bind hcase
    split at hcase
    · obtain ⟨_, -, hcase⟩ := exists_of_bind hcase
      obtain rfl := Option.some.inj hcase
      exact trivial
    · cases hcase
  · -- null
    split at hcase
    · obtain rfl := Option.some.inj hcase
      trivial
    · cases hcase
  · -- an identifier
    obtain ⟨_, -, hcase⟩ := exists_of_bind hcase
    split at hcase
    · obtain ⟨_, -, hcase⟩ := exists_of_bind hcase
      obtain rfl := Option.some.inj hcase
      exact trivial
    · cases hcase
  · -- an access
    obtain ⟨_, -, hcase⟩ := exists_of_bind hcase
    split at hcase
    · obtain ⟨_, hreceiver, hcase⟩ := exists_of_bind hcase
      obtain ⟨_, -, hcase⟩ := exists_of_bind hcase
      obtain ⟨_, -, hcase⟩ := exists_of_bind hcase
      obtain rfl := Option.some.inj hcase
      have hpasses := required_passes h.expr hreceiver
      exact hpasses
    · cases hcase
  · -- a call
    obtain ⟨_, -, hcase⟩ := exists_of_bind hcase
    split at hcase
    · obtain ⟨_, hreceiver, hcase⟩ := exists_of_bind hcase
      obtain ⟨_, -, hcase⟩ := exists_of_bind hcase
      obtain ⟨_, hargs, hcase⟩ := exists_of_bind hcase
      obtain rfl := Option.some.inj hcase
      exact ⟨h.receiver hreceiver, h.exprs hargs⟩
    · cases hcase
  · -- this
    split at hcase
    · obtain rfl := Option.some.inj hcase
      trivial
    · cases hcase
  · -- module
    split at hcase
    · obtain rfl := Option.some.inj hcase
      trivial
    · cases hcase
  · -- let
    obtain ⟨_, -, hcase⟩ := exists_of_bind hcase
    split at hcase
    · obtain ⟨_, -, hcase⟩ := exists_of_bind hcase
      obtain ⟨_, htype, hcase⟩ := exists_of_bind hcase
      obtain ⟨_, hvalue, hcase⟩ := exists_of_bind hcase
      obtain ⟨_, hbody, hcase⟩ := exists_of_bind hcase
      obtain rfl := Option.some.inj hcase
      exact ⟨onType_of_optional htype, required_passes h.expr hvalue,
        required_passes h.expr hbody⟩
    · cases hcase
  · -- a lambda
    obtain ⟨_, -, hcase⟩ := exists_of_bind hcase
    split at hcase
    · obtain ⟨_, hparams, hcase⟩ := exists_of_bind hcase
      obtain ⟨_, hbody, hcase⟩ := exists_of_bind hcase
      obtain rfl := Option.some.inj hcase
      exact ⟨onBindings_of_list hparams, required_passes h.expr hbody⟩
    · cases hcase
  · -- new
    obtain ⟨_, -, hcase⟩ := exists_of_bind hcase
    split at hcase
    · obtain ⟨_, htype, hcase⟩ := exists_of_bind hcase
      obtain ⟨_, hbody, hcase⟩ := exists_of_bind hcase
      obtain rfl := Option.some.inj hcase
      exact ⟨onType_of_optional htype, h.members hbody⟩
    · cases hcase
  · -- an amended object
    obtain ⟨_, -, hcase⟩ := exists_of_bind hcase
    split at hcase
    · obtain ⟨_, hparent, hcase⟩ := exists_of_bind hcase
      obtain ⟨_, hbody, hcase⟩ := exists_of_bind hcase
      obtain rfl := Option.some.inj hcase
      exact ⟨required_passes h.expr hparent, h.members hbody⟩
    · cases hcase
  · -- a conditional
    obtain ⟨_, -, hcase⟩ := exists_of_bind hcase
    split at hcase
    · obtain ⟨_, hcondition, hcase⟩ := exists_of_bind hcase
      obtain ⟨_, hthen, hcase⟩ := exists_of_bind hcase
      obtain ⟨_, helse, hcase⟩ := exists_of_bind hcase
      obtain rfl := Option.some.inj hcase
      exact ⟨required_passes h.expr hcondition, required_passes h.expr hthen,
        required_passes h.expr helse⟩
    · cases hcase
  · -- an import
    obtain ⟨_, -, hcase⟩ := exists_of_bind hcase
    split at hcase
    · obtain ⟨_, -, hcase⟩ := exists_of_bind hcase
      obtain ⟨_, -, hcase⟩ := exists_of_bind hcase
      obtain rfl := Option.some.inj hcase
      exact trivial
    · cases hcase
  · cases hcase

theorem PassesWithin.member_succ {inner : Bool} {v : Json} {m : Member}
    (hread : memberWithin inner (n + 1) v = some m) : m.Passes readable := by
  rw [memberWithin] at hread
  obtain ⟨⟨_, rest⟩, -, hkind⟩ := exists_of_bind hread
  obtain ⟨_, -, hcase⟩ := exists_of_bind hkind
  clear hread hkind
  split at hcase
  · -- a property
    obtain ⟨_, -, hcase⟩ := exists_of_bind hcase
    split at hcase
    · obtain ⟨_, -, hcase⟩ := exists_of_bind hcase
      obtain ⟨_, htype, hcase⟩ := exists_of_bind hcase
      obtain ⟨_, hvalue, hcase⟩ := exists_of_bind hcase
      obtain ⟨_, hbody, hcase⟩ := exists_of_bind hcase
      obtain rfl := Option.some.inj hcase
      exact ⟨onType_of_optional htype, h.receiver hvalue, h.body hbody⟩
    · cases hcase
  · -- an element
    obtain ⟨_, -, hcase⟩ := exists_of_bind hcase
    split at hcase
    · obtain ⟨_, hvalue, hcase⟩ := exists_of_bind hcase
      obtain rfl := Option.some.inj hcase
      exact required_passes h.expr hvalue
    · cases hcase
  · -- an entry
    obtain ⟨_, -, hcase⟩ := exists_of_bind hcase
    split at hcase
    · obtain ⟨_, hkey, hcase⟩ := exists_of_bind hcase
      obtain ⟨_, hvalue, hcase⟩ := exists_of_bind hcase
      obtain rfl := Option.some.inj hcase
      exact ⟨required_passes h.expr hkey, required_passes h.expr hvalue⟩
    · cases hcase
  · -- a generator
    obtain ⟨_, -, hcase⟩ := exists_of_bind hcase
    split at hcase
    · obtain ⟨_, -, hcase⟩ := exists_of_bind hcase
      obtain ⟨_, -, hcase⟩ := exists_of_bind hcase
      obtain ⟨_, hiterable, hcase⟩ := exists_of_bind hcase
      obtain ⟨_, hbody, hcase⟩ := exists_of_bind hcase
      obtain rfl := Option.some.inj hcase
      exact ⟨required_passes h.expr hiterable, h.members hbody⟩
    · cases hcase
  · -- a conditional
    obtain ⟨_, -, hcase⟩ := exists_of_bind hcase
    split at hcase
    · obtain ⟨_, hcondition, hcase⟩ := exists_of_bind hcase
      obtain ⟨_, hbody, hcase⟩ := exists_of_bind hcase
      obtain ⟨_, hotherwise, hcase⟩ := exists_of_bind hcase
      obtain rfl := Option.some.inj hcase
      exact ⟨required_passes h.expr hcondition, h.members hbody, h.body hotherwise⟩
    · cases hcase
  · cases hcase

end

theorem passesWithin (inner : Bool) (n : Nat) : PassesWithin readable inner n := by
  induction n generalizing inner with
  | zero => exact ⟨fun _ _ h => by simp [exprWithin] at h, fun _ _ h => by simp [memberWithin] at h⟩
  | succ n ih => exact ⟨fun _ _ h => (ih true).expr_succ h, fun _ _ h => (ih true).member_succ h⟩

theorem passes_of_expr? (v : Json) (e : Expr) (h : expr? v = some e) : e.Passes readable :=
  (passesWithin false (nesting v)).expr v e h

theorem passes_of_member? (v : Json) (m : Member) (h : member? v = some m) :
    m.Passes readable :=
  (passesWithin false (nesting v)).member v m h

theorem receiverPasses_of_optional {field : Option Json} {e? : Option Expr}
    (h : Json.optional expr? field = some e?) : ReceiverPasses readable e? :=
  receiverPasses_iff.mpr (optional_passes passes_of_expr? h)

theorem bodyPasses_of_optional {field : Option Json} {b? : Option (List Member)}
    (h : Json.optional (Json.list? member?) field = some b?) : BodyPasses readable b? :=
  bodyPasses_iff.mpr (optional_passes
    (fun _ _ hlist => membersPass_iff.mpr (list?_passes passes_of_member? hlist)) h)

/-! ## Declarations -/

theorem onPlace_of_import? (v : Json) (i : Import) (h : import? v = some i) :
    readable.OnPlace i.span := by
  obtain ⟨_, -, h⟩ := exists_of_bind h
  split at h
  · obtain ⟨_, -, h⟩ := exists_of_bind h
    obtain ⟨_, -, h⟩ := exists_of_bind h
    obtain ⟨_, -, h⟩ := exists_of_bind h
    obtain ⟨_, hspan, h⟩ := exists_of_bind h
    obtain rfl := Option.some.inj h
    exact onPlace_of_optional hspan
  · cases h

theorem passes_of_property? (v : Json) (p : Property) (h : property? v = some p) :
    p.Passes readable := by
  obtain ⟨_, -, h⟩ := exists_of_bind h
  split at h
  · obtain ⟨_, -, h⟩ := exists_of_bind h
    obtain ⟨_, htype, h⟩ := exists_of_bind h
    obtain ⟨_, -, h⟩ := exists_of_bind h
    obtain ⟨_, hvalue, h⟩ := exists_of_bind h
    obtain ⟨_, hbody, h⟩ := exists_of_bind h
    obtain ⟨_, hspan, h⟩ := exists_of_bind h
    obtain rfl := Option.some.inj h
    exact ⟨onType_of_optional htype, receiverPasses_of_optional hvalue,
      bodyPasses_of_optional hbody, onPlace_of_optional hspan⟩
  · cases h

theorem passes_of_method? (v : Json) (m : Method) (h : method? v = some m) :
    m.Passes readable := by
  obtain ⟨_, -, h⟩ := exists_of_bind h
  split at h
  · obtain ⟨_, -, h⟩ := exists_of_bind h
    obtain ⟨_, -, h⟩ := exists_of_bind h
    obtain ⟨_, hparams, h⟩ := exists_of_bind h
    obtain ⟨_, hreturns, h⟩ := exists_of_bind h
    obtain ⟨_, -, h⟩ := exists_of_bind h
    obtain ⟨_, hbody, h⟩ := exists_of_bind h
    obtain ⟨_, hspan, h⟩ := exists_of_bind h
    obtain rfl := Option.some.inj h
    exact ⟨onBindings_of_list hparams, onType_of_optional hreturns,
      receiverPasses_of_optional hbody, onPlace_of_optional hspan⟩
  · cases h

theorem passes_of_class? (v : Json) (c : Class) (h : class? v = some c) :
    c.Passes readable := by
  obtain ⟨_, -, h⟩ := exists_of_bind h
  split at h
  · obtain ⟨_, -, h⟩ := exists_of_bind h
    obtain ⟨_, -, h⟩ := exists_of_bind h
    obtain ⟨_, hsuper, h⟩ := exists_of_bind h
    obtain ⟨_, -, h⟩ := exists_of_bind h
    obtain ⟨_, hproperties, h⟩ := exists_of_bind h
    obtain ⟨_, hmethods, h⟩ := exists_of_bind h
    obtain ⟨_, hspan, h⟩ := exists_of_bind h
    obtain rfl := Option.some.inj h
    exact ⟨onType_of_optional hsuper, defaulting_list?_passes passes_of_property? hproperties,
      defaulting_list?_passes passes_of_method? hmethods, onPlace_of_optional hspan⟩
  · cases h

theorem passes_of_alias? (v : Json) (a : Alias) (h : alias? v = some a) :
    a.Passes readable := by
  obtain ⟨_, -, h⟩ := exists_of_bind h
  split at h
  · obtain ⟨_, -, h⟩ := exists_of_bind h
    obtain ⟨_, -, h⟩ := exists_of_bind h
    obtain ⟨_, htarget, h⟩ := exists_of_bind h
    obtain ⟨_, -, h⟩ := exists_of_bind h
    obtain ⟨_, hspan, h⟩ := exists_of_bind h
    obtain rfl := Option.some.inj h
    exact ⟨required_passes legible_of_typeExpr? htarget, onPlace_of_optional hspan⟩
  · cases h

/-- The leaves of every description that is accepted are readable. -/
theorem passes_of_ofJson? (v : Json) (m : Module) (h : Module.ofJson? v = some m) :
    m.Passes readable := by
  obtain ⟨_, -, h⟩ := exists_of_bind h
  split at h
  · obtain ⟨_, -, h⟩ := exists_of_bind h
    obtain ⟨_, -, h⟩ := exists_of_bind h
    obtain ⟨_, -, h⟩ := exists_of_bind h
    obtain ⟨_, -, h⟩ := exists_of_bind h
    obtain ⟨_, -, h⟩ := exists_of_bind h
    obtain ⟨_, himports, h⟩ := exists_of_bind h
    obtain ⟨_, hclasses, h⟩ := exists_of_bind h
    obtain ⟨_, haliases, h⟩ := exists_of_bind h
    obtain ⟨_, hproperties, h⟩ := exists_of_bind h
    obtain ⟨_, hmethods, h⟩ := exists_of_bind h
    obtain rfl := Option.some.inj h
    exact ⟨defaulting_list?_passes onPlace_of_import? himports,
      defaulting_list?_passes passes_of_class? hclasses,
      defaulting_list?_passes passes_of_alias? haliases,
      defaulting_list?_passes passes_of_property? hproperties,
      defaulting_list?_passes passes_of_method? hmethods⟩
  · cases h

end PklAnalysis.Source
