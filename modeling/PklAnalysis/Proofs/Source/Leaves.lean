import Mathlib.Tactic.MkIffOfInductiveProp
import PklAnalysis.Source.Basic

/-!
# The leaves of a description

A description is a tree of declarations, members and expressions.  What can keep it from coming
back from its JSON form sits in three kinds of leaves: annotations, integers and places.  A test
of these leaves is stated once and carried to whole descriptions.
-/

namespace PklAnalysis.Source

/-- A test of the leaves of a description. -/
structure LeafTest where
  annotation : TypeExpr → Prop
  integer : Int → Prop
  place : Span → Prop

namespace LeafTest

variable (t : LeafTest)

def OnType (type : Option TypeExpr) : Prop := ∀ a, type = some a → t.annotation a

def OnPlace (span : Option Span) : Prop := ∀ s, span = some s → t.place s

def OnBindings (bs : List Binding) : Prop := ∀ b ∈ bs, t.OnType b.type

end LeafTest

mutual

/-- Every leaf of an expression passes a test. -/
def Expr.Passes (t : LeafTest) : Expr → Prop
  | .string _ | .float _ | .boolean _ | .null | .ident _ | .this | .module | .importExpr _ _ =>
    True
  | .int value => t.integer value
  | .access receiver _ _ => receiver.Passes t
  | .call receiver _ args => ReceiverPasses t receiver ∧ ExprsPass t args
  | .letIn _ type value body => t.OnType type ∧ value.Passes t ∧ body.Passes t
  | .lambda params body => t.OnBindings params ∧ body.Passes t
  | .new type body => t.OnType type ∧ MembersPass t body
  | .amend parent body => parent.Passes t ∧ MembersPass t body
  | .conditional condition consequent alternative =>
    condition.Passes t ∧ consequent.Passes t ∧ alternative.Passes t

def ReceiverPasses (t : LeafTest) : Option Expr → Prop
  | none => True
  | some e => e.Passes t

def ExprsPass (t : LeafTest) : List Expr → Prop
  | [] => True
  | e :: es => e.Passes t ∧ ExprsPass t es

/-- Every leaf of an object member passes a test. -/
def Member.Passes (t : LeafTest) : Member → Prop
  | .property _ type value body => t.OnType type ∧ ReceiverPasses t value ∧ BodyPasses t body
  | .element value => value.Passes t
  | .entry key value => key.Passes t ∧ value.Passes t
  | .generator _ _ iterable body => iterable.Passes t ∧ MembersPass t body
  | .when condition body otherwise =>
    condition.Passes t ∧ MembersPass t body ∧ BodyPasses t otherwise

def BodyPasses (t : LeafTest) : Option (List Member) → Prop
  | none => True
  | some ms => MembersPass t ms

def MembersPass (t : LeafTest) : List Member → Prop
  | [] => True
  | m :: ms => m.Passes t ∧ MembersPass t ms

end

@[mk_iff]
structure Property.Passes (t : LeafTest) (p : Property) : Prop where
  type : t.OnType p.type
  value : ReceiverPasses t p.value
  body : BodyPasses t p.body
  span : t.OnPlace p.span

@[mk_iff]
structure Method.Passes (t : LeafTest) (m : Method) : Prop where
  params : t.OnBindings m.params
  returns : t.OnType m.returns
  body : ReceiverPasses t m.body
  span : t.OnPlace m.span

@[mk_iff]
structure Class.Passes (t : LeafTest) (c : Class) : Prop where
  superclass : t.OnType c.superclass
  properties : ∀ p ∈ c.properties, p.Passes t
  methods : ∀ m ∈ c.methods, m.Passes t
  span : t.OnPlace c.span

@[mk_iff]
structure Alias.Passes (t : LeafTest) (a : Alias) : Prop where
  target : t.annotation a.target
  span : t.OnPlace a.span

/-- Every leaf of a description passes a test. -/
@[mk_iff]
structure Module.Passes (t : LeafTest) (m : Module) : Prop where
  imports : ∀ i ∈ m.imports, t.OnPlace i.span
  classes : ∀ c ∈ m.classes, c.Passes t
  aliases : ∀ a ∈ m.aliases, a.Passes t
  properties : ∀ p ∈ m.properties, p.Passes t
  methods : ∀ f ∈ m.methods, f.Passes t

/-! ## Combining tests -/

/-- A leaf that passes two tests passes a third one. -/
structure LeafTest.Entail (t u w : LeafTest) : Prop where
  annotation : ∀ a, t.annotation a → u.annotation a → w.annotation a
  integer : ∀ i, t.integer i → u.integer i → w.integer i
  place : ∀ s, t.place s → u.place s → w.place s

section

variable {t u w : LeafTest} (h : t.Entail u w)

include h

theorem LeafTest.Entail.onType {type : Option TypeExpr} (ht : t.OnType type)
    (hu : u.OnType type) : w.OnType type :=
  fun a ha => h.annotation a (ht a ha) (hu a ha)

theorem LeafTest.Entail.onPlace {span : Option Span} (ht : t.OnPlace span)
    (hu : u.OnPlace span) : w.OnPlace span :=
  fun s hs => h.place s (ht s hs) (hu s hs)

theorem LeafTest.Entail.onBindings {bs : List Binding} (ht : t.OnBindings bs)
    (hu : u.OnBindings bs) : w.OnBindings bs :=
  fun b hb => h.onType (ht b hb) (hu b hb)

-- four of the functions below use `h` in their calls of the others only
set_option linter.unusedSectionVars false in
mutual

theorem LeafTest.Entail.expr : ∀ e : Expr, e.Passes t → e.Passes u → e.Passes w
  | .string _, _, _ | .float _, _, _ | .boolean _, _, _ | .null, _, _ | .ident _, _, _
  | .this, _, _ | .module, _, _ | .importExpr _ _, _, _ => trivial
  | .int value, ht, hu => h.integer value ht hu
  | .access receiver _ _, ht, hu => LeafTest.Entail.expr receiver ht hu
  | .call receiver _ args, ht, hu =>
    ⟨LeafTest.Entail.receiver receiver ht.1 hu.1, LeafTest.Entail.exprs args ht.2 hu.2⟩
  | .letIn _ _ value body, ht, hu =>
    ⟨h.onType ht.1 hu.1, LeafTest.Entail.expr value ht.2.1 hu.2.1,
      LeafTest.Entail.expr body ht.2.2 hu.2.2⟩
  | .lambda _ body, ht, hu => ⟨h.onBindings ht.1 hu.1, LeafTest.Entail.expr body ht.2 hu.2⟩
  | .new _ body, ht, hu => ⟨h.onType ht.1 hu.1, LeafTest.Entail.members body ht.2 hu.2⟩
  | .amend parent body, ht, hu =>
    ⟨LeafTest.Entail.expr parent ht.1 hu.1, LeafTest.Entail.members body ht.2 hu.2⟩
  | .conditional a b c, ht, hu =>
    ⟨LeafTest.Entail.expr a ht.1 hu.1, LeafTest.Entail.expr b ht.2.1 hu.2.1,
      LeafTest.Entail.expr c ht.2.2 hu.2.2⟩

theorem LeafTest.Entail.receiver : ∀ e : Option Expr,
    ReceiverPasses t e → ReceiverPasses u e → ReceiverPasses w e
  | none, _, _ => trivial
  | some e, ht, hu => LeafTest.Entail.expr e ht hu

theorem LeafTest.Entail.exprs : ∀ es : List Expr, ExprsPass t es → ExprsPass u es → ExprsPass w es
  | [], _, _ => trivial
  | e :: es, ht, hu => ⟨LeafTest.Entail.expr e ht.1 hu.1, LeafTest.Entail.exprs es ht.2 hu.2⟩

theorem LeafTest.Entail.member : ∀ m : Member, m.Passes t → m.Passes u → m.Passes w
  | .property _ _ value body, ht, hu =>
    ⟨h.onType ht.1 hu.1, LeafTest.Entail.receiver value ht.2.1 hu.2.1,
      LeafTest.Entail.body body ht.2.2 hu.2.2⟩
  | .element value, ht, hu => LeafTest.Entail.expr value ht hu
  | .entry key value, ht, hu =>
    ⟨LeafTest.Entail.expr key ht.1 hu.1, LeafTest.Entail.expr value ht.2 hu.2⟩
  | .generator _ _ iterable body, ht, hu =>
    ⟨LeafTest.Entail.expr iterable ht.1 hu.1, LeafTest.Entail.members body ht.2 hu.2⟩
  | .when condition body otherwise, ht, hu =>
    ⟨LeafTest.Entail.expr condition ht.1 hu.1, LeafTest.Entail.members body ht.2.1 hu.2.1,
      LeafTest.Entail.body otherwise ht.2.2 hu.2.2⟩

theorem LeafTest.Entail.body : ∀ b : Option (List Member),
    BodyPasses t b → BodyPasses u b → BodyPasses w b
  | none, _, _ => trivial
  | some ms, ht, hu => LeafTest.Entail.members ms ht hu

theorem LeafTest.Entail.members : ∀ ms : List Member,
    MembersPass t ms → MembersPass u ms → MembersPass w ms
  | [], _, _ => trivial
  | m :: ms, ht, hu => ⟨LeafTest.Entail.member m ht.1 hu.1, LeafTest.Entail.members ms ht.2 hu.2⟩

end

theorem LeafTest.Entail.property {p : Property} (ht : p.Passes t) (hu : p.Passes u) :
    p.Passes w where
  type := h.onType ht.type hu.type
  value := h.receiver p.value ht.value hu.value
  body := h.body p.body ht.body hu.body
  span := h.onPlace ht.span hu.span

theorem LeafTest.Entail.method {m : Method} (ht : m.Passes t) (hu : m.Passes u) : m.Passes w where
  params := h.onBindings ht.params hu.params
  returns := h.onType ht.returns hu.returns
  body := h.receiver m.body ht.body hu.body
  span := h.onPlace ht.span hu.span

theorem LeafTest.Entail.class {c : Class} (ht : c.Passes t) (hu : c.Passes u) : c.Passes w where
  superclass := h.onType ht.superclass hu.superclass
  properties := fun p hp => h.property (ht.properties p hp) (hu.properties p hp)
  methods := fun m hm => h.method (ht.methods m hm) (hu.methods m hm)
  span := h.onPlace ht.span hu.span

theorem LeafTest.Entail.alias {a : Alias} (ht : a.Passes t) (hu : a.Passes u) : a.Passes w where
  target := h.annotation a.target ht.target hu.target
  span := h.onPlace ht.span hu.span

theorem LeafTest.Entail.module {m : Module} (ht : m.Passes t) (hu : m.Passes u) :
    m.Passes w where
  imports := fun i hi => h.onPlace (ht.imports i hi) (hu.imports i hi)
  classes := fun c hc => h.class (ht.classes c hc) (hu.classes c hc)
  aliases := fun a ha => h.alias (ht.aliases a ha) (hu.aliases a ha)
  properties := fun p hp => h.property (ht.properties p hp) (hu.properties p hp)
  methods := fun f hf => h.method (ht.methods f hf) (hu.methods f hf)

end

end PklAnalysis.Source
