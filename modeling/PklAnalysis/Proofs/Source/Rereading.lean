import Mathlib.Tactic.Simproc.ExistsAndEq
import PklAnalysis.Proofs.Source.Accepted
import PklAnalysis.Proofs.TypeExpr.Misreading

/-!
# Reading the JSON form of a description back

Every field of every declaration, member and expression is written and read under the same name,
so whether a description comes back is a matter of its leaves: of its annotations, which are
written as texts of their own, and of numbers, which must fit 64 bits.
-/

namespace PklAnalysis.Source

open Json (required defaulting)

/-- The leaves that are read back from what is written for them. -/
def rereadable : LeafTest where
  annotation := fun a => TypeExpr.parse a.text = .ok a
  integer := readable.integer
  place := readable.place

/-! ## Records and lists -/

theorem onlyField_append {name : String} {v : Json} {before after : List (String × Json)}
    (hbefore : ∀ f ∈ before, f.1 ≠ name) (hafter : ∀ f ∈ after, f.1 ≠ name) :
    Json.onlyField name (before ++ (name, v) :: after) = some (some v) := by
  have hb : before.filter (fun f => f.1 = name) = [] := by
    simpa [List.filter_eq_nil_iff] using hbefore
  have ha : after.filter (fun f => f.1 = name) = [] := by
    simpa [List.filter_eq_nil_iff] using hafter
  simp [Json.onlyField, List.filter_append, hb, ha]

/-- The fields of a record, written in their order, are read in that order. -/
theorem record?_obj {names : List String} {fields : List (String × Json)} (nodup : names.Nodup)
    (hnames : fields.map Prod.fst = names) :
    Json.record? names (.obj fields) = some (fields.map fun f => some f.2) := by
  -- the fields that were passed already stay in the object, under other names
  have hsuffix : ∀ (after before : List (String × Json)), (after.map Prod.fst).Nodup →
      (∀ f ∈ before, f.1 ∉ after.map Prod.fst) →
      ((after.map Prod.fst).mapM fun name => Json.onlyField name (before ++ after)) =
        some (after.map fun f => some f.2) := by
    intro after
    induction after with
    | nil => intro before _ _; rfl
    | cons f after ih =>
      intro before hnodup hbefore
      obtain ⟨hf, hafter⟩ := List.nodup_cons.mp hnodup
      have hfield : Json.onlyField f.1 (before ++ f :: after) = some (some f.2) :=
        onlyField_append (fun g hg heq => hbefore g hg (by simp [heq]))
          (fun g hg heq => hf (heq ▸ List.mem_map_of_mem hg))
      have hrest := ih (before ++ [f]) hafter (by
        intro g hg
        rcases List.mem_append.mp hg with hg | hg
        · exact fun hmem => hbefore g hg (List.mem_cons_of_mem _ hmem)
        · obtain rfl := List.mem_singleton.mp hg
          exact hf)
      simp only [List.append_assoc, List.singleton_append] at hrest
      simp only [List.map_cons, List.mapM_cons, hfield, hrest]
      rfl
  subst hnames
  exact hsuffix fields [] nodup (by simp)

theorem tagged?_obj {t : Json} {fields : List (String × Json)}
    (valid : (Json.obj (("kind", t) :: fields)).isValid = true)
    (other : ∀ f ∈ fields, f.1 ≠ "kind") :
    (Json.obj (("kind", t) :: fields)).tagged? "kind" = some (t, .obj fields) := by
  have hfield : Json.onlyField "kind" (("kind", t) :: fields) = some (some t) :=
    onlyField_append (List.forall_mem_nil _) other
  have hrest : fields.filter (fun f => decide (f.1 ≠ "kind")) = fields := by
    simpa [List.filter_eq_self] using other
  simp only [Json.tagged?, valid, hfield, List.filter_cons, hrest]
  rfl

theorem required_some {α : Type} {read : Json → Option α} {v : Json} :
    required read (some v) = read v :=
  rfl

theorem defaulting_some {α : Type} {read : Json → Option α} {absent : α} {v : Json} :
    defaulting read absent (some v) = read v :=
  rfl

theorem optional_of_ne_null {α : Type} {read : Json → Option α} {v : Json} (h : v ≠ .null) :
    Json.optional read (some v) = (read v).map some := by
  cases v with
  | null => exact absurd rfl h
  | _ => rfl

theorem list?_cons_iff {α : Type} {read : Json → Option α} {v : Json} {vs : List Json} {a : α}
    {as : List α} :
    Json.list? read (.arr (v :: vs)) = some (a :: as) ↔
      read v = some a ∧ Json.list? read (.arr vs) = some as := by
  simp only [Json.list?, List.mapM_cons, Option.bind_eq_bind, Option.bind_eq_some_iff,
    Option.pure_def, Option.some.injEq, List.cons.injEq]
  constructor
  · rintro ⟨_, hv, _, hvs, rfl, rfl⟩
    exact ⟨hv, hvs⟩
  · rintro ⟨hv, hvs⟩
    exact ⟨a, hv, as, hvs, rfl, rfl⟩

section

variable {α : Type} {read : Json → Option α} {write : α → Json} {P : α → Prop}
  (h : ∀ a, read (write a) = some a ↔ P a)

include h

theorem list?_map_iff (as : List α) :
    Json.list? read (.arr (as.map write)) = some as ↔ ∀ a ∈ as, P a := by
  induction as with
  | nil => simp [Json.list?]
  | cons a as ih => rw [List.map_cons, list?_cons_iff, List.forall_mem_cons, ih, h a]

theorem optional_orNull_iff (hnull : ∀ a, write a ≠ .null) (a? : Option α) :
    Json.optional read (some (Json.orNull write a?)) = some a? ↔ ∀ a, a? = some a → P a := by
  cases a? with
  | none => simp [Json.orNull, Json.optional]
  | some a => simp [Json.orNull, optional_of_ne_null (hnull a), h]

end

/-! ## Leaves -/

theorem typeExpr?_typeExprJson_iff (a : TypeExpr) :
    typeExpr? (typeExprJson a) = some a ↔ rereadable.annotation a := by
  show (TypeExpr.parse a.text).toOption = some a ↔ _
  cases hparse : TypeExpr.parse a.text with
  | error e => simp [Except.toOption, rereadable, hparse]
  | ok b => simp [Except.toOption, rereadable, hparse]

theorem optional_typeExpr?_iff (type : Option TypeExpr) :
    Json.optional typeExpr? (some (Json.orNull typeExprJson type)) = some type ↔
      rereadable.OnType type :=
  optional_orNull_iff typeExpr?_typeExprJson_iff (fun _ => by simp [typeExprJson]) type

theorem optional_string? (name : Option String) :
    Json.optional Json.string? (some (Json.orNull Json.str name)) = some name := by
  cases name <;> rfl

theorem int64?_int_iff (i : Int) : (Json.int i).int64? = some i ↔ rereadable.integer i := by
  simp [Json.int64?, rereadable, readable]

theorem toNat_within_iff {bound : Int} {limit : Nat} (h : bound = limit) (n : Nat) :
    (if 0 ≤ (n : Int) && (n : Int) < bound then some (n : Int).toNat else none) = some n ↔
      n < limit := by
  subst h
  by_cases hn : n < limit <;> simp [hn]

theorem nat64?_ofNat_iff (n : Nat) : (Json.ofNat n).nat64? = some n ↔ n < Nat.pow 2 64 := by
  have hpow : Int.pow 2 64 = ((Nat.pow 2 64 : Nat) : Int) := by decide
  rw [Json.ofNat, Json.nat64?, toNat_within_iff hpow]

/-- A place whose numbers are read in some way.  With the reader of 64 bits in it, its bound, as a
numeral, is unfolded. -/
def spanBy? (number? : Json → Option Nat) (v : Json) : Option Span := do
  let [start, stop] ← v.record? ["start", "end"] | none
  return ⟨← required number? start, ← required number? stop⟩

theorem span?_eq (v : Json) : span? v = spanBy? Json.nat64? v := rfl

theorem spanBy?_spanJson_iff (number? : Json → Option Nat) (start stop : Nat) :
    spanBy? number? (spanJson ⟨start, stop⟩) = some ⟨start, stop⟩ ↔
      number? (.ofNat start) = some start ∧ number? (.ofNat stop) = some stop := by
  have hrecord : Json.record? ["start", "end"] (spanJson ⟨start, stop⟩) =
      some [some (.ofNat start), some (.ofNat stop)] :=
    record?_obj (by decide) rfl
  rw [spanBy?, hrecord]
  simp [required_some, Option.bind_eq_some_iff]

theorem span?_spanJson_iff (s : Span) : span? (spanJson s) = some s ↔ rereadable.place s := by
  rw [span?_eq, spanBy?_spanJson_iff, nat64?_ofNat_iff, nat64?_ofNat_iff]
  rfl

theorem optional_span?_iff (span : Option Span) :
    Json.optional span? (some (Json.orNull spanJson span)) = some span ↔
      rereadable.OnPlace span :=
  optional_orNull_iff span?_spanJson_iff (fun _ => by simp [spanJson]) span

theorem binding?_bindingJson_iff (b : Binding) :
    binding? (bindingJson b) = some b ↔ rereadable.OnType b.type := by
  obtain ⟨name, type⟩ := b
  have hrecord : Json.record? ["name", "type"] (bindingJson ⟨name, type⟩) =
      some [some (.str name), some (Json.orNull typeExprJson type)] :=
    record?_obj (by decide) rfl
  simp [binding?, hrecord, required_some, Option.bind_eq_some_iff, optional_typeExpr?_iff,
    Json.string?]

theorem list?_bindings_iff (bs : List Binding) :
    Json.list? binding? (.arr (bs.map bindingJson)) = some bs ↔ rereadable.OnBindings bs :=
  list?_map_iff binding?_bindingJson_iff bs

theorem modifier?_text (m : Modifier) : modifier? (.str m.text) = some m := by
  cases m <;> rfl

theorem list?_modifiers (ms : List Modifier) : Json.list? modifier? (modifiersJson ms) = some ms :=
  (list?_map_iff (P := fun _ => True) (fun m => by simp [modifier?_text]) ms).mpr (by simp)

theorem typeParam?_typeParamJson (p : TypeParam) : typeParam? (typeParamJson p) = some p := by
  obtain ⟨name, variance⟩ := p
  have hrecord : Json.record? ["name", "variance"] (typeParamJson ⟨name, variance⟩) =
      some [some (.str name), some (.str variance.text)] :=
    record?_obj (by decide) rfl
  have hvariance : variance? (.str variance.text) = some variance := by cases variance <;> rfl
  simp [typeParam?, hrecord, required_some, defaulting_some, Json.string?, hvariance]

theorem list?_typeParams (ps : List TypeParam) :
    Json.list? typeParam? (.arr (ps.map typeParamJson)) = some ps :=
  (list?_map_iff (P := fun _ => True) (fun p => by simp [typeParam?_typeParamJson]) ps).mpr
    (by simp)

/-! ## Expressions and members -/

theorem isValid_orNull {α : Type} {write : α → Json} (h : ∀ a, (write a).isValid = true)
    (a? : Option α) : (Json.orNull write a?).isValid = true := by
  cases a? with
  | none => rfl
  | some a => exact h a

theorem isValid_typeJson (type : Option TypeExpr) :
    (Json.orNull typeExprJson type).isValid = true :=
  isValid_orNull (fun _ => rfl) type

theorem isValid_nameJson (name : Option String) : (Json.orNull Json.str name).isValid = true :=
  isValid_orNull (fun _ => rfl) name

theorem allValid_bindings (bs : List Binding) :
    Json.isValid.allValid (bs.map bindingJson) = true := by
  induction bs with
  | nil => rfl
  | cons b bs ih =>
    simp [bindingJson, Json.isValid, Json.isValid.allValid, Json.isValid.allFieldsValid, ih,
      isValid_typeJson]

mutual

theorem isValid_exprJson (e : Expr) : (exprJson e).isValid = true := by
  cases e <;>
    simp [exprJson, Json.isValid, Json.isValid.allFieldsValid, isValid_exprJson,
      isValid_receiverJson, allValid_exprsJson, allValid_membersJson, allValid_bindings,
      isValid_typeJson]
termination_by structural e

theorem isValid_receiverJson (e : Option Expr) : (receiverJson e).isValid = true := by
  cases e <;> simp [receiverJson, Json.isValid, isValid_exprJson]
termination_by structural e

theorem allValid_exprsJson (es : List Expr) : Json.isValid.allValid (exprsJson es) = true := by
  cases es <;> simp [exprsJson, Json.isValid.allValid, isValid_exprJson, allValid_exprsJson]
termination_by structural es

theorem isValid_memberJson (m : Member) : (memberJson m).isValid = true := by
  cases m <;>
    simp [memberJson, Json.isValid, Json.isValid.allFieldsValid, isValid_exprJson,
      isValid_receiverJson, isValid_bodyJson, allValid_membersJson, isValid_typeJson,
      isValid_nameJson]
termination_by structural m

theorem isValid_bodyJson (b : Option (List Member)) : (bodyJson b).isValid = true := by
  cases b <;> simp [bodyJson, Json.isValid, allValid_membersJson]
termination_by structural b

theorem allValid_membersJson (ms : List Member) :
    Json.isValid.allValid (membersJson ms) = true := by
  cases ms <;>
    simp [membersJson, Json.isValid.allValid, isValid_memberJson, allValid_membersJson]
termination_by structural ms

end

theorem one_le_nesting (v : Json) : 1 ≤ nesting v := by
  cases v <;> simp [nesting]

theorem exprJson_ne_null (e : Expr) : exprJson e ≠ .null := by
  cases e <;> simp [exprJson]

mutual

theorem exprWithin_exprJson_iff (e : Expr) (inner : Bool) (n : Nat)
    (hn : nesting (exprJson e) ≤ n) :
    exprWithin inner n (exprJson e) = some e ↔ e.Passes rereadable := by
  cases n with
  | zero => exact absurd (Nat.le_trans (one_le_nesting _) hn) (by decide)
  | succ n =>
    have valid := isValid_exprJson e
    cases e <;>
      (rw [exprJson] at valid hn ⊢
       rw [exprWithin, tagged?_obj valid (by simp)]
       simp only [kind?, Option.bind_eq_bind, Option.bind_some]
       simp only [nesting, nesting.nestingOfFields, Nat.add_le_add_iff_right, Nat.max_le] at hn
       simp [Json.record?, Json.onlyField, required_some, defaulting_some, Json.string?, Json.bool?,
         Json.float?, Option.bind_eq_some_iff, hn, exprWithin_exprJson_iff,
         receiver_iff, exprs_iff, members_iff, Expr.Passes, int64?_int_iff,
         optional_typeExpr?_iff, list?_bindings_iff, Json.isUnit])
termination_by structural e

theorem receiver_iff (e? : Option Expr) (n : Nat) (hn : nesting (receiverJson e?) ≤ n) :
    Json.optional (exprWithin true n) (some (receiverJson e?)) = some e? ↔
      ReceiverPasses rereadable e? := by
  cases e? with
  | none => simp [receiverJson, Json.optional, ReceiverPasses]
  | some e =>
    rw [receiverJson] at hn ⊢
    simp [optional_of_ne_null (exprJson_ne_null e), ReceiverPasses, exprWithin_exprJson_iff, hn]
termination_by structural e?

theorem exprs_iff (es : List Expr) (n : Nat)
    (hn : nesting.nestingOfItems (exprsJson es) + 1 ≤ n) :
    Json.list? (exprWithin true n) (.arr (exprsJson es)) = some es ↔
      ExprsPass rereadable es := by
  cases es with
  | nil => simp [Json.list?, exprsJson, ExprsPass]
  | cons e es =>
    rw [exprsJson] at hn ⊢
    simp only [nesting.nestingOfItems] at hn
    rw [list?_cons_iff, exprWithin_exprJson_iff e true n (by omega), exprs_iff es n (by omega)]
    rfl
termination_by structural es

theorem memberWithin_memberJson_iff (m : Member) (inner : Bool) (n : Nat)
    (hn : nesting (memberJson m) ≤ n) :
    memberWithin inner n (memberJson m) = some m ↔ m.Passes rereadable := by
  cases n with
  | zero => exact absurd (Nat.le_trans (one_le_nesting _) hn) (by decide)
  | succ n =>
    have valid := isValid_memberJson m
    cases m <;>
      (rw [memberJson] at valid hn ⊢
       rw [memberWithin, tagged?_obj valid (by simp)]
       simp only [kind?, Option.bind_eq_bind, Option.bind_some]
       simp only [nesting, nesting.nestingOfFields, Nat.add_le_add_iff_right, Nat.max_le] at hn
       simp [Json.record?, Json.onlyField, required_some, defaulting_some, Json.string?,
         Option.bind_eq_some_iff, hn, exprWithin_exprJson_iff,
         receiver_iff, body_iff, members_iff, Member.Passes, optional_typeExpr?_iff,
         optional_string?])
termination_by structural m

theorem body_iff (b? : Option (List Member)) (n : Nat) (hn : nesting (bodyJson b?) ≤ n) :
    Json.optional (Json.list? (memberWithin true n)) (some (bodyJson b?)) = some b? ↔
      BodyPasses rereadable b? := by
  cases b? with
  | none => simp [bodyJson, Json.optional, BodyPasses]
  | some ms =>
    rw [bodyJson] at hn ⊢
    have hlist := members_iff ms n (by simpa only [nesting] using hn)
    rw [optional_of_ne_null (by simp)]
    simp [hlist, BodyPasses]
termination_by structural b?

theorem members_iff (ms : List Member) (n : Nat)
    (hn : nesting.nestingOfItems (membersJson ms) + 1 ≤ n) :
    Json.list? (memberWithin true n) (.arr (membersJson ms)) = some ms ↔
      MembersPass rereadable ms := by
  cases ms with
  | nil => simp [Json.list?, membersJson, MembersPass]
  | cons m ms =>
    rw [membersJson] at hn ⊢
    simp only [nesting.nestingOfItems] at hn
    rw [list?_cons_iff, memberWithin_memberJson_iff m true n (by omega),
      members_iff ms n (by omega)]
    rfl
termination_by structural ms

end

theorem expr?_exprJson_iff (e : Expr) : expr? (exprJson e) = some e ↔ e.Passes rereadable :=
  exprWithin_exprJson_iff e false _ (Nat.le_refl _)

theorem member?_memberJson_iff (m : Member) :
    member? (memberJson m) = some m ↔ m.Passes rereadable :=
  memberWithin_memberJson_iff m false _ (Nat.le_refl _)

theorem optional_expr?_iff (e? : Option Expr) :
    Json.optional expr? (some (receiverJson e?)) = some e? ↔ ReceiverPasses rereadable e? := by
  cases e? with
  | none => simp [receiverJson, Json.optional, ReceiverPasses]
  | some e =>
    simp [receiverJson, optional_of_ne_null (exprJson_ne_null e), ReceiverPasses,
      expr?_exprJson_iff]

theorem list?_members_iff (ms : List Member) :
    Json.list? member? (.arr (membersJson ms)) = some ms ↔ MembersPass rereadable ms := by
  induction ms with
  | nil => simp [Json.list?, membersJson, MembersPass]
  | cons m ms ih => rw [membersJson, list?_cons_iff, member?_memberJson_iff, ih, MembersPass]

theorem optional_body?_iff (b? : Option (List Member)) :
    Json.optional (Json.list? member?) (some (bodyJson b?)) = some b? ↔
      BodyPasses rereadable b? := by
  cases b? with
  | none => simp [bodyJson, Json.optional, BodyPasses]
  | some ms =>
    rw [bodyJson, optional_of_ne_null (by simp)]
    simp [list?_members_iff, BodyPasses]

/-! ## Declarations -/

theorem import?_importJson_iff (i : Import) : import? (importJson i) = some i ↔
    rereadable.OnPlace i.span := by
  obtain ⟨uri, asName, glob, span⟩ := i
  have hrecord : Json.record? ["uri", "alias", "glob", "span"]
      (importJson ⟨uri, asName, glob, span⟩) =
        some [some (.str uri), some (Json.orNull .str asName), some (.bool glob),
          some (Json.orNull spanJson span)] :=
    record?_obj (by decide) rfl
  simp [import?, hrecord, required_some, defaulting_some, Json.string?, Json.bool?,
    Option.bind_eq_some_iff, optional_string?, optional_span?_iff]

theorem property?_propertyJson_iff (p : Property) :
    property? (propertyJson p) = some p ↔ p.Passes rereadable := by
  obtain ⟨name, type, modifiers, value, body, span⟩ := p
  have hrecord : Json.record? ["name", "type", "modifiers", "value", "body", "span"]
      (propertyJson ⟨name, type, modifiers, value, body, span⟩) =
        some [some (.str name), some (Json.orNull typeExprJson type),
          some (modifiersJson modifiers), some (receiverJson value), some (bodyJson body),
          some (Json.orNull spanJson span)] :=
    record?_obj (by decide) rfl
  simp [property?, hrecord, required_some, defaulting_some, Json.string?,
    Option.bind_eq_some_iff, list?_modifiers, optional_typeExpr?_iff, optional_expr?_iff,
    optional_body?_iff, optional_span?_iff, Property.passes_iff]

theorem method?_methodJson_iff (m : Method) :
    method? (methodJson m) = some m ↔ m.Passes rereadable := by
  obtain ⟨name, typeParams, params, returns, modifiers, body, span⟩ := m
  have hrecord : Json.record?
      ["name", "type_params", "params", "returns", "modifiers", "body", "span"]
      (methodJson ⟨name, typeParams, params, returns, modifiers, body, span⟩) =
        some [some (.str name), some (.arr (typeParams.map typeParamJson)),
          some (.arr (params.map bindingJson)), some (Json.orNull typeExprJson returns),
          some (modifiersJson modifiers), some (receiverJson body),
          some (Json.orNull spanJson span)] :=
    record?_obj (by decide) rfl
  simp [method?, hrecord, required_some, defaulting_some, Json.string?,
    Option.bind_eq_some_iff, list?_modifiers, list?_typeParams, list?_bindings_iff,
    optional_typeExpr?_iff, optional_expr?_iff, optional_span?_iff, Method.passes_iff]

theorem class?_classJson_iff (c : Class) :
    class? (classJson c) = some c ↔ c.Passes rereadable := by
  obtain ⟨name, typeParams, superclass, modifiers, properties, methods, span⟩ := c
  have hrecord : Json.record?
      ["name", "type_params", "extends", "modifiers", "properties", "methods", "span"]
      (classJson ⟨name, typeParams, superclass, modifiers, properties, methods, span⟩) =
        some [some (.str name), some (.arr (typeParams.map typeParamJson)),
          some (Json.orNull typeExprJson superclass), some (modifiersJson modifiers),
          some (.arr (properties.map propertyJson)), some (.arr (methods.map methodJson)),
          some (Json.orNull spanJson span)] :=
    record?_obj (by decide) rfl
  simp [class?, hrecord, required_some, defaulting_some, Json.string?,
    Option.bind_eq_some_iff, list?_modifiers, list?_typeParams, optional_typeExpr?_iff,
    list?_map_iff property?_propertyJson_iff, list?_map_iff method?_methodJson_iff,
    optional_span?_iff, Class.passes_iff]

theorem alias?_aliasJson_iff (a : Alias) :
    alias? (aliasJson a) = some a ↔ a.Passes rereadable := by
  obtain ⟨name, typeParams, target, modifiers, span⟩ := a
  have hrecord : Json.record? ["name", "type_params", "target", "modifiers", "span"]
      (aliasJson ⟨name, typeParams, target, modifiers, span⟩) =
        some [some (.str name), some (.arr (typeParams.map typeParamJson)),
          some (typeExprJson target), some (modifiersJson modifiers),
          some (Json.orNull spanJson span)] :=
    record?_obj (by decide) rfl
  simp [alias?, hrecord, required_some, defaulting_some, Json.string?,
    Option.bind_eq_some_iff, list?_modifiers, list?_typeParams, typeExpr?_typeExprJson_iff,
    optional_span?_iff, Alias.passes_iff]

theorem Module.ofJson?_toJson_iff (m : Module) :
    Module.ofJson? m.toJson = some m ↔ m.Passes rereadable := by
  obtain ⟨uri, name, isOpen, amends, superModule, imports, classes, aliases, properties,
    methods⟩ := m
  have hrecord : Json.record?
      ["uri", "name", "open", "amends", "extends", "imports", "classes", "typealiases",
        "properties", "methods"]
      (Module.toJson ⟨uri, name, isOpen, amends, superModule, imports, classes, aliases,
        properties, methods⟩) =
        some [some (.str uri), some (Json.orNull .str name), some (.bool isOpen),
          some (Json.orNull .str amends), some (Json.orNull .str superModule),
          some (.arr (imports.map importJson)), some (.arr (classes.map classJson)),
          some (.arr (aliases.map aliasJson)), some (.arr (properties.map propertyJson)),
          some (.arr (methods.map methodJson))] :=
    record?_obj (by decide) rfl
  simp [Module.ofJson?, hrecord, defaulting_some, Json.string?, Json.bool?,
    Option.bind_eq_some_iff, optional_string?, list?_map_iff import?_importJson_iff,
    list?_map_iff class?_classJson_iff, list?_map_iff alias?_aliasJson_iff,
    list?_map_iff property?_propertyJson_iff, list?_map_iff method?_methodJson_iff,
    Module.passes_iff]

/-! ## Accepted descriptions -/

/-- What keeps an annotation from being read back, as a test of leaves. -/
def plain : LeafTest where
  annotation := fun a => a.isFlat = true ∧ a.isClean = true
  integer := fun _ => True
  place := fun _ => True

theorem Module.Passes.ofJson?_toJson_iff {m : Module} (hreadable : m.Passes readable) :
    Module.ofJson? m.toJson = some m ↔ m.Passes plain := by
  rw [Module.ofJson?_toJson_iff]
  constructor
  · intro hreread
    have hentail : readable.Entail rereadable plain :=
      ⟨fun a legible => (TypeExpr.parse_text_eq_ok_iff legible).mp, fun _ _ _ => trivial,
        fun _ _ _ => trivial⟩
    exact hentail.module hreadable hreread
  · intro hplain
    have hentail : readable.Entail plain rereadable :=
      ⟨fun a legible => (TypeExpr.parse_text_eq_ok_iff legible).mpr, fun _ hfits _ => hfits,
        fun _ hfits _ => hfits⟩
    exact hentail.module hreadable hplain

/-- A text that was read as a description is written as one that is read as that description
exactly when its annotations are plain, as long as the JSON value is read from its own text. -/
theorem Module.parse?_text_iff {input : String} {m : Module}
    (accepted : Module.parse? input = some m) (faithful : Json.parse? m.text = some m.toJson) :
    Module.parse? m.text = some m ↔ m.Passes plain := by
  obtain ⟨v, -, hv⟩ := Option.bind_eq_some_iff.mp accepted
  rw [Module.parse?, faithful]
  exact (passes_of_ofJson? v m hv).ofJson?_toJson_iff

/-- A description that was accepted comes back from its JSON form exactly when, in all its
annotations, no union is a member of a union and no string literal holds a quote or a
backslash. -/
theorem Module.ofJson?_toJson_eq_some_iff {v : Json} {m : Module}
    (accepted : Module.ofJson? v = some m) :
    Module.ofJson? m.toJson = some m ↔ m.Passes plain :=
  (passes_of_ofJson? v m accepted).ofJson?_toJson_iff

/-- The JSON form of a module with one property. -/
def moduleJson (type : String) : Json :=
  .obj [("uri", .str "a"), ("properties", .arr [.obj [("name", .str "p"), ("type", .str type)]])]

/-- A module with one property. -/
def moduleOf (type : TypeExpr) : Module :=
  ⟨"a", none, false, none, none, [], [], [], [⟨"p", some type, [], none, none, none⟩], []⟩

theorem passes_moduleOf_iff {t : LeafTest} (type : TypeExpr) :
    (moduleOf type).Passes t ↔ t.annotation type := by
  simp [moduleOf, Module.passes_iff, Property.passes_iff, LeafTest.OnType, LeafTest.OnPlace,
    ReceiverPasses, BodyPasses]

theorem ofJson?_toJson_moduleOf_nullable :
    Module.ofJson? (moduleOf (.nullable (.simple "A"))).toJson =
      some (moduleOf (.nullable (.simple "A"))) :=
  have accepted : Module.ofJson? (moduleJson "A?") = some (moduleOf (.nullable (.simple "A"))) :=
    rfl
  (Module.ofJson?_toJson_eq_some_iff accepted).mpr ((passes_moduleOf_iff _).mpr ⟨rfl, rfl⟩)

/-- The type of the string `a"b` is written as `"a"b"`, which is no annotation. -/
theorem not_forall_ofJson?_toJson :
    ¬ ∀ (v : Json) (m : Module), Module.ofJson? v = some m →
      Module.ofJson? m.toJson = some m := by
  intro h
  have hread := h (moduleJson "\"a\\\"b\"") (moduleOf (.literal "a\"b")) rfl
  have hplain := (Module.ofJson?_toJson_iff _).mp hread
  have hparse : TypeExpr.parse (TypeExpr.literal "a\"b").text = .ok (.literal "a\"b") :=
    (passes_moduleOf_iff _).mp hplain
  have legible : (TypeExpr.literal "a\"b").Legible := trivial
  have hclean := ((TypeExpr.parse_text_eq_ok_iff legible).mp hparse).2
  exact absurd hclean (by decide)

end PklAnalysis.Source
