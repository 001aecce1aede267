import PklAnalysis.Proofs.Modules.PlainStores
import PklAnalysis.Resolution.Inference

/-!
# Lexical bindings and members of receivers

An identifier in the scope of a `let`, a generator or the parameters of a lambda or method that
bind its name means the innermost of these bindings, unless an object body or a class between the
identifier and the binding gives the name a member: scopes of all kinds are asked in one row from
the inside out, and the innermost one that knows the name decides.
-/

namespace PklAnalysis.Session

/-! ## Bindings around a node -/

/-- Whether a node is a parameter with a name. -/
def isParameterNamed (t : Tree) (name : String) (n : Nat) : Bool :=
  match t.kind? n with
  | some (.parameter b) => b.name = name
  | _ => false

def isParameter (t : Tree) (n : Nat) : Bool :=
  match t.kind? n with
  | some (.parameter _) => true
  | _ => false

/-- What a node binds a name to as seen from one of its children.  A `let` and a generator bind
names in their second child, a lambda and a method in all children that are no parameters. -/
def boundBy? (t : Tree) (name : String) (scope child : Nat) : Option Declared :=
  match t.kind? scope with
  | some (.letIn b) =>
    if b.name = name ∧ t.child? scope 1 = some child then
      some (Declared.atNode t scope .letBinding name)
    else none
  | some (.generator key value) =>
    if (value.name = name ∨ ∃ b ∈ key, b.name = name) ∧ t.child? scope 1 = some child then
      some (Declared.atNode t scope .forBinding name)
    else none
  | some .lambda | some (.method _) =>
    if isParameter t child then none
    else ((t.children scope).find? (isParameterNamed t name)).map fun n =>
      Declared.atNode t n .parameter name
  | _ => none

/-- The innermost binding of a name among nodes around each other, as seen from a child of the
first, with the nodes that are passed on the way. -/
def innermostBinding? (t : Tree) (name : String) : Nat → List Nat → Option (List Nat × Declared)
  | _, [] => none
  | child, scope :: scopes =>
    match boundBy? t name scope child with
    | some d => some ([], d)
    | none => (innermostBinding? t name scope scopes).map fun (passed, d) => (scope :: passed, d)

/-- The member with a name that an object body or a class shows to what it contains. -/
def memberAround? (q : Typing) (t : Tree) (name : String) (scope : Nat) :
    Query (Option Declared) :=
  match t.kind? scope with
  | some .objectBody => inObject? q t scope name .property
  | some (.class _) =>
    match declOf? t scope with
    | some d => declaredMember? d name .property
    | none => return none
  | _ => return none

/-! ## One scope -/

section Scopes

variable (q : Typing) (t : Tree) (name : String) (scope child : Nat)

theorem parameter?_eq : parameter? t scope child name =
    if isParameter t child then none
    else ((t.children scope).find? (isParameterNamed t name)).map fun n =>
      Declared.atNode t n .parameter name := by
  unfold parameter? isParameter
  cases t.kind? child with
  | none => rfl
  | some kind => cases kind <;> rfl

theorem bound?_eq (kind : DeclarationKind) (names : List String) :
    bound? t scope child kind name names =
      if name ∈ names ∧ t.child? scope 1 = some child then some (Declared.atNode t scope kind name)
      else none := by
  simp only [bound?, Bool.and_eq_true, List.contains_iff_mem, decide_eq_true_iff]

variable {t name scope}

theorem bound?_let {b : Binding} (h : t.kind? scope = some (.letIn b)) :
    bound? t scope child .letBinding name [b.name] = boundBy? t name scope child := by
  simp only [bound?_eq, boundBy?, h, List.mem_singleton, eq_comm (a := name)]

theorem bound?_generator {key : Option Binding} {value : Binding}
    (h : t.kind? scope = some (.generator key value)) :
    bound? t scope child .forBinding name (value.name :: (key.map (·.name)).toList)
      = boundBy? t name scope child := by
  have hnames : name ∈ value.name :: (key.map (·.name)).toList ↔
      value.name = name ∨ ∃ b ∈ key, b.name = name := by
    rw [List.mem_cons, Option.mem_toList, eq_comm]
    exact or_congr_right Option.map_eq_some_iff
  simp only [bound?_eq, boundBy?, h, hnames]

theorem parameter?_lambda (h : t.kind? scope = some .lambda) :
    parameter? t scope child name = boundBy? t name scope child := by
  simp only [parameter?_eq, boundBy?, h]

theorem parameter?_method {header : MethodHeader} (h : t.kind? scope = some (.method header)) :
    parameter? t scope child name = boundBy? t name scope child := by
  simp only [parameter?_eq, boundBy?, h]

/-- A scope that binds a name is asked for nothing else. -/
theorem inScope?_of_boundBy? [Bounds] {d : Declared}
    (hd : boundBy? t name scope child = some d) :
    inScope? q t scope child name .property = pure (some d) := by
  have hpure {o : Option Declared} (ho : o = boundBy? t name scope child) :
      (pure o : Query (Option Declared)) = pure (some d) := by
    rw [ho, hd]
  rw [inScope?.eq_def]
  cases hkind : t.kind? scope with
  | none => simp [boundBy?, hkind] at hd
  | some kind =>
    cases kind with
    | letIn b => exact hpure (bound?_let child hkind)
    | generator key value => exact hpure (bound?_generator child hkind)
    | lambda => exact hpure (parameter?_lambda child hkind)
    | method header => exact hpure (parameter?_method child hkind)
    | _ => simp [boundBy?, hkind] at hd

variable (t name scope)

/-- A scope that binds a name is asked for nothing else, any other one for a member. -/
theorem inScope?_property : inScope? q t scope child name .property =
    match boundBy? t name scope child with
    | some d => pure (some d)
    | none => memberAround? q t name scope := by
  cases hd : boundBy? t name scope child with
  | some d => exact inScope?_of_boundBy? q child hd
  | none =>
    have hpure {o : Option Declared} (ho : o = boundBy? t name scope child) :
        (pure o : Query (Option Declared)) = pure none := by
      rw [ho, hd]
    rw [inScope?.eq_def, memberAround?.eq_def]
    cases hkind : t.kind? scope with
    | none => rfl
    | some kind =>
      cases kind with
      | letIn b => exact hpure (bound?_let child hkind)
      | generator key value => exact hpure (bound?_generator child hkind)
      | lambda => exact hpure (parameter?_lambda child hkind)
      | method header => exact hpure (parameter?_method child hkind)
      | _ => rfl

end Scopes

/-! ## Scopes in a row -/

variable {q : Typing} {t : Tree} {name : String} {d : Declared}

/-- The scopes that are passed on the way to the innermost binding decide between it and their
members. -/
theorem inScopes?_eq_of_innermostBinding {scopes : List Nat} {child : Nat} {passed : List Nat}
    (hd : innermostBinding? t name child scopes = some (passed, d)) :
    inScopes? q t name .property child scopes = do
      return some ((← firstAnswer (memberAround? q t name) passed).getD d) := by
  induction scopes generalizing child passed with
  | nil => cases hd
  | cons scope scopes ih =>
    rw [innermostBinding?] at hd
    rw [inScopes?, inScope?_property]
    cases hbinding : boundBy? t name scope child with
    | some found =>
      rw [hbinding] at hd
      obtain ⟨rfl, rfl⟩ := Prod.mk.inj (Option.some.inj hd)
      rfl
    | none =>
      rw [hbinding] at hd
      obtain ⟨⟨rest, _⟩, hrest, heq⟩ := Option.map_eq_some_iff.mp hd
      obtain ⟨rfl, rfl⟩ := Prod.mk.inj heq
      -- the members of this scope come first, then those of the scopes around it
      simp only [firstAnswer, bind_assoc, ih hrest]
      refine bind_congr fun member => ?_
      cases member <;> rfl

/-! ## Members are no bindings -/

/-- Whether a declaration is that of a `let`, a generator or a parameter. -/
def isLexical : DeclarationKind → Bool
  | .letBinding | .forBinding | .parameter => true
  | _ => false

theorem isLexical_boundBy? {scope child : Nat} (hd : boundBy? t name scope child = some d) :
    isLexical d.kind = true := by
  unfold boundBy? at hd
  split at hd
  case h_5 => cases hd
  case h_3 | h_4 =>
    obtain ⟨-, heq⟩ := Option.ite_none_left_eq_some.mp hd
    obtain ⟨_, -, rfl⟩ := Option.map_eq_some_iff.mp heq
    rfl
  case h_1 | h_2 =>
    obtain ⟨-, heq⟩ := Option.ite_none_right_eq_some.mp hd
    cases heq
    rfl

theorem name_boundBy? {scope child : Nat} (hd : boundBy? t name scope child = some d) :
    d.name = name := by
  unfold boundBy? at hd
  split at hd
  case h_5 => cases hd
  case h_3 | h_4 =>
    obtain ⟨-, heq⟩ := Option.ite_none_left_eq_some.mp hd
    obtain ⟨_, -, rfl⟩ := Option.map_eq_some_iff.mp heq
    rfl
  case h_1 | h_2 =>
    obtain ⟨-, heq⟩ := Option.ite_none_right_eq_some.mp hd
    cases heq
    rfl

theorem isLexical_innermostBinding? {scopes : List Nat} {child : Nat} {passed : List Nat}
    (hd : innermostBinding? t name child scopes = some (passed, d)) : isLexical d.kind = true := by
  induction scopes generalizing child passed with
  | nil => cases hd
  | cons scope scopes ih =>
    rw [innermostBinding?] at hd
    cases hbinding : boundBy? t name scope child with
    | some found =>
      rw [hbinding] at hd
      obtain ⟨-, rfl⟩ := Prod.mk.inj (Option.some.inj hd)
      exact isLexical_boundBy? hbinding
    | none =>
      rw [hbinding] at hd
      obtain ⟨⟨rest, _⟩, hrest, heq⟩ := Option.map_eq_some_iff.mp hd
      obtain ⟨-, rfl⟩ := Prod.mk.inj heq
      exact ih hrest

theorem isLexical_ofMember (m : MemberDef) : isLexical (Declared.ofMember m).kind = false := by
  rw [Declared.ofMember]
  cases m.kind <;> rfl

theorem isLexical_memberAround? {scope : Nat} {s : Session}
    (hd : (memberAround? q t name scope s).1 = some d) : isLexical d.kind = false := by
  have hmember {o : Option MemberDef} (ho : o.map Declared.ofMember = some d) :
      isLexical d.kind = false := by
    obtain ⟨m, -, rfl⟩ := Option.map_eq_some_iff.mp ho
    exact isLexical_ofMember m
  rw [memberAround?.eq_def] at hd
  cases hkind : t.kind? scope with
  | none => rw [hkind] at hd; cases hd
  | some kind =>
    rw [hkind] at hd
    cases kind with
    | objectBody =>
      dsimp only [inObject?] at hd
      generalize (t.children scope).find? _ = own at hd
      cases own with
      | some property => cases hd; rfl
      | none => exact hmember hd
    | «class» header =>
      cases hdecl : declOf? t scope with
      | some c => rw [hdecl] at hd; exact hmember hd
      | none => rw [hdecl] at hd; cases hd
    | _ => cases hd

theorem isLexical_firstAnswer {scopes : List Nat} {s : Session}
    (hd : (firstAnswer (memberAround? q t name) scopes s).1 = some d) :
    isLexical d.kind = false := by
  induction scopes generalizing s with
  | nil => cases hd
  | cons scope scopes ih =>
    rw [firstAnswer, bind_apply] at hd
    cases hfound : (memberAround? q t name scope s).1 with
    | some found =>
      rw [hfound] at hd
      cases hd
      exact isLexical_memberAround? hfound
    | none =>
      rw [hfound] at hd
      exact ih hd

/-! ## What identifiers mean -/

/-- An identifier in the scope of a binding of its name means the member that the innermost object
body or class on the way to the binding gives the name, and the binding itself exactly if there is
no such member. -/
theorem resolve_ident_bound {n : Nat} {passed : List Nat} (hn : t.kind? n = some (.ident name))
    (hd : innermostBinding? t name n (t.ancestors n) = some (passed, d)) (s : Session) :
    let member := (firstAnswer (memberAround? typing t name) passed (adopt t s).2).1
    (resolve t n s).1 = some (member.getD d) ∧ ((resolve t n s).1 = some d ↔ member = none) := by
  intro member
  have hresolve : (resolve t n s).1 = some (member.getD d) := by
    have hscopes := inScopes?_eq_of_innermostBinding (q := typing) hd
    have hident : resolveIn typing t n = unqualified? typing t n name .property := by
      rw [resolveIn.eq_def, hn]
    rw [resolve, bind_apply, hident, unqualified?, hscopes]
    rfl
  refine ⟨hresolve, ?_⟩
  rw [hresolve, Option.some_inj]
  cases hmember : member with
  | none => simp
  | some found =>
    -- a member is never a declaration of the kinds that bindings have
    have hkind := isLexical_firstAnswer hmember
    have hne : found ≠ d := by
      rintro rfl
      rw [isLexical_innermostBinding? hd] at hkind
      cases hkind
    simp [hne]

/-! ## An object in the body of a `let` -/

/-- A module with a class that has a property `x`, and two objects of the class in the bodies of
`let`s.  What the first `let` binds is a member of the class, what the second one binds is not. -/
def builder : Source.Module :=
  let object (name : String) : Source.Expr :=
    .letIn name none (.int 1)
      (.new (some (.simple "Foo")) [.property "y" none (some (.ident name)) none])
  { bareModule "file:///w/m.pkl" with
    classes :=
      [⟨"Foo", [], none, [], [⟨"x", some (.simple "Int"), [], none, none, none⟩], [], none⟩]
    properties :=
      [⟨"p", none, [], some (object "x"), none, none⟩,
        ⟨"q", none, [], some (object "z"), none, none⟩] }

def builderTree : Tree := builder.treeAs (Store.idOf builder.uri) 1

def builderStore : Store := Store.ofSources default .none [builder]

/-- The identifier `x` means the property of the class, `z` what its `let` binds. -/
theorem resolve_ident_bound_builder :
    builderTree.kind? 9 = some (.ident "x") ∧ builderTree.kind? 16 = some (.ident "z") ∧
      (resolve builderTree 9 (new builderStore)).1 =
        some ⟨⟨builderTree.id, 2⟩, .property, "x"⟩ ∧
      (resolve builderTree 16 (new builderStore)).1 =
        some ⟨⟨builderTree.id, 11⟩, .letBinding, "z"⟩ := by
  have hx : builderTree.kind? 9 = some (.ident "x") := by decide
  have hz : builderTree.kind? 16 = some (.ident "z") := by decide
  have hx' : innermostBinding? builderTree "x" 9 (builderTree.ancestors 9) =
      some ([8, 7, 6], ⟨⟨builderTree.id, 4⟩, .letBinding, "x"⟩) := by decide +kernel
  have hz' : innermostBinding? builderTree "z" 16 (builderTree.ancestors 16) =
      some ([15, 14, 13], ⟨⟨builderTree.id, 11⟩, .letBinding, "z"⟩) := by decide +kernel
  have hmember : (firstAnswer (memberAround? typing builderTree "x") [8, 7, 6]
      (adopt builderTree (new builderStore)).2).1 =
        some ⟨⟨builderTree.id, 2⟩, .property, "x"⟩ := by decide +kernel
  have hnone : (firstAnswer (memberAround? typing builderTree "z") [15, 14, 13]
      (adopt builderTree (new builderStore)).2).1 = none := by decide +kernel
  refine ⟨hx, hz, ?_, ?_⟩
  · rw [(resolve_ident_bound hx hx' (new builderStore)).1, hmember, Option.getD_some]
  · exact (resolve_ident_bound hz hz' (new builderStore)).2.mpr hnone

/-- A binding does not come before the members of the objects in its scope. -/
theorem not_forall_resolve_ident_bound :
    ¬∀ (W : Store) (t : Tree) (n : Nat) (name : String) (passed : List Nat) (d : Declared),
      W.tree? t.id = some t → t.kind? n = some (.ident name) →
      innermostBinding? t name n (t.ancestors n) = some (passed, d) →
      (resolve t n (new W)).1 = some d := by
  intro h
  have hbinding := h builderStore builderTree 9 "x" [8, 7, 6]
    ⟨⟨builderTree.id, 4⟩, .letBinding, "x"⟩ (by decide) (by decide)
    (by decide +kernel)
  have hresolve : (resolve builderTree 9 (new builderStore)).1 =
      some ⟨⟨builderTree.id, 2⟩, .property, "x"⟩ := by decide +kernel
  rw [hresolve] at hbinding
  exact absurd hbinding (by decide)

end PklAnalysis.Session
