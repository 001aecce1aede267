import PklAnalysis.Proofs.Lattice.VaguerMeets

/-!
# Losing precision

What is known of two types may be lost without a yes about them becoming a no.  A firm yes about two
types is a yes about less precise ones: for subtyping by `TypeEnv.FirmSubtype.subtype_of_vaguer`,
for common subtypes by `TypeEnv.MeetsWithin.meets_of_vaguer`.
-/

namespace PklAnalysis

namespace TypeEnv

/-- A firm yes about two types is a yes about less precise ones. -/
theorem yes_of_lessPrecise {env : TypeEnv Id} (henv : env.IsRegular) {a' a b' b : Ty}
    (ha : a.isNormal env.base = true) (hb : b.isNormal env.base = true)
    (haLess : a'.LessPrecise env.base a) (hbLess : b'.LessPrecise env.base b) :
    (env.isSubtype a b = true → env.IsFirmSubtype a b → env.isSubtype a' b' = true) ∧
      (env.haveCommonSubtype a b = true → env.IsFirmCommon a b →
        env.haveCommonSubtype a' b' = true) := by
  have haVague : a'.Vaguer env.base a := haLess.vaguer ha
  have hbVague : b'.Vaguer env.base b := hbLess.vaguer hb
  refine ⟨fun h hfirm => ?_, fun h hfirm => ?_⟩
  · exact isSubtype_of_subtype
      ((firmSubtype_of_isSubtype h hfirm).subtype_of_vaguer henv haVague hbVague)
  · exact haveCommonSubtype_of_meets
      ((meetsWithin_of_haveCommonSubtype h hfirm).meets_of_vaguer henv haVague hbVague)

end TypeEnv

/-- Whether a type names a class. -/
def Ty.isClass : Ty → Bool
  | .class .. => true
  | _ => false

namespace TypeTable

/-- A table is regular if its superclasses are classes as they are written. -/
theorem isRegular_env {t : TypeTable}
    (haliases : ∀ e ∈ t.aliases, e.2.target.isNothingFree = true ∧
      e.2.target.mentionsOnly e.2.decl.site = true)
    (hclasses : ∀ e ∈ t.classes, ∀ s ∈ e.2.superclass, s.isNothingFree = true ∧
      s.mentionsOnly e.2.decl.site = true ∧ s.isClass = true) : t.env.IsRegular where
  target h := haliases _ (mem_of_lookup h)
  superclass {_ _ s} h hs := by
    obtain ⟨hfree, hown, hclass⟩ := hclasses _ (mem_of_lookup h) s hs
    refine ⟨hfree, hown, fun as _ => ?_⟩
    cases s with
    | «class» d args => exact ⟨d, _, rfl⟩
    | _ => exact (Bool.false_ne_true hclass).elim

/-- A type alias for the union of two types. -/
def either : DeclRef := ⟨⟨baseModule, 30⟩, "Either"⟩

/-- The base table with that alias. -/
def withEither : TypeTable :=
  withBase.defineAlias either [outParam "Left", outParam "Right"]
    (.union [.param ⟨either.site, 0, "Left"⟩, .param ⟨either.site, 1, "Right"⟩])

theorem isRegular_withEither : withEither.env.IsRegular :=
  isRegular_env (by decide) (by decide)

/-- Lists of numbers or texts are collections of them, also if only the texts are known. -/
theorem yes_listOfEither :
    let b := baseTypes
    let ours : Ty := .class b.list [.typeAlias either [.unknown, b.stringType]]
    let theirs : Ty := .class b.collection [(Ty.unionOf b [.class b.int [], b.stringType]).orNull b]
    withEither.env.isSubtype ours theirs = true ∧
      withEither.env.haveCommonSubtype ours theirs = true := by
  intro b ours theirs
  have hplain (d : DeclRef) : Ty.LessPrecise b (.class d []) (.class d []) :=
    .class d rfl fun _ h => absurd h (Nat.not_lt_zero _)
  have hours : ours.LessPrecise b
      (.class b.list [.typeAlias either [.class b.int [], b.stringType]]) :=
    .class b.list rfl fun
      | 0, _ => .typeAlias either rfl fun
        | 0, _ => .unknown _
        | 1, _ => hplain b.string
  have hunion : (Ty.unionOf b [.class b.int [], b.stringType]).LessPrecise b
      (.union [.class b.int [], b.stringType]) :=
    .union rfl fun
      | 0, _ => hplain b.int
      | 1, _ => hplain b.string
  have htheirs : theirs.LessPrecise b
      (.class b.collection [.nullable (.union [.class b.int [], b.stringType])]) :=
    .class b.collection rfl fun
      | 0, _ => hunion.nullable
  obtain ⟨hsub, hcommon⟩ := TypeEnv.yes_of_lessPrecise isRegular_withEither (by decide)
    (by decide) hours htheirs
  exact ⟨hsub (by decide) (by decide),
    hcommon (by decide) (by decide)⟩

/-! ## Expansions that are given up -/

/-- One of 64 type aliases of which each leads to the next. -/
def link (i : Nat) : DeclRef := ⟨⟨baseModule, 31 + i⟩, "Link"⟩

/-- The table with the links, the last of which stands for `Int`. -/
def withLinks : TypeTable :=
  (List.range 64).foldl (fun t i => t.defineAlias (link i) [outParam "Value"]
    (if i = 63 then .class baseTypes.int [] else .typeAlias (link (i + 1)) [])) withEither

theorem isRegular_withLinks : withLinks.env.IsRegular :=
  isRegular_env (by decide) (by decide)

/-- A yes that is due to an expansion which is given up, after 64 aliases in a row, is no yes about
less precise types: a union that has collapsed before is one of two aliases then, and the rest of
the row is short enough. -/
theorem not_forall_yes_of_lessPrecise : ¬ ∀ (env : TypeEnv Id) (a' a b' b : Ty), env.IsRegular →
    a.isNormal env.base = true → b.isNormal env.base = true → a'.LessPrecise env.base a →
    b'.LessPrecise env.base b → env.isSubtype a b = true → env.Settled a b →
    env.isSubtype a' b' = true := by
  intro h
  let int : Ty := .class baseTypes.int []
  let string : Ty := baseTypes.stringType
  let a' : Ty := .typeAlias either [.typeAlias (link 0) [.unknown], .typeAlias (link 0) [int]]
  let a : Ty := .typeAlias either [.typeAlias (link 0) [int], .typeAlias (link 0) [int]]
  have hint : int.LessPrecise baseTypes int := .class _ rfl fun _ h => absurd h (Nat.not_lt_zero _)
  have hstring : string.LessPrecise baseTypes string :=
    .class _ rfl fun _ h => absurd h (Nat.not_lt_zero _)
  have ha : a'.LessPrecise baseTypes a :=
    .typeAlias either rfl fun
      | 0, _ => .typeAlias (link 0) rfl fun
        | 0, _ => .unknown int
      | 1, _ => .typeAlias (link 0) rfl fun
        | 0, _ => hint
  have hyes : withLinks.env.isSubtype a' string = true :=
    h withLinks.env a' a string string isRegular_withLinks (by decide)
      (by decide) ha hstring (by decide) (by decide)
  exact absurd hyes (by decide)

end TypeTable

end PklAnalysis
