import PklAnalysis.TypeExpr.Printer
import PklAnalysis.Proofs.TypeExpr.Completeness

/-!
# Reading the text of an annotation back

The text of a tree is derived in the grammar.  A function or a union is put in parentheses where
the grammar asks for a type without alternatives; an argument, a parameter and a result stand
bare, since the grammar asks for a whole type there.

Two things are lost.  A union that is a member of a union gets no parentheses, so its members
become members of the outer one: what is read back is the tree with such unions dissolved.  A
string literal is written as it is, so a quote in it ends it and a backslash in it is dropped.
Nothing else is lost, and each of the two always is.
-/

namespace PklAnalysis.TypeExpr

open Text (isBlank)

/-- Whether a character of a string literal would need a backslash before it. -/
def isSpecial (c : Char) : Bool := c == '"' || c == '\\'

/-- Whether an annotation is a union. -/
def isUnion : TypeExpr → Bool
  | .union _ => true
  | _ => false

mutual

/-- No string literal holds a quote or a backslash. -/
def isClean : TypeExpr → Bool
  | .named _ args => isCleanAll args
  | .nullable inner => isClean inner
  | .union members => isCleanAll members
  | .function params result => isCleanAll params && isClean result
  | .literal text => text.toList.all fun c => !isSpecial c
  | .unknown | .nothing | .enclosingModule => true

/-- No string literal of a list holds a quote or a backslash. -/
def isCleanAll : List TypeExpr → Bool
  | [] => true
  | a :: as => isClean a && isCleanAll as

end

mutual

/-- No union is a member of a union. -/
def isFlat : TypeExpr → Bool
  | .named _ args => isFlatAll args
  | .nullable inner => isFlat inner
  | .union members => isFlatAll members && members.all fun a => !a.isUnion
  | .function params result => isFlatAll params && isFlat result
  | .literal _ | .unknown | .nothing | .enclosingModule => true

/-- No union of a list has a union as a member. -/
def isFlatAll : List TypeExpr → Bool
  | [] => true
  | a :: as => isFlat a && isFlatAll as

end

mutual

/-- An annotation with the members of a union's unions in place of these. -/
def flattened : TypeExpr → TypeExpr
  | .named name args => .named name (flattenedAll args)
  | .nullable inner => .nullable (flattened inner)
  | .union members => .union (spread members)
  | .function params result => .function (flattenedAll params) (flattened result)
  | .literal text => .literal text
  | .unknown => .unknown
  | .nothing => .nothing
  | .enclosingModule => .enclosingModule

def flattenedAll : List TypeExpr → List TypeExpr
  | [] => []
  | a :: as => flattened a :: flattenedAll as

/-- The members that a list of alternatives comes to. -/
def spread : List TypeExpr → List TypeExpr
  | [] => []
  | .union members :: as => spread members ++ spread as
  | a :: as => flattened a :: spread as

end

/-! ## The trees of the grammar -/

mutual

/-- A tree that the grammar can give a text: its names are names, none of those without
arguments is a keyword, and its unions have several members. -/
def Legible : TypeExpr → Prop
  | .named name args =>
    IsDotted name.toList ∧ ofName name args = .named name args ∧ LegibleAll args
  | .nullable inner => Legible inner
  | .union members => 2 ≤ members.length ∧ LegibleAll members
  | .function params result => LegibleAll params ∧ Legible result
  | .literal _ | .unknown | .nothing | .enclosingModule => True

/-- Every tree of a list is one that the grammar can give a text. -/
def LegibleAll : List TypeExpr → Prop
  | [] => True
  | a :: as => Legible a ∧ LegibleAll as

end

theorem legible_ofName {n : List Char} (h : IsDotted n) {args : List TypeExpr}
    (hargs : LegibleAll args) : Legible (ofName (String.ofList n) args) := by
  have hnamed (hkept : ofName (String.ofList n) args = .named (String.ofList n) args) :
      Legible (ofName (String.ofList n) args) := by
    rw [hkept]
    exact ⟨by simpa using h, hkept, hargs⟩
  cases args with
  | nil =>
    by_cases hunknown : String.ofList n = "unknown"
    · simp [ofName, hunknown, Legible]
    by_cases hnothing : String.ofList n = "nothing"
    · simp [ofName, hnothing, Legible]
    by_cases hmodule : String.ofList n = "module"
    · simp [ofName, hmodule, Legible]
    exact hnamed (by simp [ofName, hunknown, hnothing, hmodule])
  | cons a as => exact hnamed rfl

theorem Legible.marked {a : TypeExpr} (h : Legible a) (n : Nat) : Legible (marked a n) := by
  induction n with
  | zero => exact h
  | succ n ih => exact ih

theorem legible_ofAlternatives {a : TypeExpr} {as : List TypeExpr} (h : LegibleAll (a :: as)) :
    Legible (ofAlternatives a as) := by
  cases as with
  | nil => exact h.1
  | cons b as => exact ⟨by simp, h⟩

mutual

theorem IsType.legible {s : List Char} {a : TypeExpr} : IsType s a → Legible a
  | .function h => h.legible
  | .alternatives h => legible_ofAlternatives h.legible

theorem AreAlternatives.legible {s : List Char} {as : List TypeExpr} :
    AreAlternatives s as → LegibleAll as
  | .one h => ⟨h.legible, trivial⟩
  | .function h _ last => ⟨h.legible, last.legible, trivial⟩
  | .more h _ rest => ⟨h.legible, rest.legible⟩

theorem IsFunction.legible {s : List Char} {a : TypeExpr} : IsFunction s a → Legible a
  | .arrow _ items _ h => ⟨items.legible, h.legible⟩

theorem IsPostfixed.legible {s : List Char} {a : TypeExpr} : IsPostfixed s a → Legible a
  | .marks h _ => h.legible.marked _

theorem IsAtom.legible {s : List Char} {a : TypeExpr} : IsAtom s a → Legible a
  | .group _ h _ => h.legible
  | .literal _ _ => trivial
  | .name dotted _ => legible_ofName dotted trivial
  | .applied dotted _ _ items => legible_ofName dotted items.legible

theorem IsListUpTo.legible {close : Char} {s : List Char} {as : List TypeExpr} :
    IsListUpTo close s as → LegibleAll as
  | .empty _ => trivial
  | .types items _ => items.legible

theorem AreTypes.legible {s : List Char} {as : List TypeExpr} : AreTypes s as → LegibleAll as
  | .one h => ⟨h.legible, trivial⟩
  | .more h _ rest => ⟨h.legible, rest.legible⟩

end

/-! ## Blanks before a type -/

section

variable {b s : List Char} (hb : IsBlanks b)

include hb

theorem IsFunction.prepend {a : TypeExpr} (h : IsFunction s a) : IsFunction (b ++ s) a := by
  cases h with
  | arrow opening items sep h =>
    rw [← List.append_assoc]
    exact .arrow (opening.prepend hb) items sep h

theorem IsAtom.prepend {a : TypeExpr} (h : IsAtom s a) : IsAtom (b ++ s) a := by
  cases h with
  | group opening h closing =>
    rw [← List.append_assoc]
    exact .group (opening.prepend hb) h closing
  | literal opening body =>
    rw [← List.append_assoc]
    exact .literal (opening.prepend hb) body
  | name dotted h => exact .name dotted (h.prepend hb)
  | applied dotted h opening items =>
    rw [← List.append_assoc]
    exact .applied dotted (h.prepend hb) opening items

theorem IsPostfixed.prepend {a : TypeExpr} (h : IsPostfixed s a) : IsPostfixed (b ++ s) a := by
  cases h with
  | marks h hmarks =>
    rw [← List.append_assoc]
    exact .marks (h.prepend hb) hmarks

theorem AreAlternatives.prepend {as : List TypeExpr} (h : AreAlternatives s as) :
    AreAlternatives (b ++ s) as := by
  cases h with
  | one h => exact .one (h.prepend hb)
  | function h sep last =>
    rw [← List.append_assoc]
    exact .function (h.prepend hb) sep last
  | more h sep rest =>
    rw [← List.append_assoc]
    exact .more (h.prepend hb) sep rest

theorem IsType.prepend {a : TypeExpr} (h : IsType s a) : IsType (b ++ s) a := by
  cases h with
  | function h => exact .function (h.prepend hb)
  | alternatives h => exact .alternatives (h.prepend hb)

theorem AreTypes.prepend {as : List TypeExpr} (h : AreTypes s as) : AreTypes (b ++ s) as := by
  cases h with
  | one h => exact .one (h.prepend hb)
  | more h sep rest =>
    rw [← List.append_assoc]
    exact .more (h.prepend hb) sep rest

end

/-! ## The text of a tree -/

theorem isToken_self (w : List Char) : IsToken w w := ⟨[], IsBlanks.nil, rfl⟩

theorem isBlanks_space : IsBlanks [' '] := by
  intro c hc
  obtain rfl := List.mem_singleton.mp hc
  decide

theorem IsAtom.isPostfixed {s : List Char} {a : TypeExpr} (h : IsAtom s a) : IsPostfixed s a := by
  have hmarks : IsPostfixed (s ++ []) (marked a 0) := .marks h .none
  rwa [List.append_nil] at hmarks

theorem IsPostfixed.isType {s : List Char} {a : TypeExpr} (h : IsPostfixed s a) : IsType s a :=
  .alternatives (.one h)

theorem AreMarks.concat {n : Nat} {q : List Char} (h : AreMarks n q) :
    AreMarks (n + 1) (q ++ ['?']) := by
  induction h with
  | none => exact .more (q := ['?']) (isToken_self ['?']) .none
  | more mark _ ih =>
    rw [List.append_assoc]
    exact .more mark ih

theorem IsPostfixed.nullable {s : List Char} {a : TypeExpr} (h : IsPostfixed s a) :
    IsPostfixed (s ++ ['?']) (.nullable a) := by
  cases h with
  | marks h hmarks =>
    rw [List.append_assoc]
    exact .marks h hmarks.concat

/-- Parentheses make a type one without alternatives, and a type that is one needs none. -/
theorem isPostfixed_enclosed {s : List Char} {a : TypeExpr} {parens : Bool} (h : IsType s a)
    (hbare : parens = false → IsPostfixed s a) : IsPostfixed (enclosed parens s) a := by
  cases parens with
  | false => exact hbare rfl
  | true => exact (IsAtom.group (isToken_self ['(']) h (isToken_self [')'])).isPostfixed

theorem isLiteralBody_self {s : List Char} (h : ∀ c ∈ s, isSpecial c = false) :
    IsLiteralBody s s := by
  induction s with
  | nil => exact .nil
  | cons c s ih =>
    have hc : c ≠ '"' ∧ c ≠ '\\' := by simpa [isSpecial] using h c (by simp)
    exact .plain hc.1 hc.2 (ih fun d hd => h d (by simp [hd]))

theorem isAtom_literal {text : String} (h : (TypeExpr.literal text).isClean = true) :
    IsAtom (chars (.literal text)) (.literal text) := by
  have hbody : IsLiteralBody text.toList text.toList :=
    isLiteralBody_self fun c hc => by simpa using List.all_eq_true.mp h c hc
  have hliteral := IsAtom.literal (isToken_self ['"']) hbody
  rw [String.ofList_toList] at hliteral
  exact hliteral

theorem isAtom_keyword {a : TypeExpr} {word : List Char} (hdotted : IsDotted word)
    (h : ofName (String.ofList word) [] = a) : IsAtom word a :=
  h ▸ .name hdotted (isToken_self word)

theorem isDotted_of_all {c : Char} {s : List Char} (hc : isNameStart c = true)
    (hs : s.all isNamePart = true) : IsDotted (c :: s) :=
  .name hc (List.all_eq_true.mp hs)

theorem isAtom_named {name : String} (legible : Legible (.named name [])) :
    IsAtom (chars (.named name [])) (.named name []) := by
  obtain ⟨hdotted, hkept, -⟩ := legible
  have hname : ofName (String.ofList name.toList) [] = .named name [] := by
    rw [String.ofList_toList, hkept]
  exact isAtom_keyword hdotted hname

theorem isAtom_applied {name : String} {a b : TypeExpr} {as bs : List TypeExpr}
    (hdotted : IsDotted name.toList) (items : AreTypes (separated (a :: as)) (b :: bs)) :
    IsAtom (chars (.named name (a :: as))) (.named name (b :: bs)) := by
  have h := IsAtom.applied hdotted (isToken_self _) (isToken_self ['<'])
    (.types items (isToken_self ['>']))
  rw [String.ofList_toList] at h
  exact h

theorem isFunction_chars {params ps : List TypeExpr} {result r : TypeExpr}
    (items : params = [] ∧ ps = [] ∨ AreTypes (separated params) ps)
    (h : IsType (chars result) r) :
    IsFunction (chars (.function params result)) (.function ps r) := by
  have hlist : IsListUpTo ')' (separated params ++ [')']) ps := by
    rcases items with ⟨rfl, rfl⟩ | items
    · exact .empty (isToken_self [')'])
    · exact .types items (isToken_self [')'])
  have harrow : IsToken ['-', '>'] " ->".toList := ⟨[' '], isBlanks_space, rfl⟩
  have hfunction := IsFunction.arrow (isToken_self ['(']) hlist harrow (h.prepend isBlanks_space)
  rw [List.append_assoc] at hfunction
  exact hfunction

/-- Alternatives of which none is a bare function, so that others may follow. -/
inductive ArePostfixed : List Char → List TypeExpr → Prop
  | one {s : List Char} {a : TypeExpr} (h : IsPostfixed s a) : ArePostfixed s [a]
  | more {s bar u : List Char} {a : TypeExpr} {as : List TypeExpr} (h : IsPostfixed s a)
      (sep : IsToken ['|'] bar) (rest : ArePostfixed u as) :
      ArePostfixed (s ++ (bar ++ u)) (a :: as)

theorem ArePostfixed.areAlternatives {s : List Char} {as : List TypeExpr}
    (h : ArePostfixed s as) : AreAlternatives s as := by
  induction h with
  | one h => exact .one h
  | more h sep _ ih => exact .more h sep ih

theorem ArePostfixed.append {s bar u : List Char} {as bs : List TypeExpr}
    (h : ArePostfixed s as) (sep : IsToken ['|'] bar) (hu : ArePostfixed u bs) :
    ArePostfixed (s ++ (bar ++ u)) (as ++ bs) := by
  induction h with
  | one h => exact .more h sep hu
  | more h sep' _ ih =>
    simp only [List.append_assoc]
    exact .more h sep' ih

/-- Several alternatives are a union. -/
theorem ArePostfixed.isType_union {s : List Char} {as : List TypeExpr} (h : ArePostfixed s as)
    (hlen : 2 ≤ as.length) : IsType s (.union as) := by
  match as, hlen with
  | a :: b :: as, _ => exact .alternatives h.areAlternatives

theorem spread_cons (a : TypeExpr) (as : List TypeExpr) :
    spread (a :: as) = spread [a] ++ spread as := by
  cases a <;> simp [spread]

/-- No alternatives get lost. -/
theorem length_le_spread : ∀ as : List TypeExpr, LegibleAll as → as.length ≤ (spread as).length
  | [], _ => Nat.le_refl 0
  | a :: as, legible => by
    have hrest := length_le_spread as legible.2
    cases a with
    | union members =>
      have hmembers := length_le_spread members legible.1.2
      have htwo : 2 ≤ members.length := legible.1.1
      simp only [spread, List.length_append, List.length_cons]
      omega
    | _ => simpa [spread] using hrest

/-- What the text of a tree derives as a whole type, where `?` asks for no parentheses, and among
alternatives. -/
structure Reads (a : TypeExpr) : Prop where
  type : IsType (chars a) (flattened a)
  bare : a.isCompound = false → IsPostfixed (chars a) (flattened a)
  members : ArePostfixed (enclosed a.isFunction (chars a)) (spread [a])

theorem Reads.of_isCompound {a : TypeExpr} (hcompound : a.isCompound = true)
    (type : IsType (chars a) (flattened a))
    (members : ArePostfixed (enclosed a.isFunction (chars a)) (spread [a])) : Reads a :=
  ⟨type, fun hbare => absurd (hbare.symm.trans hcompound) (by decide), members⟩

/-- A tree whose text is a type without alternatives stands bare everywhere. -/
theorem Reads.of_isPostfixed {a : TypeExpr} (hcompound : a.isCompound = false)
    (h : IsPostfixed (chars a) (flattened a)) : Reads a where
  type := h.isType
  bare := fun _ => h
  members := by
    cases a with
    | function | union => cases hcompound
    | _ => exact .one h

mutual

theorem reads : ∀ a : TypeExpr, Legible a → a.isClean = true → Reads a
  | .named _ [], legible, _ => .of_isPostfixed rfl (isAtom_named legible).isPostfixed
  | .named _ (a :: as), legible, clean => by
    have items := (areTypes_separated (a :: as) legible.2.2 clean).resolve_left (by simp)
    exact .of_isPostfixed rfl (isAtom_applied legible.1 items).isPostfixed
  | .nullable inner, legible, clean => by
    have h := reads inner legible clean
    exact .of_isPostfixed rfl (isPostfixed_enclosed h.type h.bare).nullable
  | .union members, legible, clean => by
    have hlen := length_le_spread members legible.2
    have htwo : 2 ≤ members.length := legible.1
    rcases arePostfixed_alternatives members legible.2 clean with rfl | h
    · cases htwo
    · have hmembers : ArePostfixed (alternatives members) (spread [.union members]) := by
        simpa only [spread, List.append_nil] using h
      exact .of_isCompound rfl (h.isType_union (by omega)) hmembers
  | .function params result, legible, clean => by
    obtain ⟨hparams, hresult⟩ := Bool.and_eq_true_iff.mp clean
    have items := areTypes_separated params legible.1 hparams
    have hitems : params = [] ∧ flattenedAll params = [] ∨
        AreTypes (separated params) (flattenedAll params) := by
      rcases items with rfl | items
      · exact .inl ⟨rfl, rfl⟩
      · exact .inr items
    have h : IsType (chars (.function params result)) (flattened (.function params result)) :=
      .function (isFunction_chars hitems (reads result legible.2 hresult).type)
    exact .of_isCompound rfl h (.one (isPostfixed_enclosed h (by simp [isFunction])))
  | .literal _, _, clean => .of_isPostfixed rfl (isAtom_literal clean).isPostfixed
  | .unknown, _, _ =>
    have hdotted := isDotted_of_all (c := 'u') (by decide) (by decide)
    .of_isPostfixed rfl
      (isAtom_keyword hdotted (show ofName "unknown" [] = .unknown from rfl)).isPostfixed
  | .nothing, _, _ =>
    have hdotted := isDotted_of_all (c := 'n') (by decide) (by decide)
    .of_isPostfixed rfl
      (isAtom_keyword hdotted (show ofName "nothing" [] = .nothing from rfl)).isPostfixed
  | .enclosingModule, _, _ =>
    have hdotted := isDotted_of_all (c := 'm') (by decide) (by decide)
    .of_isPostfixed rfl
      (isAtom_keyword hdotted (show ofName "module" [] = .enclosingModule from rfl)).isPostfixed

theorem areTypes_separated : ∀ as : List TypeExpr, LegibleAll as → isCleanAll as = true →
    as = [] ∨ AreTypes (separated as) (flattenedAll as)
  | [], _, _ => .inl rfl
  | [a], legible, clean => by
    obtain ⟨hclean, -⟩ := Bool.and_eq_true_iff.mp clean
    exact .inr (.one (reads a legible.1 hclean).type)
  | a :: b :: as, legible, clean => by
    obtain ⟨hclean, hrest⟩ := Bool.and_eq_true_iff.mp clean
    have items := (areTypes_separated (b :: as) legible.2 hrest).resolve_left (by simp)
    exact .inr (.more (reads a legible.1 hclean).type (isToken_self [','])
      (items.prepend isBlanks_space))

theorem arePostfixed_alternatives : ∀ as : List TypeExpr, LegibleAll as → isCleanAll as = true →
    as = [] ∨ ArePostfixed (alternatives as) (spread as)
  | [], _, _ => .inl rfl
  | [a], legible, clean => by
    obtain ⟨hclean, -⟩ := Bool.and_eq_true_iff.mp clean
    exact .inr (reads a legible.1 hclean).members
  | a :: b :: as, legible, clean => by
    obtain ⟨hclean, hrest⟩ := Bool.and_eq_true_iff.mp clean
    have others := (arePostfixed_alternatives (b :: as) legible.2 hrest).resolve_left (by simp)
    rw [spread_cons]
    exact .inr ((reads a legible.1 hclean).members.append (isToken_self ['|']) others)

end

/-- Without quotes and backslashes in its literals, a tree comes back flattened. -/
theorem parse_text_eq_flattened {a : TypeExpr} (legible : Legible a) (clean : a.isClean = true) :
    parse a.text = .ok a.flattened := by
  apply parse_of_derives
  refine ⟨chars a, [], (reads a legible clean).type, IsBlanks.nil, ?_⟩
  simp [text]

/-- The members that alternatives come to are no unions. -/
theorem not_isUnion_of_mem_spread : ∀ as : List TypeExpr, ∀ b ∈ spread as, b.isUnion = false
  | [], _, hb => by cases hb
  | a :: as, b, hb => by
    rw [spread_cons] at hb
    rcases List.mem_append.mp hb with hb | hb
    · cases a with
      | union members =>
        have hb : b ∈ spread members := by simpa [spread] using hb
        exact not_isUnion_of_mem_spread members b hb
      | _ =>
        obtain rfl := List.mem_singleton.mp hb
        rfl
    · exact not_isUnion_of_mem_spread as b hb

mutual

theorem flattened_eq_self_iff : ∀ a : TypeExpr, flattened a = a ↔ a.isFlat = true
  | .named _ args => by simp [flattened, isFlat, flattenedAll_eq_self_iff args]
  | .nullable inner => by simp [flattened, isFlat, flattened_eq_self_iff inner]
  | .union members => by simp [flattened, isFlat, spread_eq_self_iff members]
  | .function params result => by
    simp [flattened, isFlat, flattenedAll_eq_self_iff params, flattened_eq_self_iff result]
  | .literal _ | .unknown | .nothing | .enclosingModule => by simp [flattened, isFlat]

theorem flattenedAll_eq_self_iff : ∀ as : List TypeExpr,
    flattenedAll as = as ↔ isFlatAll as = true
  | [] => by simp [flattenedAll, isFlatAll]
  | a :: as => by
    simp [flattenedAll, isFlatAll, flattened_eq_self_iff a, flattenedAll_eq_self_iff as]

theorem spread_eq_self_iff : ∀ as : List TypeExpr,
    spread as = as ↔ (isFlatAll as = true ∧ ∀ a ∈ as, a.isUnion = false)
  | [] => by simp [spread, isFlatAll]
  | a :: as => by
    by_cases hunion : a.isUnion = true
    · have hne : spread (a :: as) ≠ a :: as := fun heq => by
        have hnot := not_isUnion_of_mem_spread (a :: as) a (by simp [heq])
        exact absurd (hunion.symm.trans hnot) (by decide)
      simp [hne, hunion]
    · have hcons : spread (a :: as) = flattened a :: spread as := by
        cases a with
        | union => exact absurd rfl hunion
        | _ => rfl
      have hnot : a.isUnion = false := Bool.eq_false_iff.mpr hunion
      simp only [hcons, List.cons.injEq, flattened_eq_self_iff a, spread_eq_self_iff as, isFlatAll,
        Bool.and_eq_true, List.forall_mem_cons, hnot, true_and, and_assoc]

end

/-- A tree that a text was read as is one of the grammar. -/
theorem legible_of_parse {input : String} {a : TypeExpr} (h : parse input = .ok a) :
    Legible a := by
  obtain ⟨s, -, htype, -⟩ := derives_of_parse h
  exact htype.legible

/-- A tree that a text was read as is read from its own text again, unless a union is a member
of a union or a string literal holds a quote or a backslash. -/
theorem parse_text {a : TypeExpr} (legible : ∃ input, parse input = .ok a)
    (flat : a.isFlat = true) (clean : a.isClean = true) : parse a.text = .ok a := by
  obtain ⟨input, hinput⟩ := legible
  have hread := parse_text_eq_flattened (legible_of_parse hinput) clean
  rwa [(flattened_eq_self_iff a).mpr flat] at hread

/-- A function among alternatives, inside an argument, with a result that may be null. -/
theorem parse_text_choiceOfFunction :
    parse (text (.named "Map" [.simple "String",
        .union [.literal "x", .function [] (.nullable (.simple "a.B"))]])) =
      .ok (.named "Map" [.simple "String",
        .union [.literal "x", .function [] (.nullable (.simple "a.B"))]]) :=
  parse_text ⟨"Map<String, \"x\"|() -> a.B?>", rfl⟩ rfl rfl

end PklAnalysis.TypeExpr
