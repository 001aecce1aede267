import PklAnalysis.Declaration

/-!
# Types

A type is an immutable value.  Classes and type aliases are named by the place of their
declaration; what they are is looked up elsewhere, so a type never holds the declarations that it
mentions, and a name that resolves to nothing is simply the unknown type.
-/

namespace PklAnalysis

/-- The place of a declaration: a node of a module. -/
structure Site where
  module : ModuleId
  node : Nat
  deriving DecidableEq, Repr, Inhabited, Hashable

/-- A class or type alias by the place and the name of its declaration. -/
structure DeclRef where
  site : Site
  name : String
  deriving DecidableEq, Repr, Inhabited, Hashable

/-- A type parameter of a class, type alias or method. -/
structure ParamRef where
  owner : Site
  index : Nat
  name : String
  deriving DecidableEq, Repr, Inhabited

/-- A type. -/
inductive Ty where
  /-- The type about which nothing is known: below and above every type. -/
  | unknown
  /-- The type without values. -/
  | nothing
  | nullable (inner : Ty)
  | class (decl : DeclRef) (args : List Ty)
  | typeAlias (decl : DeclRef) (args : List Ty)
  | union (members : List Ty)
  | function (params : List Ty) (result : Ty)
  /-- The type of a single string. -/
  | literal (text : String)
  | param (ref : ParamRef)
  deriving Inhabited

namespace Ty

/-! ## Equality -/

mutual

/-- Whether two types agree node for node. -/
def same : Ty → Ty → Bool
  | .unknown, .unknown => true
  | .nothing, .nothing => true
  | .nullable a, .nullable b => same a b
  | .class c as, .class d bs => c = d && sameAll as bs
  | .typeAlias c as, .typeAlias d bs => c = d && sameAll as bs
  | .union as, .union bs => sameAll as bs
  | .function as a, .function bs b => sameAll as bs && same a b
  | .literal s, .literal t => s = t
  | .param p, .param q => p = q
  | _, _ => false

def sameAll : List Ty → List Ty → Bool
  | [], [] => true
  | a :: as, b :: bs => same a b && sameAll as bs
  | _, _ => false

end

mutual

theorem same_iff (a b : Ty) : same a b = true ↔ a = b := by
  cases a <;> cases b <;> simp [same, same_iff, sameAll_iff]
termination_by structural a

theorem sameAll_iff (as bs : List Ty) : sameAll as bs = true ↔ as = bs := by
  cases as <;> cases bs <;> simp [sameAll, same_iff, sameAll_iff]
termination_by structural as

end

instance : DecidableEq Ty := fun a b => decidable_of_iff _ (same_iff a b)

/-! ## Shapes -/

def isUnknown : Ty → Bool
  | .unknown => true
  | _ => false

def isFunction : Ty → Bool
  | .function .. => true
  | _ => false

/-- Whether the text of a type is put in parentheses before `?`. -/
def isCompound : Ty → Bool
  | .union _ | .function .. => true
  | _ => false

/-! ## The written form -/

/-- A text, in parentheses if asked for. -/
def enclosed (parens : Bool) (text : String) : String :=
  if parens then "(" ++ text ++ ")" else text

mutual

/-- The written form of a type. -/
def text : Ty → String
  | .unknown => "unknown"
  | .nothing => "nothing"
  | .nullable a => enclosed a.isCompound (text a) ++ "?"
  | .class c [] => c.name
  | .class c (a :: as) => c.name ++ "<" ++ separated (a :: as) ++ ">"
  | .typeAlias c [] => c.name
  | .typeAlias c (a :: as) => c.name ++ "<" ++ separated (a :: as) ++ ">"
  | .union ms => alternatives ms
  | .function ps r => "(" ++ separated ps ++ ") -> " ++ text r
  | .literal s => "\"" ++ s ++ "\""
  | .param p => p.name

/-- Types with a comma and a space between. -/
def separated : List Ty → String
  | [] => ""
  | [a] => text a
  | a :: b :: as => text a ++ ", " ++ separated (b :: as)

/-- Alternatives with a bar between. -/
def alternatives : List Ty → String
  | [] => ""
  | [a] => enclosed a.isFunction (text a)
  | a :: b :: as => enclosed a.isFunction (text a) ++ "|" ++ alternatives (b :: as)

end

/-! ## Erasure -/

mutual

/-- Every type parameter replaced by the unknown type. -/
def erase : Ty → Ty
  | .param _ => .unknown
  | .unknown => .unknown
  | .nothing => .nothing
  | .literal s => .literal s
  | .nullable a => .nullable (erase a)
  | .union ms => .union (eraseAll ms)
  | .class c as => .class c (eraseAll as)
  | .typeAlias c as => .typeAlias c (eraseAll as)
  | .function ps r => .function (eraseAll ps) (erase r)

def eraseAll : List Ty → List Ty
  | [] => []
  | a :: as => erase a :: eraseAll as

end

theorem eraseAll_eq_map (as : List Ty) : eraseAll as = as.map erase := by
  induction as with
  | nil => rfl
  | cons a as ih => simp [eraseAll, ih]

end Ty

end PklAnalysis
