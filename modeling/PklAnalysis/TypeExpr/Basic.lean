/-!
# Type annotations

A type as it is written in a module: names with arguments, `?` for a type that may be null,
alternatives, functions, string literals and three keywords.  Nothing is looked up here; a name
is the dotted text that stands in the module.
-/

namespace PklAnalysis

/-- A type as written. -/
inductive TypeExpr where
  /-- A name, dotted or not, with its arguments. -/
  | named (name : String) (args : List TypeExpr)
  /-- A type followed by `?`. -/
  | nullable (inner : TypeExpr)
  /-- Alternatives, in the order in which they are written. -/
  | union (members : List TypeExpr)
  | function (params : List TypeExpr) (result : TypeExpr)
  /-- A string literal, which stands for the type of that one string. -/
  | literal (text : String)
  | unknown
  | nothing
  /-- The keyword `module`: the type of the module in which it is written. -/
  | enclosingModule
  deriving Inhabited

namespace TypeExpr

/-- A name without arguments. -/
def simple (name : String) : TypeExpr := .named name []

mutual

/-- Whether two annotations agree node for node. -/
def same : TypeExpr → TypeExpr → Bool
  | .named m as, .named n bs => m = n && sameAll as bs
  | .nullable a, .nullable b => same a b
  | .union as, .union bs => sameAll as bs
  | .function as a, .function bs b => sameAll as bs && same a b
  | .literal s, .literal t => s = t
  | .unknown, .unknown => true
  | .nothing, .nothing => true
  | .enclosingModule, .enclosingModule => true
  | _, _ => false

/-- Whether two lists of annotations agree node for node. -/
def sameAll : List TypeExpr → List TypeExpr → Bool
  | [], [] => true
  | a :: as, b :: bs => same a b && sameAll as bs
  | _, _ => false

end

mutual

theorem same_iff : ∀ a b : TypeExpr, same a b = true ↔ a = b := by
  intro a b
  cases a <;> cases b <;> simp [same, same_iff, sameAll_iff]

theorem sameAll_iff : ∀ as bs : List TypeExpr, sameAll as bs = true ↔ as = bs := by
  intro as bs
  cases as <;> cases bs <;> simp [sameAll, same_iff, sameAll_iff]

end

instance : DecidableEq TypeExpr := fun a b => decidable_of_iff _ (same_iff a b)

mutual

/-- The type names that an annotation mentions, from left to right, a name before those of its
arguments.  Keywords and string literals are no names. -/
def names : TypeExpr → List String
  | .named name args => name :: namesOfAll args
  | .nullable inner => names inner
  | .union members => namesOfAll members
  | .function params result => namesOfAll params ++ names result
  | .literal _ | .unknown | .nothing | .enclosingModule => []

/-- The type names that a list of annotations mentions. -/
def namesOfAll : List TypeExpr → List String
  | [] => []
  | a :: as => names a ++ namesOfAll as

end

end TypeExpr

end PklAnalysis
