import PklAnalysis.TypeExpr.Basic
import PklAnalysis.Text.Cut

/-!
# Parts of declarations

What a description of a module and its syntax tree have in common: module identities, type
parameters, modifiers, bindings and imports.
-/

namespace PklAnalysis

/-- The identity of a module: the canonical text of its URI. -/
structure ModuleId where
  text : String
  deriving DecidableEq, Repr, Inhabited, Hashable

/-- How a type parameter may vary. -/
inductive Variance where
  | invariant
  | covariant
  | contravariant
  deriving DecidableEq, Repr, Inhabited

namespace Variance

/-- The keyword of a variance. -/
def text : Variance → String
  | .invariant => "invariant"
  | .covariant => "out"
  | .contravariant => "in"

def ofText? : String → Option Variance
  | "invariant" => some .invariant
  | "out" => some .covariant
  | "in" => some .contravariant
  | _ => none

theorem ofText?_text (v : Variance) : ofText? v.text = some v := by cases v <;> rfl

end Variance

/-- A type parameter of a class, type alias or method. -/
structure TypeParam where
  name : String
  variance : Variance
  deriving DecidableEq, Repr, Inhabited

/-- The modifiers that the analysis takes into account. -/
structure Modifiers where
  isAbstract : Bool
  isOpen : Bool
  isLocal : Bool
  isExternal : Bool
  deriving DecidableEq, Repr, Inhabited

/-- A name with an annotation, if it has one. -/
structure Binding where
  name : String
  type : Option TypeExpr
  deriving DecidableEq, Inhabited

/-- A reference to other modules, in an import clause or an import expression. -/
structure Import where
  uri : String
  /-- The name that stands after `as`. -/
  asName : Option String
  /-- Whether the URI is a pattern for many modules. -/
  isGlob : Bool
  deriving DecidableEq, Repr, Inhabited

namespace Import

/-- The part of a URI that names the module: the fragment of a package URI, else what stands
before a query. -/
def path (uri : String) : String :=
  match Text.cut? '#' uri with
  | some (_, fragment) => fragment
  | none => Text.before '?' uri

/-- The name that an import binds: its alias, or the last segment of the URI without version and
extension. -/
def bindingName (i : Import) : String :=
  match i.asName with
  | some name => name
  | none =>
    let p := path i.uri
    let segments := Text.pieces (fun c => c = '/' || c = ':') p
    let last := (segments.reverse.find? (· ≠ "")).getD p
    Text.withoutEnding ".pkl" (Text.before '@' last)

/-- The clause as it is written. -/
def text (i : Import) : String :=
  (if i.isGlob then "import* \"" else "import \"") ++ i.uri ++ "\""
    ++ (match i.asName with
      | some name => " as " ++ name
      | none => "")

end Import

end PklAnalysis
