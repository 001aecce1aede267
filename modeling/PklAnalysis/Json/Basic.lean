import PklAnalysis.Binary64.Decimal

/-!
# JSON values

The fields of an object keep the order in which they are written, and a name may come twice; what
a repeated name means is up to who reads the object.  A number written without fraction and
exponent that fits 64 bits is an integer, and every other number is rounded to binary64.  What is
well formed but stands for no value is kept as such, so that one may pass over it.
-/

namespace PklAnalysis

/-- A JSON value. -/
inductive Json where
  | null
  | bool (value : Bool)
  | int (value : Int)
  | real (value : Binary64)
  | str (value : String)
  | arr (items : List Json)
  | obj (fields : List (String × Json))
  /-- A number beyond the greatest one, a text with half of a surrogate pair, an object in which a
  name is such a text, or what nests too deep. -/
  | invalid
  deriving Inhabited

namespace Json

/-- The value of the first field with a name. -/
def field? (name : String) : Json → Option Json
  | .obj fields => fields.lookup name
  | _ => none

/-- Whether nothing in a value is invalid. -/
def isValid : Json → Bool
  | .arr items => allValid items
  | .obj fields => allFieldsValid fields
  | .invalid => false
  | _ => true
where
  allValid : List Json → Bool
    | [] => true
    | v :: vs => isValid v && allValid vs
  allFieldsValid : List (String × Json) → Bool
    | [] => true
    | (_, v) :: fs => isValid v && allFieldsValid fs

/-- A list of texts as an array. -/
def ofStrings (texts : List String) : Json := .arr (texts.map .str)

/-- A value, or `null` in its absence. -/
def orNull {α : Type} (render : α → Json) : Option α → Json
  | some a => render a
  | none => .null

/-- A count. -/
def ofNat (n : Nat) : Json := .int n

end Json

end PklAnalysis
