/-!
# TOML values

The values that a document holds under its keys.  Numbers with a fraction or an exponent and dates
and times keep the form in which they are written.
-/

namespace PklAnalysis.Toml

/-- The text from one place to a later one, both given by what follows them. -/
def textBetween (s r : List Char) : String := String.ofList (s.take (s.length - r.length))

/-- A TOML value. -/
inductive Value where
  | text (value : String)
  | integer (value : Int)
  | float (literal : String)
  | boolean (value : Bool)
  /-- A date, a time, or both. -/
  | moment (literal : String)
  | array (items : List Value)
  | table (entries : List (String × Value))
  deriving Inhabited

namespace Value

/-- The fields of a record in their fixed order, each if present.  A table names them; an array
holds them in order, and what it holds beyond them does not count; a moment has none of them. -/
def record? (names : List String) : Value → Option (List (Option Value))
  | .table entries => some (names.map fun name => entries.lookup name)
  | .array items => some ((List.range names.length).map (items[·]?))
  | .moment _ => some (names.map fun _ => none)
  | _ => none

def text? : Value → Option String
  | .text s => some s
  | _ => none

def boolean? : Value → Option Bool
  | .boolean b => some b
  | _ => none

def items? : Value → Option (List Value)
  | .array items => some items
  | _ => none

/-- One of a fixed choice of words: the word itself, or a table that maps only it, to nothing. -/
def word? : Value → Option String
  | .text s => some s
  | .table [(name, .table [])] | .table [(name, .array [])] => some name
  | _ => none

end Value

end PklAnalysis.Toml
