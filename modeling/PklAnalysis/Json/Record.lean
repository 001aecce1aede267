import PklAnalysis.Json.Basic

/-!
# Records, tags and scalars in JSON

A record with known fields is written as an object, in which unknown fields are ignored and a
known one comes at most once, or as an array of its fields in their fixed order, from which the
last ones may be missing.  A tagged value is a record with one field more, the tag, which an array
holds first.  An unknown field of a record may be invalid; in a tagged value nothing may, since it
is taken in before its tag says which fields are known.
-/

namespace PklAnalysis.Json

/-- The value of a field that an object may hold once. -/
def onlyField (name : String) (fields : List (String × Json)) : Option (Option Json) :=
  match (fields.filter fun f => f.1 = name).map Prod.snd with
  | [] => some none
  | [v] => some (some v)
  | _ => none

/-- The fields of a record in their fixed order, each if present. -/
def record? (names : List String) : Json → Option (List (Option Json))
  | .obj fields => names.mapM fun name => onlyField name fields
  | .arr items =>
    if items.length ≤ names.length then
      some (items.map some ++ List.replicate (names.length - items.length) none)
    else none
  | _ => none

/-- A record's tag and the record without it. -/
def tagged? (tag : String) (v : Json) : Option (Json × Json) :=
  if !v.isValid then none
  else
    match v with
    | .obj fields => do
      let some t ← onlyField tag fields | none
      return (t, .obj (fields.filter fun f => f.1 ≠ tag))
    | .arr (t :: items) => some (t, .arr items)
    | _ => none

/-- A record without fields of its own. -/
def isUnit : Json → Bool
  | .obj _ => true
  | .arr items => items.isEmpty
  | _ => false

/-! ## Scalars -/

def string? : Json → Option String
  | .str s => some s
  | _ => none

def bool? : Json → Option Bool
  | .bool b => some b
  | _ => none

/-- An integer of 64 bits with a sign. -/
def int64? : Json → Option Int
  | .int i => if -(Int.pow 2 63) ≤ i && i < Int.pow 2 63 then some i else none
  | _ => none

/-- An integer of 64 bits without a sign. -/
def nat64? : Json → Option Nat
  | .int i => if 0 ≤ i && i < Int.pow 2 64 then some i.toNat else none
  | _ => none

def float? : Json → Option Binary64
  | .int i => Binary64.ofInt? i
  | .real x => some x
  | _ => none

def list? {α : Type} (item? : Json → Option α) : Json → Option (List α)
  | .arr items => items.mapM item?
  | _ => none

/-- One of a fixed choice of words: the word itself, or an object that maps it to `null`. -/
def word? : Json → Option String
  | .str s => some s
  | .obj [(name, .null)] => some name
  | _ => none

/-! ## Presence -/

/-- A field that must be present. -/
def required {α : Type} (read : Json → Option α) (field : Option Json) : Option α :=
  field.bind read

/-- A field with a value of its own when it is absent. -/
def defaulting {α β : Type} (read : α → Option β) (absent : β) : Option α → Option β
  | none => some absent
  | some v => read v

/-- A field that may be absent or `null`. -/
def optional {α : Type} (read : Json → Option α) : Option Json → Option (Option α)
  | none => some none
  | some .null => some none
  | some v => (read v).map some

end PklAnalysis.Json
