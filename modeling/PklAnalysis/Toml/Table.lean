import PklAnalysis.Toml.Basic

/-!
# Tables in the making

A table is filled key by key, and what may still be added to it hangs on how it came to be: by a
header of its own, by a header further down, or by a key with dots.  A key has one value, a table
one header, and keys with dots add neither to a table that has a header nor directly to one that a
header has passed through.
-/

namespace PklAnalysis.Toml

/-- How a table came to be. -/
inductive TableOrigin where
  /-- It has a header, or is the document. -/
  | headed
  /-- A header of a table inside it led through it. -/
  | passed
  /-- A key with dots led into it. -/
  | dotted
  deriving DecidableEq, Repr

/-- What stands under a key of a table in the making. -/
inductive Item where
  | value (v : Value)
  | table (origin : TableOrigin) (entries : List (String × Item))
  /-- The tables of a list, the last one apart. -/
  | tables (earlier : List (List (String × Item))) (last : List (String × Item))
  deriving Inhabited

/-- The entries of a table in the making. -/
abbrev Entries := List (String × Item)

namespace Entries

/-- The entries with another item under a key that is there. -/
def replace (entries : Entries) (key : String) (item : Item) : Entries :=
  entries.map fun e => if e.1 = key then (key, item) else e

/-- A value put under a path of keys. -/
def insert? (v : Value) : List String → Entries → Option Entries
  | [], _ => none
  | [key], entries =>
    match entries.lookup key with
    | none => some (entries ++ [(key, .value v)])
    | some _ => none
  | key :: path, entries =>
    match entries.lookup key with
    | none => (insert? v path []).map fun inner => entries ++ [(key, .table .dotted inner)]
    | some (.table .dotted inner) =>
      (insert? v path inner).map fun inner => entries.replace key (.table .dotted inner)
    | some (.table .passed inner) =>
      if path.length = 1 then none
      else (insert? v path inner).map fun inner => entries.replace key (.table .passed inner)
    | some (.tables earlier last) =>
      if path.length = 1 then none
      else (insert? v path last).map fun last => entries.replace key (.tables earlier last)
    | some (.table .headed _) | some (.value _) => none

/-- The entries with a change made in the table to which the keys of a header lead; of a list of
tables that is the last one. -/
def changeAt? (change : Entries → Option Entries) : List String → Entries → Option Entries
  | [], entries => change entries
  | key :: path, entries =>
    match entries.lookup key with
    | none => (changeAt? change path []).map fun inner => entries ++ [(key, .table .passed inner)]
    | some (.table origin inner) =>
      (changeAt? change path inner).map fun inner => entries.replace key (.table origin inner)
    | some (.tables earlier last) =>
      (changeAt? change path last).map fun last => entries.replace key (.tables earlier last)
    | some (.value _) => none

/-- A header given to the table under a key. -/
def open? (key : String) (entries : Entries) : Option Entries :=
  match entries.lookup key with
  | none => some (entries ++ [(key, .table .headed [])])
  | some (.table .passed inner) => some (entries.replace key (.table .headed inner))
  | some _ => none

/-- A table added to the list of tables under a key. -/
def append? (key : String) (entries : Entries) : Option Entries :=
  match entries.lookup key with
  | none => some (entries ++ [(key, .tables [] [])])
  | some (.tables earlier last) => some (entries.replace key (.tables (earlier ++ [last]) []))
  | some _ => none

/-! ## The finished table -/

mutual

/-- The value of an item. -/
def valueOf : Item → Value
  | .value v => v
  | .table _ entries => .table (valuesOf entries)
  | .tables earlier last => .array (tablesOf earlier ++ [.table (valuesOf last)])

/-- The values under the keys. -/
def valuesOf : List (String × Item) → List (String × Value)
  | [] => []
  | (key, item) :: entries => (key, valueOf item) :: valuesOf entries

def tablesOf : List (List (String × Item)) → List Value
  | [] => []
  | entries :: rest => .table (valuesOf entries) :: tablesOf rest

end

end Entries

end PklAnalysis.Toml
