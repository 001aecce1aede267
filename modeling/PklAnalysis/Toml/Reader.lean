import PklAnalysis.Toml.Moments
import PklAnalysis.Toml.Numbers
import PklAnalysis.Toml.Strings
import PklAnalysis.Toml.Table

/-!
# Reading TOML

`Toml.parse?` reads a document: remarks, headers of tables and of lists of tables, and keys with
values, each beginning on a line of its own.  Values in brackets and braces nest less than eighty
deep, and a key has less than eighty parts.
-/

namespace PklAnalysis.Toml

/-- How deep values may not nest any more, and how many parts a key may not have any more. -/
def nestingLimit : Nat := 80

/-! ## Between tokens -/

/-- What follows the rest of a remark, on its line. -/
def skipRemark (s : List Char) : List Char := s.dropWhile isPlain

/-- What follows the end of a line that says nothing more. -/
def afterLine? (s : List Char) : Option (List Char) :=
  let r := skipSpace s
  let r := if r.head? = some '#' then skipRemark r else r
  if r.isEmpty then some [] else afterBreak? r

/-- What follows blanks, line breaks and remarks.  The number bounds the lines. -/
def skipLines? : Nat → List Char → Option (List Char)
  | 0, s => some s
  | n + 1, s =>
    match skipSpace s with
    | '#' :: r =>
      match skipRemark r with
      | [] => some []
      | r => do skipLines? n (← afterBreak? r)
    | '\n' :: r => skipLines? n r
    | '\r' :: r => do skipLines? n (← afterBreak? ('\r' :: r))
    | r => some r

/-! ## Keys -/

def isBareKeyChar (c : Char) : Bool := c.isAlphanum || c = '_' || c = '-'

/-- One part of a key. -/
def keyPart? (s : List Char) : Option (String × List Char) :=
  match s with
  | '"' :: _ | '\'' :: _ => shortString? s
  | _ =>
    match s.takeWhile isBareKeyChar with
    | [] => none
    | cs => some (String.ofList cs, s.dropWhile isBareKeyChar)

/-- The parts of a key, joined by dots, fewer than a bound, and what follows the blanks after it. -/
def keyWithin? : Nat → List Char → Option (List String × List Char)
  | 0, _ => none
  | n + 1, s => do
    let (part, r) ← keyPart? (skipSpace s)
    match skipSpace r with
    | '.' :: r => do
      let (parts, r) ← keyWithin? n r
      return (part :: parts, r)
    | r => return ([part], r)

/-- The parts of a key. -/
def key? (s : List Char) : Option (List String × List Char) := keyWithin? (nestingLimit - 1) s

/-! ## Values -/

/-- A value that holds no others. -/
def simple? (s : List Char) : Option (Value × List Char) :=
  match s with
  | '"' :: _ | '\'' :: _ => (string? s).map fun (t, r) => (.text t, r)
  | 't' :: 'r' :: 'u' :: 'e' :: r => some (.boolean true, r)
  | 'f' :: 'a' :: 'l' :: 's' :: 'e' :: r => some (.boolean false, r)
  | _ => if isDate s || isTime s then moment? s else number? s

section

/- The reader of nested values, and a bound on how many of them there are. -/
variable (nested : List Char → Option (Value × List Char)) (bound : Nat)

/-- The items of an array, up to its closing bracket. -/
def items? : Nat → List Char → Option (List Value × List Char)
  | 0, _ => none
  | n + 1, s => do
    match ← skipLines? bound s with
    | ']' :: r => return ([], r)
    | r =>
      let (v, r) ← nested r
      match ← skipLines? bound r with
      | ']' :: r => return ([v], r)
      | ',' :: r =>
        let (vs, r) ← items? n r
        return (v :: vs, r)
      | _ => none

/-- A key, its value and the blanks around it. -/
def entry? (s : List Char) : Option ((List String × Value) × List Char) := do
  let (path, r) ← key? s
  let '=' :: r := r | none
  let (v, r) ← nested (skipSpace r)
  return ((path, v), r)

/-- The entries of a table between braces that is not empty, up to the closing brace. -/
def fields? : Nat → Entries → List Char → Option (Entries × List Char)
  | 0, _, _ => none
  | n + 1, done, s => do
    let ((path, v), r) ← entry? nested s
    let done ← done.insert? v path
    match skipSpace r with
    | ',' :: r => fields? n done r
    | '\x7d' :: r => return (done, r)
    | _ => none

end

/-- A value that nests at most so deep. -/
def valueWithin (bound : Nat) : Nat → List Char → Option (Value × List Char)
  | 0, s => simple? s
  | depth + 1, s =>
    match s with
    | '[' :: r => (items? (valueWithin bound depth) bound bound r).map fun (vs, r) => (.array vs, r)
    | '\x7b' :: r =>
      match skipSpace r with
      | '\x7d' :: r => some (.table [], r)
      | r =>
        (fields? (valueWithin bound depth) bound [] r).map fun (entries, r) =>
          (.table (Entries.valuesOf entries), r)
    | s => simple? s

/-! ## Documents -/

/-- What a document says next. -/
inductive Statement where
  /-- The header of a table, or of one more table of a list. -/
  | header (path : List String)
  | listHeader (path : List String)
  | entry (path : List String) (value : Value)

/-- A statement and what follows its line. -/
def statement? (bound : Nat) (s : List Char) : Option (Statement × List Char) :=
  match s with
  | '[' :: '[' :: r => do
    let (path, r) ← key? r
    let ']' :: ']' :: r := r | none
    return (.listHeader path, ← afterLine? r)
  | '[' :: r => do
    let (path, r) ← key? r
    let ']' :: r := r | none
    return (.header path, ← afterLine? r)
  | s => do
    let ((path, v), r) ← entry? (valueWithin bound (nestingLimit - 1)) s
    return (.entry path v, ← afterLine? r)

/-- A document as far as it is read. -/
structure Document where
  content : Entries
  /-- The table that entries belong to. -/
  current : List String

/-- A change made to the table under the last key of a path. -/
def Document.changeLast? (d : Document) (change : String → Entries → Option Entries)
    (path : List String) : Option Document := do
  let key ← path.getLast?
  let content ← d.content.changeAt? (change key) path.dropLast
  return ⟨content, path⟩

/-- A document with one statement more. -/
def Document.add? (d : Document) : Statement → Option Document
  | .header path => d.changeLast? Entries.open? path
  | .listHeader path => d.changeLast? Entries.append? path
  | .entry path v => do
    let content ← d.content.changeAt? (Entries.insert? v path) d.current
    return { d with content }

/-- A document read on, statement by statement, the number of which is bounded. -/
def Document.read? (bound : Nat) : Nat → Document → List Char → Option Document
  | 0, _, _ => none
  | n + 1, d, s => do
    match ← skipLines? bound s with
    | [] => return d
    | r =>
      let (said, r) ← statement? bound r
      Document.read? bound n (← d.add? said) r

/-- The text without the mark of its encoding that may stand first. -/
def withoutMark : List Char → List Char
  | '\ufeff' :: r => r
  | s => s

/-- The table that a text holds. -/
def parse? (text : String) : Option Value := do
  let s := withoutMark text.toList
  let bound := s.length + 1
  let d ← Document.read? bound bound ⟨[], []⟩ s
  return .table (Entries.valuesOf d.content)

end PklAnalysis.Toml
