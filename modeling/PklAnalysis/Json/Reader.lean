import PklAnalysis.Json.Basic
import PklAnalysis.Text.Digit

/-!
# Reading JSON

`Json.parse?` reads a text that holds one value and nothing else.  Control characters in strings
must be escaped.  What is well formed is read; what arrays and objects hold more than 127 deep, a
string with half of a surrogate pair, and a number beyond the greatest one are read as invalid.
-/

namespace PklAnalysis.Json

/-- Whether a character may stand between tokens. -/
def isSpace (c : Char) : Bool := c = ' ' || c = '\t' || c = '\n' || c = '\r'

/-- The text from its next token on. -/
def skipSpace (s : List Char) : List Char := s.dropWhile isSpace

/-! ## Strings -/

/-- The value of four hexadecimal digits. -/
def hexUnit? (a b c d : Char) : Option Nat := do
  let a ← Text.hexDigit? a
  let b ← Text.hexDigit? b
  let c ← Text.hexDigit? c
  let d ← Text.hexDigit? d
  return ((a * 16 + b) * 16 + c) * 16 + d

/-- The character that a one-letter escape stands for. -/
def escaped? (c : Char) : Option Char :=
  match c with
  | '"' | '\\' | '/' => some c
  | 'b' => some '\x08'
  | 'f' => some '\x0c'
  | 'n' => some '\n'
  | 'r' => some '\r'
  | 't' => some '\t'
  | _ => none

/-- Whether a code unit is the first, or the second, half of a surrogate pair. -/
def isHighSurrogate (u : Nat) : Bool := 0xD800 ≤ u && u ≤ 0xDBFF

def isLowSurrogate (u : Nat) : Bool := 0xDC00 ≤ u && u ≤ 0xDFFF

/-- A text as far as it is read. -/
structure OpenText where
  /-- Its characters, the last one first. -/
  reversed : List Char
  /-- The first half of a surrogate pair that waits for the other half. -/
  high : Option Nat

namespace OpenText

/-- A text with a character more; there is none while half of a pair waits. -/
def addChar? (t : OpenText) (c : Char) : Option OpenText :=
  match t.high with
  | none => some { t with reversed := c :: t.reversed }
  | some _ => none

/-- A text with a code unit more. -/
def addUnit? (t : OpenText) (u : Nat) : Option OpenText :=
  match t.high with
  | some h =>
    if isLowSurrogate u then
      some ⟨Char.ofNat (0x10000 + (h - 0xD800) * 0x400 + (u - 0xDC00)) :: t.reversed, none⟩
    else none
  | none =>
    if isHighSurrogate u then some { t with high := some u }
    else if isLowSurrogate u then none
    else t.addChar? (Char.ofNat u)

/-- The text when nothing more is read. -/
def text? (t : OpenText) : Option String :=
  match t.high with
  | none => some (String.ofList t.reversed.reverse)
  | some _ => none

end OpenText

/-- The rest of a string, up to its closing quote.  There is no text any more once half of a
surrogate pair has stood without the other half. -/
def stringTail (t? : Option OpenText) : List Char → Option (Option OpenText × List Char)
  | '"' :: r => some (t?, r)
  | '\\' :: 'u' :: a :: b :: c :: d :: r => do
    let u ← hexUnit? a b c d
    stringTail (t?.bind (·.addUnit? u)) r
  | '\\' :: c :: r => do
    let c ← escaped? c
    stringTail (t?.bind (·.addChar? c)) r
  | c :: r =>
    if c.toNat < 0x20 || c = '\\' then none else stringTail (t?.bind (·.addChar? c)) r
  | [] => none

/-- A string after its opening quote; no text if it is invalid. -/
def stringToken? (s : List Char) : Option (Option String × List Char) :=
  (stringTail (some ⟨[], none⟩) s).map fun (t?, r) => (t?.bind OpenText.text?, r)

/-! ## Numbers -/

/-- The digits at the front. -/
def digits (s : List Char) : List Char × List Char :=
  (s.takeWhile Char.isDigit, s.dropWhile Char.isDigit)

/-- A digit appended to a number. -/
def appendDigit (n : Nat) (c : Char) : Nat := n * 10 + (c.toNat - '0'.toNat)

/-- The greatest significand that is kept. -/
def maxSignificand : Nat := Nat.pow 2 64 - 1

/-- Digits appended to a significand while it fits 64 bits, with the number of those left out. -/
def appendDigits : Nat → List Char → Nat × Nat
  | n, [] => (n, 0)
  | n, c :: cs =>
    if appendDigit n c ≤ maxSignificand then appendDigits (appendDigit n c) cs
    else (n, cs.length + 1)

/-- An exponent, after its letter: its value, bounded so that any larger one means the same. -/
def exponentToken? (s : List Char) : Option (Int × List Char) :=
  let (negative, s) : Bool × List Char :=
    match s with
    | '+' :: r => (false, r)
    | '-' :: r => (true, r)
    | _ => (false, s)
  match digits s with
  | ([], _) => none
  | (ds, r) =>
    let n := min (ds.foldl appendDigit 0) (Nat.pow 2 31 - 1)
    some (if negative then -(n : Int) else (n : Int), r)

/-- A number with a fraction, an exponent or too many digits: the significand is what fits 64
bits, and digits of the whole part left out raise the exponent. -/
def realToken? (negative : Bool) (whole fraction : List Char) (power : Int) : Option Binary64 :=
  let (n, dropped) := appendDigits 0 whole
  let (m, left) := appendDigits n fraction
  Binary64.ofDecimal? negative m (power + dropped - ((fraction.length - left : Nat) : Int))

/-- Whether digits are those of a whole part: at least one, and no zero before others. -/
def isWhole : List Char → Bool
  | [] => false
  | ['0'] => true
  | '0' :: _ => false
  | _ => true

/-- An integer, if the digits fit 64 bits.  Zero with a sign is no integer. -/
def integerToken? (negative : Bool) (whole : List Char) : Option Int :=
  let n := whole.foldl appendDigit 0
  if negative then if 0 < n && n ≤ Nat.pow 2 63 then some (-(n : Int)) else none
  else if n < Nat.pow 2 64 then some n else none

/-- A number, its sign taken off. -/
def numberToken? (negative : Bool) (s : List Char) : Option (Json × List Char) :=
  let (whole, r) := digits s
  if !isWhole whole then none
  else
    let fraction? : Option (List Char × List Char) :=
      match r with
      | '.' :: r' => if (digits r').1.isEmpty then none else some (digits r')
      | _ => some ([], r)
    match fraction? with
    | none => none
    | some (fraction, r) =>
      let power? : Option (Option Int × List Char) :=
        match r with
        | 'e' :: r' | 'E' :: r' => (exponentToken? r').map fun (p, r'') => (some p, r'')
        | _ => some (none, r)
      match power? with
      | none => none
      | some (power, r) =>
        match fraction, power, integerToken? negative whole with
        | [], none, some i => some (.int i, r)
        | _, _, _ =>
          let x? := realToken? negative whole fraction (power.getD 0)
          some ((x?.map .real).getD .invalid, r)

/-! ## Values without parts -/

/-- A number, a string or a word. -/
def scalar? : List Char → Option (Json × List Char)
  | 'n' :: 'u' :: 'l' :: 'l' :: r => some (.null, r)
  | 't' :: 'r' :: 'u' :: 'e' :: r => some (.bool true, r)
  | 'f' :: 'a' :: 'l' :: 's' :: 'e' :: r => some (.bool false, r)
  | '"' :: r => (stringToken? r).map fun (text?, r') => ((text?.map .str).getD .invalid, r')
  | '-' :: r => numberToken? true r
  | r => numberToken? false r

/-! ## Passing over values -/

/-- The name of a field and the colon after it. -/
def passName? (s : List Char) : Option (List Char) :=
  match skipSpace s with
  | '"' :: r => do
    let (_, r) ← stringToken? r
    match skipSpace r with
    | ':' :: r => some r
    | _ => none
  | _ => none

/-- What follows a value, or, inside brackets, what follows the last one of the brackets that are
still open.  It takes a step for each token, the number of which is bounded. -/
def passOver? : Nat → Bool → List Char → List Char → Option (List Char)
  | 0, _, _, _ => none
  | n + 1, true, closing, s =>
    match skipSpace s with
    | '[' :: r =>
      match skipSpace r with
      | ']' :: r => passOver? n false closing r
      | r => passOver? n true (']' :: closing) r
    | '\x7b' :: r =>
      match skipSpace r with
      | '\x7d' :: r => passOver? n false closing r
      | r =>
        match passName? r with
        | some r => passOver? n true ('\x7d' :: closing) r
        | none => none
    | r =>
      match scalar? r with
      | some (_, r) => passOver? n false closing r
      | none => none
  | _ + 1, false, [], s => some s
  | n + 1, false, close :: closing, s =>
    match skipSpace s with
    | ',' :: r =>
      if close = ']' then passOver? n true (close :: closing) r
      else
        match passName? r with
        | some r => passOver? n true (close :: closing) r
        | none => none
    | c :: r => if c = close then passOver? n false closing r else none
    | [] => none

/-! ## Values -/

/-- An object, if all its names are texts. -/
def ofFields (fields : List (Option String × Json)) : Json :=
  match fields.mapM fun (name?, v) => name?.map fun name => (name, v) with
  | some fields => .obj fields
  | none => .invalid

section

/- The reader of nested values, and a bound on how many members an array or object has. -/
variable (nested : List Char → Option (Json × List Char)) (bound : Nat)

/-- The items of an array that is not empty, up to its closing bracket. -/
def items? : Nat → List Char → Option (List Json × List Char)
  | 0, _ => none
  | n + 1, s => do
    let (v, r) ← nested s
    match skipSpace r with
    | ',' :: r' =>
      let (vs, r'') ← items? n r'
      return (v :: vs, r'')
    | ']' :: r' => return ([v], r')
    | _ => none

/-- The fields of an object that is not empty, up to its closing brace. -/
def fields? : Nat → List Char → Option (List (Option String × Json) × List Char)
  | 0, _ => none
  | n + 1, s =>
    match skipSpace s with
    | '"' :: r => do
      let (name, r) ← stringToken? r
      match skipSpace r with
      | ':' :: r => do
        let (v, r) ← nested r
        match skipSpace r with
        | ',' :: r' =>
          let (rest, r'') ← fields? n r'
          return ((name, v) :: rest, r'')
        | '\x7d' :: r' => return ([(name, v)], r')
        | _ => none
      | _ => none
    | _ => none

/-- An array after its opening bracket. -/
def arrayTail? (s : List Char) : Option (Json × List Char) :=
  match skipSpace s with
  | ']' :: r => some (.arr [], r)
  | r => (items? nested bound r).map fun (vs, r') => (.arr vs, r')

/-- An object after its opening brace. -/
def objectTail? (s : List Char) : Option (Json × List Char) :=
  match skipSpace s with
  | '\x7d' :: r => some (.obj [], r)
  | r => (fields? nested bound r).map fun (fs, r') => (ofFields fs, r')

end

/-- A value whose arrays and objects nest at most so deep; deeper ones are invalid. -/
def valueWithin (bound : Nat) : Nat → List Char → Option (Json × List Char)
  | 0, s =>
    match skipSpace s with
    | '[' :: _ | '\x7b' :: _ => (passOver? bound true [] s).map fun r => (.invalid, r)
    | r => scalar? r
  | depth + 1, s =>
    match skipSpace s with
    | '[' :: r => arrayTail? (valueWithin bound depth) bound r
    | '\x7b' :: r => objectTail? (valueWithin bound depth) bound r
    | r => scalar? r

/-- How deep arrays and objects may nest. -/
def maxDepth : Nat := 127

/-- The value of a text that holds one value and spaces around it. -/
def parse? (text : String) : Option Json :=
  let cs := text.toList
  match valueWithin (cs.length + 1) maxDepth cs with
  | some (v, r) => if (skipSpace r).isEmpty then some v else none
  | none => none

end PklAnalysis.Json
