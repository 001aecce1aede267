import PklAnalysis.Binary64.Basic
import PklAnalysis.Text.Digit
import PklAnalysis.Toml.Basic

/-!
# TOML numbers

Integers have 64 bits and a sign; without a sign they may also be written in base sixteen, eight or
two.  Other numbers have a fraction, an exponent or both, or are infinite or none at all; a positive
one may not be beyond the greatest binary64 number.  A mark may stand between two digits.
-/

namespace PklAnalysis.Toml

/-! ## Digits -/

/-- The digits at the front, without the marks between them, put behind those already read in
reverse; none if a mark does not stand between digits. -/
def digitsTail? (base : Nat) (done : List Char) : List Char → Option (List Char × List Char)
  | '_' :: c :: r => if Text.isDigitIn base c then digitsTail? base (c :: done) r else none
  | c :: r =>
    if Text.isDigitIn base c then digitsTail? base (c :: done) r
    else if c = '_' then none
    else some (done.reverse, c :: r)
  | [] => some (done.reverse, [])

/-- At least one digit, and more with or without marks between them. -/
def digits? (base : Nat) : List Char → Option (List Char × List Char)
  | c :: r => if Text.isDigitIn base c then digitsTail? base [c] r else none
  | [] => none

/-- The digits of a whole part: a zero stands alone. -/
def whole? : List Char → Option (List Char × List Char)
  | '0' :: r => some (['0'], r)
  | s => digits? 10 s

/-- A sign, if there is one: whether it is negative. -/
def sign? : List Char → Option Bool × List Char
  | '+' :: r => (some false, r)
  | '-' :: r => (some true, r)
  | s => (none, s)

/-! ## Integers -/

/-- An integer of 64 bits. -/
def integerValue? (negative : Bool) (base : Nat) (digits : List Char) : Option Value :=
  let n := Text.numeral base digits
  if negative then if n ≤ Nat.pow 2 63 then some (.integer (-(n : Int))) else none
  else if n < Nat.pow 2 63 then some (.integer n) else none

/-! ## Numbers with a fraction or an exponent -/

/-- The digits after a point, if there is one. -/
def fraction? : List Char → Option (List Char × List Char)
  | '.' :: r => digits? 10 r
  | s => some ([], s)

/-- An exponent, if there is one. -/
def exponent? : List Char → Option (Int × List Char)
  | 'e' :: r | 'E' :: r => do
    let (negative, r) := sign? r
    let (digits, r) ← digits? 10 r
    let n := Text.numeral 10 digits
    return (if negative = some true then -(n : Int) else n, r)
  | s => some (0, s)

/-- Whether `digits * 10 ^ power` is beyond the greatest number.  What has more than 310 digits
before its point is, and what has less than 300 is not. -/
def isBeyond (digits : List Char) (power : Int) : Bool :=
  let n := Text.numeral 10 digits
  let size : Int := (digits.dropWhile (· = '0')).length + power
  if n = 0 || size < 300 then false
  else if 310 < size then true
  else if 0 ≤ power then (Binary64.ofRatio? false (n * Nat.pow 10 power.toNat) 1).isNone
  else (Binary64.ofRatio? false n (Nat.pow 10 (-power).toNat)).isNone

/-- What follows a number with a fraction or an exponent, after its whole part. -/
def afterFloat? (negative : Bool) (whole s : List Char) : Option (List Char) := do
  let (fraction, r) ← fraction? s
  let (power, r) ← exponent? r
  if !negative && isBeyond (whole ++ fraction) (power - fraction.length) then none
  return r

/-! ## Numbers -/

/-- An integer in a base of its own, after the letter of the base. -/
def based? (base : Nat) (s : List Char) : Option (Value × List Char) := do
  let (digits, r) ← digits? base s
  let v ← integerValue? false base digits
  return (v, r)

/-- A number in base ten, or one that has no digits. -/
def decimal? (s : List Char) : Option (Value × List Char) := do
  let (negative?, r) := sign? s
  let negative := negative? = some true
  match r with
  | 'i' :: 'n' :: 'f' :: r | 'n' :: 'a' :: 'n' :: r => return (.float (textBetween s r), r)
  | r =>
    let (whole, r) ← whole? r
    match r with
    | '.' :: _ | 'e' :: _ | 'E' :: _ =>
      let r ← afterFloat? negative whole r
      return (.float (textBetween s r), r)
    | r =>
      let v ← integerValue? negative 10 whole
      return (v, r)

/-- A number. -/
def number? : List Char → Option (Value × List Char)
  | '0' :: 'x' :: r => based? 16 r
  | '0' :: 'o' :: r => based? 8 r
  | '0' :: 'b' :: r => based? 2 r
  | s => decimal? s

end PklAnalysis.Toml
