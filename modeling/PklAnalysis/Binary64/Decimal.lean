import PklAnalysis.Binary64.Basic

/-!
# Decimal forms of binary64 numbers

A literal is read as a significand and a power of ten: each is rounded to a number of its own, and
so is their product or quotient.  A number is written with the fewest digits that name no other
number, positionally while its point stands near its digits and otherwise with an exponent.
-/

namespace PklAnalysis.Binary64

/-- The greatest power of ten that is a number. -/
def greatestPowerOfTen : Nat := 308

/-- The number nearest to a power of ten. -/
def powerOfTen (n : Nat) : Binary64 := (ofNat? false (Nat.pow 10 n)).getD (zero false)

/-- A number divided by `10 ^ n`, by at most `10 ^ 308` at a time. -/
def dividedByPower (x : Binary64) (n : Nat) : Option Binary64 :=
  if n ≤ greatestPowerOfTen then scaleDown? x (powerOfTen n)
  else if x.mantissa = 0 then some x
  else do
    let y ← scaleDown? x (powerOfTen greatestPowerOfTen)
    dividedByPower y (n - greatestPowerOfTen)
termination_by n
decreasing_by unfold greatestPowerOfTen at *; omega

/-- The number that a literal `± significand * 10 ^ exponent` stands for; none if it is too
large. -/
def ofDecimal? (negative : Bool) (significand : Nat) (exponent : Int) : Option Binary64 := do
  let x ← ofNat? negative significand
  if exponent < 0 then dividedByPower x (-exponent).toNat
  else if exponent.toNat ≤ greatestPowerOfTen then scaleUp? x (powerOfTen exponent.toNat)
  else if significand = 0 then some x
  else none

/-! ## The fewest digits -/

/-- The reals that round to a number, as bounds in quarters of its last place. -/
structure Interval where
  low : Nat
  value : Nat
  high : Nat
  /-- Whether the bounds themselves belong to it. -/
  closed : Bool

/-- The interval of a number.  Below a power of two the neighbour is only half as far away. -/
def interval (x : Binary64) : Interval where
  low := if x.mantissa = Nat.pow 2 52 && minExponent < x.exponent then 4 * x.mantissa - 1
    else 4 * x.mantissa - 2
  value := 4 * x.mantissa
  high := 4 * x.mantissa + 2
  closed := x.mantissa % 2 = 0

/-- `num / den` times ten to a power, as a ratio. -/
def shiftedRatio (num den : Nat) (power : Int) : Nat × Nat :=
  if 0 ≤ power then (num * Nat.pow 10 power.toNat, den)
  else (num, den * Nat.pow 10 (-power).toNat)

/-- The decimal `digits * 10 ^ power` of a grid nearest to a number, if one of the two around it
rounds to the number; of two equally near, the one with an even last digit. -/
def nearestOnGrid (x : Binary64) (power : Int) : Option Nat :=
  let i := x.interval
  -- one quarter of the last place, counted in units of the grid, is `num / den`
  let (num, den) :=
    if 2 ≤ x.exponent then shiftedRatio (Nat.pow 2 (x.exponent - 2).toNat) 1 (-power)
    else shiftedRatio 1 (Nat.pow 2 (2 - x.exponent).toNat) (-power)
  let inside (d : Nat) : Bool :=
    if i.closed then i.low * num ≤ d * den && d * den ≤ i.high * num
    else i.low * num < d * den && d * den < i.high * num
  let below := i.value * num / den
  let above := below + 1
  let downward := i.value * num - below * den
  let upward := above * den - i.value * num
  match inside below, inside above with
  | false, false => none
  | true, false => some below
  | false, true => some above
  | true, true =>
    if downward < upward then some below
    else if upward < downward then some above
    else if below % 2 = 0 then some below else some above

/-- The first grid, from coarse to fine, with a decimal that rounds to the number.  The first
argument bounds how many grids are tried. -/
def shortestFrom (x : Binary64) : Nat → Int → Nat × Int
  | 0, power => (0, power)
  | n + 1, power =>
    match nearestOnGrid x power with
    | some d => if d = 0 then shortestFrom x n (power - 1) else (d, power)
    | none => shortestFrom x n (power - 1)

/-- Trailing zeros moved from the digits to the power.  The first argument bounds their number. -/
def withoutTrailingZeros : Nat → Nat × Int → Nat × Int
  | 0, x => x
  | n + 1, (d, p) => if d % 10 = 0 then withoutTrailingZeros n (d / 10, p + 1) else (d, p)

/-- The shortest decimal `digits * 10 ^ power` that rounds to a number other than zero. -/
def shortest (x : Binary64) : Nat × Int :=
  -- a power of ten above the number: an upper bound of its binary logarithm, times 0.302
  let bits : Int := (x.mantissa.log2 : Int) + 1 + x.exponent
  let top : Int := if 0 ≤ bits then bits * 302 / 1000 + 1 else bits * 301 / 1000 + 1
  withoutTrailingZeros 20 (shortestFrom x 24 top)

/-! ## The written form -/

/-- Where a written number changes from positional notation to an exponent. -/
structure Layout where
  /-- The greatest number of digits before the point. -/
  maxWhole : Int
  /-- The greatest number of zeros between the point and the first digit. -/
  maxLeadingZeros : Int
  /-- What stands before an exponent that is not negative. -/
  plus : String

/-- Literals have up to sixteen digits before the point, or up to four zeros after it, and their
exponents have a sign. -/
def literalLayout : Layout := ⟨16, 4, "+"⟩

/-- The digits of a decimal with its point, or with an exponent. -/
def Layout.write (l : Layout) (digits : Nat) (power : Int) : String :=
  let ds := toString digits
  let count : Int := ds.length
  -- the number of digits before the point
  let whole := count + power
  let zeros (n : Int) : String := String.ofList (List.replicate n.toNat '0')
  if 0 ≤ power && whole ≤ l.maxWhole then ds ++ zeros power ++ ".0"
  else if 0 < whole && whole ≤ l.maxWhole then
    String.ofList (ds.toList.take whole.toNat) ++ "." ++ String.ofList (ds.toList.drop whole.toNat)
  else if -l.maxLeadingZeros ≤ whole && whole ≤ 0 then "0." ++ zeros (-whole) ++ ds
  else
    let exponent := (if 0 ≤ whole - 1 then l.plus else "") ++ toString (whole - 1)
    match ds.toList with
    | d :: e :: rest => String.ofList (d :: '.' :: e :: rest) ++ "e" ++ exponent
    | _ => ds ++ "e" ++ exponent

/-- The written form of a number. -/
def text (x : Binary64) : String :=
  let sign := if x.negative then "-" else ""
  if x.mantissa = 0 then sign ++ "0.0"
  else
    let (digits, power) := shortest x
    sign ++ literalLayout.write digits power

end PklAnalysis.Binary64
