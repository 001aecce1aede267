/-!
# Finite binary64 numbers

Floating point literals are kept as exact data: a sign, a mantissa below `2 ^ 53` and an exponent
of two.  Arithmetic on them is arithmetic of natural numbers, and every result is rounded by one
function, `Binary64.ofRatio?`, to the nearest number, a half going to the even mantissa.
-/

namespace PklAnalysis

/-- The number `± mantissa * 2 ^ exponent`.  The mantissa has 53 bits unless the exponent is the
least one, `-1074`. -/
structure Binary64 where
  negative : Bool
  mantissa : Nat
  exponent : Int
  deriving DecidableEq, Repr, Inhabited

namespace Binary64

/-- Zero with a sign. -/
def zero (negative : Bool) : Binary64 := ⟨negative, 0, -1074⟩

/-- The least and the greatest exponent. -/
def minExponent : Int := -1074

def maxExponent : Int := 971

/-- The magnitude as a ratio of natural numbers. -/
def ratio (x : Binary64) : Nat × Nat :=
  if 0 ≤ x.exponent then (x.mantissa * Nat.pow 2 x.exponent.toNat, 1)
  else (x.mantissa, Nat.pow 2 (-x.exponent).toNat)

/-- A quotient rounded to the nearest natural number, a half going to the even one. -/
def roundedQuotient (num den : Nat) : Nat :=
  let q := num / den
  let twice := 2 * (num % den)
  if twice < den then q
  else if den < twice then q + 1
  else if q % 2 = 0 then q else q + 1

/-- The quotient `num / (den * 2 ^ exponent)`, rounded. -/
def mantissaAt (num den : Nat) (exponent : Int) : Nat :=
  if 0 ≤ exponent then roundedQuotient num (den * Nat.pow 2 exponent.toNat)
  else roundedQuotient (num * Nat.pow 2 (-exponent).toNat) den

/-- Whether `num / (den * 2 ^ exponent)` is less than `2 ^ 53`. -/
def fits (num den : Nat) (exponent : Int) : Bool :=
  if 0 ≤ exponent then num < den * Nat.pow 2 exponent.toNat * Nat.pow 2 53
  else num * Nat.pow 2 (-exponent).toNat < den * Nat.pow 2 53

/-- The number nearest to `± num / den`; none if that is beyond the greatest one. -/
def ofRatio? (negative : Bool) (num den : Nat) : Option Binary64 :=
  if num = 0 || den = 0 then some (zero negative)
  else
    -- one below the exponent that gives 53 bits, or that exponent itself
    let guess : Int := max minExponent ((num.log2 : Int) - (den.log2 : Int) - 53)
    let exponent := if fits num den guess then guess else guess + 1
    let mantissa := mantissaAt num den exponent
    -- rounding up may give one bit more
    let (m, e) :=
      if mantissa = Nat.pow 2 53 then (Nat.pow 2 52, exponent + 1) else (mantissa, exponent)
    if maxExponent < e then none else some ⟨negative, m, e⟩

/-- The number nearest to a natural number below the greatest one, with a sign. -/
def ofNat? (negative : Bool) (n : Nat) : Option Binary64 := ofRatio? negative n 1

/-- The number nearest to an integer. -/
def ofInt? (i : Int) : Option Binary64 := ofNat? (i < 0) i.natAbs

/-- The magnitudes of two numbers multiplied and rounded, with the sign of the first. -/
def scaleUp? (x y : Binary64) : Option Binary64 :=
  let (a, b) := x.ratio
  let (c, d) := y.ratio
  ofRatio? x.negative (a * c) (b * d)

/-- The magnitude of a number divided by that of another and rounded, with the sign of the
first. -/
def scaleDown? (x y : Binary64) : Option Binary64 :=
  let (a, b) := x.ratio
  let (c, d) := y.ratio
  ofRatio? x.negative (a * d) (b * c)

end Binary64

end PklAnalysis
