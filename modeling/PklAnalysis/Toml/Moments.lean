import PklAnalysis.Text.Digit
import PklAnalysis.Toml.Basic

/-!
# TOML dates and times

A date, a time, or a date with a time and perhaps its offset from universal time.  The days of a
month are those of the calendar, and a minute may have a leap second.
-/

namespace PklAnalysis.Toml

/-- The number that as many decimal digits as given spell, if it lies in a range. -/
def fixedNumber? (count low high : Nat) (s : List Char) : Option (Nat × List Char) :=
  let digits := s.take count
  let n := Text.numeral 10 digits
  if digits.length = count && digits.all (Text.isDigitIn 10) && low ≤ n && n ≤ high then
    some (n, s.drop count)
  else none

/-- What follows a character. -/
def afterChar? (c : Char) : List Char → Option (List Char)
  | d :: r => if d = c then some r else none
  | [] => none

/-- The number of days of a month. -/
def daysOf (year month : Nat) : Nat :=
  if month = 2 then
    if year % 4 = 0 && (year % 100 ≠ 0 || year % 400 = 0) then 29 else 28
  else if [4, 6, 9, 11].contains month then 30
  else 31

/-- What follows a date. -/
def afterDate? (s : List Char) : Option (List Char) := do
  let (year, r) ← fixedNumber? 4 0 9999 s
  let (month, r) ← fixedNumber? 2 1 12 (← afterChar? '-' r)
  let (_, r) ← fixedNumber? 2 1 (daysOf year month) (← afterChar? '-' r)
  return r

/-- What follows the fraction of a second, if there is one. -/
def afterFraction (s : List Char) : List Char :=
  match s with
  | '.' :: r =>
    let rest := r.dropWhile (Text.isDigitIn 10)
    if rest.length < r.length then rest else s
  | _ => s

/-- What follows an hour and a minute. -/
def afterMinute? (s : List Char) : Option (List Char) := do
  let (_, r) ← fixedNumber? 2 0 23 s
  let (_, r) ← fixedNumber? 2 0 59 (← afterChar? ':' r)
  return r

/-- What follows a time. -/
def afterTime? (s : List Char) : Option (List Char) := do
  let (_, r) ← fixedNumber? 2 0 60 (← afterChar? ':' (← afterMinute? s))
  return afterFraction r

/-- What follows an offset, if there is one. -/
def afterOffset? : List Char → Option (List Char)
  | 'Z' :: r | 'z' :: r => some r
  | '+' :: r | '-' :: r => afterMinute? r
  | s => some s

/-- Whether a date, or a time, begins here. -/
def isDate (s : List Char) : Bool :=
  (fixedNumber? 4 0 9999 s).any fun (_, r) => r.head? = some '-'

def isTime (s : List Char) : Bool :=
  (fixedNumber? 2 0 99 s).any fun (_, r) => r.head? = some ':'

/-- What follows a date, a time or both, where one of them begins. -/
def afterMoment? (s : List Char) : Option (List Char) :=
  if isDate s then do
    let r ← afterDate? s
    match r with
    | 'T' :: r' | 't' :: r' => afterOffset? (← afterTime? r')
    | ' ' :: r' => if isTime r' then afterOffset? (← afterTime? r') else some r
    | r => some r
  else afterTime? s

/-- A date, a time or both, where one of them begins. -/
def moment? (s : List Char) : Option (Value × List Char) :=
  (afterMoment? s).map fun r => (.moment (textBetween s r), r)

end PklAnalysis.Toml
