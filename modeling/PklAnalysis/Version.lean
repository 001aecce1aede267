import PklAnalysis.Text.Cut
import PklAnalysis.Text.Quoted

/-!
# Semantic versions

A version is three numbers below `2 ^ 64` with dots between, then optionally a pre-release after a
hyphen and build metadata after a plus sign, both lists of identifiers with dots between.
`Version.parse` reads one and says what is wrong with a text that is none.
-/

namespace PklAnalysis

/-- A version.  No pre-release and no metadata are empty texts. -/
structure Version where
  major : Nat
  minor : Nat
  patch : Nat
  preRelease : String
  build : String
  deriving DecidableEq, Repr, Inhabited

namespace Version

/-- The written form. -/
def text (v : Version) : String :=
  toString v.major ++ "." ++ toString v.minor ++ "." ++ toString v.patch
    ++ (if v.preRelease = "" then "" else "-" ++ v.preRelease)
    ++ (if v.build = "" then "" else "+" ++ v.build)

/-- A part of a version. -/
inductive Part where
  | major
  | minor
  | patch
  | preRelease
  | build
  deriving DecidableEq, Repr

def Part.text : Part → String
  | .major => "major version number"
  | .minor => "minor version number"
  | .patch => "patch version number"
  | .preRelease => "pre-release identifier"
  | .build => "build metadata"

/-- Why a text is no version. -/
inductive Malformed where
  | empty
  | unexpectedEnd (part : Part)
  | unexpectedChar (part : Part) (c : Char)
  | unexpectedCharAfter (part : Part) (c : Char)
  | leadingZero (part : Part)
  | overflow (part : Part)
  | emptySegment (part : Part)
  deriving DecidableEq, Repr

def Malformed.message : Malformed → String
  | .empty => "empty string, expected a semver version"
  | .unexpectedEnd part => "unexpected end of input while parsing " ++ part.text
  | .unexpectedChar part c =>
    "unexpected character " ++ Text.quotedChar c ++ " while parsing " ++ part.text
  | .unexpectedCharAfter part c =>
    "unexpected character " ++ Text.quotedChar c ++ " after " ++ part.text
  | .leadingZero part => "invalid leading zero in " ++ part.text
  | .overflow part => "value of " ++ part.text ++ " exceeds u64::MAX"
  | .emptySegment part => "empty identifier segment in " ++ part.text

/-- The digits of a number after those that make up `value`. -/
def digitsFrom (part : Part) (value : Nat) : List Char → Except Malformed (Nat × List Char)
  | [] => .ok (value, [])
  | c :: cs =>
    if c.isDigit then
      if value = 0 then .error (.leadingZero part)
      else
        let next := value * 10 + (c.toNat - '0'.toNat)
        if Nat.pow 2 64 ≤ next then .error (.overflow part) else digitsFrom part next cs
    else .ok (value, c :: cs)

/-- One of the three numbers. -/
def number (part : Part) : List Char → Except Malformed (Nat × List Char)
  | [] => .error (.unexpectedEnd part)
  | c :: cs =>
    if c.isDigit then digitsFrom part (c.toNat - '0'.toNat) cs
    else .error (.unexpectedChar part c)

/-- The dot after a number. -/
def dot (part : Part) : List Char → Except Malformed (List Char)
  | '.' :: cs => .ok cs
  | c :: _ => .error (.unexpectedCharAfter part c)
  | [] => .error (.unexpectedEnd part)

/-- Whether a character may stand in an identifier. -/
def isIdentifierChar (c : Char) : Bool := c.isAlphanum || c = '-'

/-- Whether an identifier is a number with a zero in front, which a pre-release must not have. -/
def hasLeadingZero (segment : List Char) : Bool :=
  segment.all Char.isDigit && 1 < segment.length && segment.head? = some '0'

/-- Identifiers with dots between, at least one, none of them empty.  The text before the place
reached is given in reverse, and so is the identifier that is being read. -/
def identifiersFrom (part : Part) (done segment : List Char) :
    List Char → Except Malformed (List Char × List Char)
  | [] => finish done segment []
  | c :: cs =>
    if isIdentifierChar c then identifiersFrom part done (c :: segment) cs
    else if c = '.' then
      if segment.isEmpty then .error (.emptySegment part)
      else if part = .preRelease && hasLeadingZero segment.reverse then .error (.leadingZero part)
      else identifiersFrom part ('.' :: (segment ++ done)) [] cs
    else finish done segment (c :: cs)
where
  finish (done segment rest : List Char) : Except Malformed (List Char × List Char) :=
    if segment.isEmpty then .error (.emptySegment part)
    else if part = .preRelease && hasLeadingZero segment.reverse then .error (.leadingZero part)
    else .ok ((segment ++ done).reverse, rest)

/-- An optional list of identifiers after its mark. -/
def identifiers (part : Part) (mark : Char) :
    List Char → Except Malformed (Option (List Char) × List Char)
  | [] => .ok (none, [])
  | c :: cs =>
    if c = mark then (identifiersFrom part [] [] cs).map fun (ids, rest) => (some ids, rest)
    else .ok (none, c :: cs)

/-- The version that a text is. -/
def parse (text : String) : Except Malformed Version := do
  let s := text.toList
  if s.isEmpty then throw .empty
  let (major, s) ← number .major s
  let s ← dot .major s
  let (minor, s) ← number .minor s
  let s ← dot .minor s
  let (patch, s) ← number .patch s
  let (pre, s) ← identifiers .preRelease '-' s
  let (build, s) ← identifiers .build '+' s
  match s with
  | [] =>
    return ⟨major, minor, patch, String.ofList (pre.getD []), String.ofList (build.getD [])⟩
  | c :: _ =>
    let last := if build.isSome then Part.build else if pre.isSome then .preRelease else .patch
    throw (.unexpectedCharAfter last c)

end Version

end PklAnalysis
