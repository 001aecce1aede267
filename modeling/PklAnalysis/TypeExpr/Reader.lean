import PklAnalysis.TypeExpr.Basic
import PklAnalysis.Text.CharClass

/-!
# Reading annotations

The grammar, with blanks allowed before every token but not inside a dotted name, a string
literal or an arrow:

    type     := postfixed ('|' postfixed)*
    postfixed := atom '?'*
    atom     := '(' [type (',' type)*] ')' ['->' type]
              | string literal
              | name ('.' name)* ['<' [type (',' type)*] '>']

`TypeExpr.parse` reads a whole text; a failure says what was expected and where, counted in
characters from the start.
-/

namespace PklAnalysis.TypeExpr

open Text (isBlank isLetter isNumeric)

/-- Why a text is no annotation. -/
inductive Cause where
  /-- An annotation ends before the text does. -/
  | trailingInput
  /-- A dot is not followed by a name. -/
  | nameAfterDot
  | typeExpected
  /-- A list is neither continued by a comma nor closed by its bracket. -/
  | bracketExpected (bracket : Char)
  /-- Parentheses that start no function hold no type or more than one. -/
  | notOneType
  /-- A string literal is not closed. -/
  | openLiteral
  deriving DecidableEq, Repr

namespace Cause

def message : Cause → String
  | .trailingInput => "unexpected trailing input"
  | .nameAfterDot => "expected identifier after '.'"
  | .typeExpected => "expected a type"
  | .bracketExpected bracket => "expected '" ++ bracket.toString ++ "'"
  | .notOneType => "parenthesized type must contain exactly one type"
  | .openLiteral => "unterminated string literal type"

end Cause

/-- A text that is no annotation, with the place at which reading stopped. -/
structure Malformed where
  input : String
  cause : Cause
  /-- The number of characters before the place. -/
  offset : Nat
  deriving DecidableEq, Repr

/-- The text of the error. -/
def Malformed.message (e : Malformed) : String :=
  "Invalid type annotation '" ++ e.input ++ "': " ++ e.cause.message ++ " at offset "
    ++ toString e.offset

/-- A failure inside a text: the cause, and what is left to read at that place. -/
structure Failure where
  cause : Cause
  rest : List Char
  deriving DecidableEq, Repr

/-! ## Tokens -/

/-- Whether a character may start a name. -/
def isNameStart (c : Char) : Bool := isLetter c || c = '_' || c = '$'

/-- Whether a character may continue a name. -/
def isNamePart (c : Char) : Bool := isLetter c || isNumeric c || c = '_' || c = '$'

/-- The text from its first character on that is not blank. -/
def skipBlanks (s : List Char) : List Char := s.dropWhile isBlank

/-- What follows a character that is, after blanks, the next one. -/
def eat? (c : Char) (s : List Char) : Option (List Char) :=
  match skipBlanks s with
  | d :: r => if d = c then some r else none
  | [] => none

/-- What follows an arrow that is, after blanks, the next token. -/
def eatArrow? (s : List Char) : Option (List Char) :=
  match skipBlanks s with
  | '-' :: '>' :: r => some r
  | _ => none

/-- The rest of a dotted name, after its first character. -/
def nameTail : List Char → Except Failure (List Char × List Char)
  | '.' :: c :: r =>
    if isNameStart c then (nameTail r).map fun (cs, r') => ('.' :: c :: cs, r')
    else .error ⟨.nameAfterDot, c :: r⟩
  | ['.'] => .error ⟨.nameAfterDot, []⟩
  | c :: r =>
    if isNamePart c then (nameTail r).map fun (cs, r') => (c :: cs, r') else .ok ([], c :: r)
  | [] => .ok ([], [])

/-- The rest of a string literal, after its opening quote: a backslash keeps the character after
it as it is. -/
def literalTail : List Char → Except Failure (List Char × List Char)
  | '"' :: r => .ok ([], r)
  | '\\' :: c :: r => (literalTail r).map fun (cs, r') => (c :: cs, r')
  | ['\\'] => .error ⟨.openLiteral, []⟩
  | c :: r => (literalTail r).map fun (cs, r') => (c :: cs, r')
  | [] => .error ⟨.openLiteral, []⟩

/-- The number of question marks at the front, blanks between them skipped. -/
def nullMarks : List Char → Nat × List Char
  | '?' :: r => ((nullMarks r).1 + 1, (nullMarks r).2)
  | c :: r => if isBlank c then nullMarks r else (0, c :: r)
  | [] => (0, [])

/-! ## Types -/

/-- An annotation followed by some question marks. -/
def marked (a : TypeExpr) : Nat → TypeExpr
  | 0 => a
  | n + 1 => .nullable (marked a n)

/-- Several alternatives are a union, a single one is itself. -/
def ofAlternatives (first : TypeExpr) : List TypeExpr → TypeExpr
  | [] => first
  | rest => .union (first :: rest)

/-- A name with its arguments; three names are keywords when they have none. -/
def ofName (name : String) : List TypeExpr → TypeExpr
  | [] =>
    if name = "unknown" then .unknown
    else if name = "nothing" then .nothing
    else if name = "module" then .enclosingModule
    else .named name []
  | args => .named name args

section

/- The grammar is written over the reader of the types nested in brackets, so that each rule is
a definition of its own. -/
variable (nested : List Char → Except Failure (TypeExpr × List Char))

/-- Types separated by commas up to a closing bracket, at least one.  The number bounds how many
are read. -/
def itemsUpTo (close : Char) : Nat → List Char → Except Failure (List TypeExpr × List Char)
  | 0, s => .error ⟨.typeExpected, s⟩
  | n + 1, s => do
    let (a, r) ← nested s
    match eat? ',' r with
    | some r' =>
      let (as, r'') ← itemsUpTo close n r'
      return (a :: as, r'')
    | none =>
      match eat? close r with
      | some r' => return ([a], r')
      | none => .error ⟨.bracketExpected close, skipBlanks r⟩

/-- The rest of a bracketed list, after its opening bracket. -/
def listTail (close : Char) (s : List Char) : Except Failure (List TypeExpr × List Char) :=
  match eat? close s with
  | some r => .ok ([], r)
  | none => itemsUpTo nested close s.length s

/-- What follows an opening parenthesis: a function, or a single type in parentheses. -/
def parenTail (s : List Char) : Except Failure (TypeExpr × List Char) := do
  let (items, r) ← listTail nested ')' s
  match eatArrow? r with
  | some r' =>
    let (result, r'') ← nested r'
    return (.function items result, r'')
  | none =>
    match items with
    | [a] => return (a, r)
    | _ => .error ⟨.notOneType, skipBlanks r⟩

/-- A type without question marks and alternatives. -/
def atom (s : List Char) : Except Failure (TypeExpr × List Char) :=
  match skipBlanks s with
  | '(' :: r => parenTail nested r
  | '"' :: r => (literalTail r).map fun (cs, r') => (.literal (String.ofList cs), r')
  | c :: r =>
    if isNameStart c then do
      let (cs, r') ← nameTail r
      let name := String.ofList (c :: cs)
      match eat? '<' r' with
      | some r'' =>
        let (args, r''') ← listTail nested '>' r''
        return (ofName name args, r''')
      | none => return (ofName name [], r')
    else .error ⟨.typeExpected, c :: r⟩
  | [] => .error ⟨.typeExpected, []⟩

/-- An atom with the question marks after it. -/
def postfixed (s : List Char) : Except Failure (TypeExpr × List Char) := do
  let (a, r) ← atom nested s
  return (marked a (nullMarks r).1, (nullMarks r).2)

/-- The alternatives after the first one.  The number bounds how many are read. -/
def moreAlternatives : Nat → List Char → Except Failure (List TypeExpr × List Char)
  | 0, s => .ok ([], s)
  | n + 1, s =>
    match eat? '|' s with
    | some r => do
      let (a, r') ← postfixed nested r
      let (as, r'') ← moreAlternatives n r'
      return (a :: as, r'')
    | none => .ok ([], s)

/-- A whole type. -/
def type (s : List Char) : Except Failure (TypeExpr × List Char) := do
  let (a, r) ← postfixed nested s
  let (as, r') ← moreAlternatives nested r.length r
  return (ofAlternatives a as, r')

end

/-- A type whose brackets and arrows are nested less deep than the bound. -/
def typeWithin : Nat → List Char → Except Failure (TypeExpr × List Char)
  | 0, s => .error ⟨.typeExpected, s⟩
  | n + 1, s => type (typeWithin n) s

/-- An annotation that takes up a whole text, blanks apart. -/
def parse (input : String) : Except Malformed TypeExpr :=
  let cs := input.toList
  let fail (f : Failure) : Malformed := ⟨input, f.cause, cs.length - f.rest.length⟩
  match typeWithin (cs.length + 1) cs with
  | .error f => .error (fail f)
  | .ok (a, r) =>
    match skipBlanks r with
    | [] => .ok a
    | rest => .error (fail ⟨.trailingInput, rest⟩)

end PklAnalysis.TypeExpr
