import PklAnalysis.Text.CharClass

/-!
# Cutting texts

Texts are taken apart at single characters and at fixed beginnings and ends.  The functions work
on strings and are defined through the list of their characters.
-/

namespace PklAnalysis.Text

/-- The characters before the first one of a kind, and those after it. -/
def cutWhere? (p : Char → Bool) : List Char → Option (List Char × List Char)
  | [] => none
  | c :: cs => if p c then some ([], cs) else (cutWhere? p cs).map fun (a, b) => (c :: a, b)

/-- The text before the first occurrence of a character and the text after it. -/
def cut? (c : Char) (s : String) : Option (String × String) :=
  (cutWhere? (· = c) s.toList).map fun (a, b) => (String.ofList a, String.ofList b)

/-- The text before the last occurrence of a character and the text after it. -/
def cutLast? (c : Char) (s : String) : Option (String × String) :=
  (cutWhere? (· = c) s.toList.reverse).map fun (a, b) =>
    (String.ofList b.reverse, String.ofList a.reverse)

/-- The text before the first occurrence of a character, or all of it. -/
def before (c : Char) (s : String) : String :=
  match cut? c s with
  | some (a, _) => a
  | none => s

/-- The pieces between characters of a kind, the first piece given in reverse. -/
def piecesFrom (p : Char → Bool) (piece : List Char) : List Char → List (List Char)
  | [] => [piece.reverse]
  | c :: cs => if p c then piece.reverse :: piecesFrom p [] cs else piecesFrom p (c :: piece) cs

/-- The pieces of a text between characters of a kind; there is always at least one. -/
def pieces (p : Char → Bool) (s : String) : List String :=
  (piecesFrom p [] s.toList).map String.ofList

/-- The text after a fixed beginning. -/
def after? (beginning s : String) : Option String :=
  (beginning.toList.isPrefixOf? s.toList).map String.ofList

/-- The text before a fixed end. -/
def without? (ending s : String) : Option String :=
  (ending.toList.isSuffixOf? s.toList).map String.ofList

/-- The text before a fixed end, or all of it. -/
def withoutEnding (ending s : String) : String := (without? ending s).getD s

/-- Whether a text has a fixed beginning. -/
def startsWith (beginning s : String) : Bool := beginning.toList.isPrefixOf s.toList

/-- Whether a text consists of blanks. -/
def isBlankText (s : String) : Bool := s.toList.all isBlank

/-- A text without the blanks around it. -/
def trim (s : String) : String :=
  String.ofList ((s.toList.dropWhile isBlank).reverse.dropWhile isBlank).reverse

end PklAnalysis.Text
