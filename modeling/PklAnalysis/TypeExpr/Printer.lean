import PklAnalysis.TypeExpr.Basic

/-!
# The text of an annotation

Arguments and parameters are separated by a comma and a space, alternatives by a bare `|`.
Parentheses stand around a function among alternatives, and around a function or a union before
`?`; nowhere else are they needed.
-/

namespace PklAnalysis.TypeExpr

/-- Whether the text of an annotation is put in parentheses before `?`. -/
def isCompound : TypeExpr → Bool
  | .function .. | .union _ => true
  | _ => false

/-- Whether an annotation is a function, whose text swallows what follows its arrow. -/
def isFunction : TypeExpr → Bool
  | .function .. => true
  | _ => false

/-- A text, in parentheses if asked for. -/
def enclosed (parens : Bool) (text : List Char) : List Char :=
  if parens then '(' :: (text ++ [')']) else text

mutual

/-- The written form, character by character. -/
def chars : TypeExpr → List Char
  | .named name [] => name.toList
  | .named name (a :: as) => name.toList ++ '<' :: (separated (a :: as) ++ ['>'])
  | .nullable inner => enclosed inner.isCompound (chars inner) ++ ['?']
  | .union members => alternatives members
  | .function params result => '(' :: (separated params ++ (") -> ".toList ++ chars result))
  | .literal text => '"' :: (text.toList ++ ['"'])
  | .unknown => "unknown".toList
  | .nothing => "nothing".toList
  | .enclosingModule => "module".toList

/-- Annotations with a comma and a space between. -/
def separated : List TypeExpr → List Char
  | [] => []
  | [a] => chars a
  | a :: b :: as => chars a ++ ',' :: ' ' :: separated (b :: as)

/-- Alternatives with a bar between. -/
def alternatives : List TypeExpr → List Char
  | [] => []
  | [a] => enclosed a.isFunction (chars a)
  | a :: b :: as => enclosed a.isFunction (chars a) ++ '|' :: alternatives (b :: as)

end

/-- The written form. -/
def text (a : TypeExpr) : String := String.ofList a.chars

end PklAnalysis.TypeExpr
