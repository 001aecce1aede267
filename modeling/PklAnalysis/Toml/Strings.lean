import PklAnalysis.Text.Digit

/-!
# TOML strings

A string stands between quotes, which know escapes, or between apostrophes, which do not.  With
three of them on either side it may hold line breaks, and up to two of its own kind in a row.  The
line break after three opening ones does not belong to it.
-/

namespace PklAnalysis.Toml

/-- Whether a character may stand between tokens on a line. -/
def isSpace (c : Char) : Bool := c = ' ' || c = '\t'

/-- The text from its next token on. -/
def skipSpace (s : List Char) : List Char := s.dropWhile isSpace

/-- What follows a line break. -/
def afterBreak? : List Char → Option (List Char)
  | '\n' :: r | '\r' :: '\n' :: r => some r
  | _ => none

/-- Whether a character may stand for itself in strings and remarks. -/
def isPlain (c : Char) : Bool := c = '\t' || (0x20 ≤ c.toNat && c.toNat ≠ 0x7f)

/-! ## Escapes -/

/-- The character that a one-letter escape stands for. -/
def escaped? (c : Char) : Option Char :=
  match c with
  | '"' | '\\' => some c
  | 'b' => some '\x08'
  | 't' => some '\t'
  | 'n' => some '\n'
  | 'f' => some '\x0c'
  | 'r' => some '\r'
  | _ => none

/-- The character whose number the digits spell, if there is one. -/
def numberedChar? (digits : List Char) : Option Char :=
  let n := Text.numeral 16 digits
  if digits.all (Text.isDigitIn 16) && n.isValidChar then some (Char.ofNat n) else none

/-- A character written by an escape, after the backslash. -/
def escape? : List Char → Option (Char × List Char)
  | 'u' :: a :: b :: c :: d :: r => (numberedChar? [a, b, c, d]).map (·, r)
  | 'U' :: a :: b :: c :: d :: e :: f :: g :: h :: r =>
    (numberedChar? [a, b, c, d, e, f, g, h]).map (·, r)
  | c :: r => (escaped? c).map (·, r)
  | [] => none

/-- What follows a backslash that joins lines: blanks, a line break, and any more of both. -/
def afterJoin? (s : List Char) : Option (List Char) :=
  (afterBreak? (skipSpace s)).map skipBlank
where
  skipBlank : List Char → List Char
    | ' ' :: r | '\t' :: r | '\n' :: r | '\r' :: '\n' :: r => skipBlank r
    | r => r

/-! ## Strings on one line -/

/-- The characters up to the closing quote, put in reverse before those already read.  The number
bounds them. -/
def quotedTail? : Nat → List Char → List Char → Option (List Char × List Char)
  | 0, _, _ => none
  | n + 1, done, s =>
    match s with
    | '"' :: r => some (done, r)
    | '\\' :: r =>
      match escape? r with
      | some (c, r) => quotedTail? n (c :: done) r
      | none => none
    | c :: r => if isPlain c then quotedTail? n (c :: done) r else none
    | [] => none

/-- The characters up to the closing apostrophe, put in reverse before those already read. -/
def verbatimTail? (done : List Char) : List Char → Option (List Char × List Char)
  | '\'' :: r => some (done, r)
  | c :: r => if isPlain c then verbatimTail? (c :: done) r else none
  | [] => none

/-! ## Strings on several lines -/

/-- What follows the quotes that close a string, if those at the front do, and how many of them
still belong to it.  Of three to five the last three close. -/
def closing? (quote : Char) (s : List Char) : Option (Nat × List Char) :=
  let count := ((s.take 5).takeWhile (· = quote)).length
  if 3 ≤ count then some (count - 3, s.drop count) else none

/-- The characters up to three closing quotes of a kind, put in reverse before those already read;
escapes count if they are asked for.  The number bounds the characters. -/
def linesTail? (quote : Char) (escapes : Bool) :
    Nat → List Char → List Char → Option (List Char × List Char)
  | 0, _, _ => none
  | n + 1, done, s =>
    match closing? quote s with
    | some (count, r) => some (List.replicate count quote ++ done, r)
    | none =>
      match afterBreak? s with
      | some r => linesTail? quote escapes n ('\n' :: done) r
      | none =>
        match s with
        | [] => none
        | c :: r =>
          if escapes && c = '\\' then
            match afterJoin? r with
            | some r => linesTail? quote escapes n done r
            | none =>
              match escape? r with
              | some (c, r) => linesTail? quote escapes n (c :: done) r
              | none => none
          else if isPlain c then linesTail? quote escapes n (c :: done) r
          else none

/-! ## Strings -/

/-- A string on one line. -/
def shortString? : List Char → Option (String × List Char)
  | '"' :: r => (quotedTail? (r.length + 1) [] r).map fun (cs, r) => (String.ofList cs.reverse, r)
  | '\'' :: r => (verbatimTail? [] r).map fun (cs, r) => (String.ofList cs.reverse, r)
  | _ => none

/-- A string on several lines, after its opening quotes. -/
def longString? (quote : Char) (escapes : Bool) (s : List Char) : Option (String × List Char) :=
  let s := (afterBreak? s).getD s
  (linesTail? quote escapes (s.length + 1) [] s).map fun (cs, r) => (String.ofList cs.reverse, r)

/-- A string. -/
def string? : List Char → Option (String × List Char)
  | '"' :: '"' :: '"' :: r => longString? '"' true r
  | '\'' :: '\'' :: '\'' :: r => longString? '\'' false r
  | s => shortString? s

end PklAnalysis.Toml
