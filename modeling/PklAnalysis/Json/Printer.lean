import PklAnalysis.Json.Basic

/-!
# Writing JSON

`Json.compact` writes a value without any space, `Json.pretty` with one member a line and two
spaces for each level.  Empty arrays and objects are a pair of brackets in both.  What is invalid
has no text of its own and is written as `null`.
-/

namespace PklAnalysis.Json

/-- A hexadecimal digit. -/
def hexChar (n : Nat) : Char :=
  if n < 10 then Char.ofNat ('0'.toNat + n) else Char.ofNat ('a'.toNat + (n - 10))

/-- A character inside a string. -/
def charText (c : Char) : List Char :=
  match c with
  | '"' => ['\\', '"']
  | '\\' => ['\\', '\\']
  | '\n' => ['\\', 'n']
  | '\r' => ['\\', 'r']
  | '\t' => ['\\', 't']
  | '\x08' => ['\\', 'b']
  | '\x0c' => ['\\', 'f']
  | c =>
    if c.toNat < 0x20 then ['\\', 'u', '0', '0', hexChar (c.toNat / 16), hexChar (c.toNat % 16)]
    else [c]

/-- A string between quotes. -/
def quoted (s : String) : String :=
  "\"" ++ String.ofList (s.toList.flatMap charText) ++ "\""

mutual

/-- A value on one line without spaces. -/
def compact : Json → String
  | .null | .invalid => "null"
  | .bool true => "true"
  | .bool false => "false"
  | .int i => toString i
  | .real x => x.text
  | .str s => quoted s
  | .arr items => "[" ++ ",".intercalate (compactItems items) ++ "]"
  | .obj fields => "\x7b" ++ ",".intercalate (compactFields fields) ++ "\x7d"

def compactItems : List Json → List String
  | [] => []
  | v :: vs => compact v :: compactItems vs

def compactFields : List (String × Json) → List String
  | [] => []
  | (name, v) :: fs => (quoted name ++ ":" ++ compact v) :: compactFields fs

end

/-- The start of a line at a level. -/
def indentation (level : Nat) : String := "\n" ++ String.ofList (List.replicate (2 * level) ' ')

/-- Members between brackets, each on a line of its own. -/
def block (opening closing : String) (level : Nat) (members : List String) : String :=
  if members.isEmpty then opening ++ closing
  else
    opening ++ indentation (level + 1)
      ++ ("," ++ indentation (level + 1)).intercalate members ++ indentation level ++ closing

mutual

/-- A value whose members stand one level deeper than the given one. -/
def prettyAt (level : Nat) : Json → String
  | .null | .invalid => "null"
  | .bool true => "true"
  | .bool false => "false"
  | .int i => toString i
  | .real x => x.text
  | .str s => quoted s
  | .arr items => block "[" "]" level (prettyItems level items)
  | .obj fields => block "\x7b" "\x7d" level (prettyFields level fields)

def prettyItems (level : Nat) : List Json → List String
  | [] => []
  | v :: vs => prettyAt (level + 1) v :: prettyItems level vs

def prettyFields (level : Nat) : List (String × Json) → List String
  | [] => []
  | (name, v) :: fs => (quoted name ++ ": " ++ prettyAt (level + 1) v) :: prettyFields level fs

end

/-- A value spread over lines. -/
def pretty (v : Json) : String := prettyAt 0 v

end PklAnalysis.Json
