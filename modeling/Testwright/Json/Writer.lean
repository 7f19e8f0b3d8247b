import Testwright.Json.Basic

/-!
# Writing JSON

`Json.compact` writes a value on one line; `Json.pretty` puts every element and member on a line
of its own, indented by two blanks a level.
-/

namespace Testwright.Json

/-- The escape of a character inside a string. -/
def escape (c : Char) : List Char :=
  if c = '"' then ['\\', '"']
  else if c = '\\' then ['\\', '\\']
  else if c = '\n' then ['\\', 'n']
  else if c = '\r' then ['\\', 'r']
  else if c = '\t' then ['\\', 't']
  else if c = '\x08' then ['\\', 'b']
  else if c = '\x0c' then ['\\', 'f']
  else if c.toNat < 0x20 then ['\\', 'u'] ++ (Binary64.padded 16 4 c.toNat).toList
  else [c]

def quoted (s : String) : String := .ofList ('"' :: s.toList.flatMap escape ++ ['"'])

mutual

/-- The text of a value on one line. -/
def compact : Json → String
  | .null => "null"
  | .bool b => if b then "true" else "false"
  | .int i => toString i
  | .float x => x.shortest
  | .str s => quoted s
  | .arr xs => "[" ++ ",".intercalate (compactElements xs) ++ "]"
  | .obj ms => "\x7b" ++ ",".intercalate (compactMembers ms) ++ "\x7d"

/-- The texts of the elements of an array. -/
def compactElements : List Json → List String
  | [] => []
  | v :: rest => compact v :: compactElements rest

/-- The texts of the members of an object. -/
def compactMembers : List (String × Json) → List String
  | [] => []
  | (k, v) :: rest => (quoted k ++ ":" ++ compact v) :: compactMembers rest

end

/-- The line break and indentation of a level. -/
def newline (level : Nat) : String := "\n" ++ String.ofList (List.replicate (2 * level) ' ')

mutual

/-- The text of a value at an indentation level, an element or member a line. -/
def prettyAt (level : Nat) : Json → String
  | .null => "null"
  | .bool b => if b then "true" else "false"
  | .int i => toString i
  | .float x => x.shortest
  | .str s => quoted s
  | .arr [] => "[]"
  | .arr (v :: rest) =>
    "[" ++ newline (level + 1) ++ prettyAt (level + 1) v ++ prettyElements (level + 1) rest
      ++ newline level ++ "]"
  | .obj [] => "\x7b\x7d"
  | .obj ((k, v) :: rest) =>
    "\x7b" ++ newline (level + 1) ++ quoted k ++ ": " ++ prettyAt (level + 1) v
      ++ prettyMembers (level + 1) rest ++ newline level ++ "\x7d"

/-- The texts of the elements after the first. -/
def prettyElements (level : Nat) : List Json → String
  | [] => ""
  | v :: rest => "," ++ newline level ++ prettyAt level v ++ prettyElements level rest

/-- The texts of the members after the first. -/
def prettyMembers (level : Nat) : List (String × Json) → String
  | [] => ""
  | (k, v) :: rest =>
    "," ++ newline level ++ quoted k ++ ": " ++ prettyAt level v ++ prettyMembers level rest

end

/-- The text of a value, an element or member a line. -/
def pretty (j : Json) : String := prettyAt 0 j

end Testwright.Json
