import Testwright.Text.Basic

/-!
# The entry in the repository's ignore list

The workspace of a project stays out of its repository by an entry in the list `.gitignore`, which
is added once: a list that has the entry is left alone.
-/

namespace Testwright.IgnoreEntry

/-- The name of the workspace's directory. -/
def name : List Char := ".unitsmith".toList

/-- The lines that are added. -/
def lines : List Char := "# unitsmith index and reports\n.unitsmith/\n".toList

/-- Whether a line is the entry, with or without a slash. -/
def isEntry (line : List Char) : Bool :=
  Text.trim line == name || Text.trim line == name ++ ['/']

/-- Whether a list has the entry. -/
def isListed (list : List Char) : Bool := (Text.lines list).any isEntry

/-- A list with the entry behind an empty line. -/
def append (list : List Char) : List Char :=
  list ++ (if list.getLast? = some '\n' then [] else ['\n']) ++ '\n' :: lines

/-- Whether a list, which may not exist yet, has the entry; and the list that has it. -/
def ensure : Option (List Char) → Bool × List Char
  | none => (false, lines)
  | some list => if isListed list then (true, list) else (false, append list)

end Testwright.IgnoreEntry
