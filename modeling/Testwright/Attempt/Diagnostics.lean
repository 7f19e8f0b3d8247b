import Testwright.Data.Dict
import Testwright.Text.Basic
import Testwright.Text.CharClass

/-!
# Class names in compiler diagnostics

A compiler that misses a symbol says where it looked for it, as in `location: class com.acme.Cart`.
`classNames` collects the classes of such lines. Each form of such a line (`Form`) is matched by
itself from left to right, and matches of one form do not overlap.
-/

namespace Testwright.Diagnostics

/-- A part of a form. -/
inductive Part where
  /-- The text itself. -/
  | text (s : String)
  /-- One of two texts. -/
  | either (a b : String)
  /-- Word characters, at least one. -/
  | word
  /-- A name of word characters, points and dollar signs: the class of the form. -/
  | name
  /-- Anything up to and including the next closing parenthesis. -/
  | arguments
  deriving DecidableEq, Repr

/-- A form is its parts in order. -/
abbrev Form := List Part

/-- The forms that name a class. -/
def forms : List Form :=
  [[.text "location: ", .either "class " "interface ", .name],
    [.text "location: variable ", .word, .text " of type ", .name],
    [.text "location: method ", .word, .text "(", .arguments, .text " of class ", .name],
    [.text "location: constructor ", .name, .text "(", .arguments],
    [.text "location: type parameter ", .word, .text " of class ", .name],
    [.text "location: annotation element ", .word, .text " of annotation type ", .name]]

/-- Whether a character can stand in a class name. -/
def isNameChar (c : Char) : Bool := Text.isWord c || c == '.' || c == '$'

/-- Match a form at the beginning of a text: the class and the text after the match. -/
def matchAt? (found : List Char) : Form → List Char → Option (List Char × List Char)
  | [], s => some (found, s)
  | .text t :: parts, s =>
    match Text.dropPrefix? t.toList s with
    | some rest => matchAt? found parts rest
    | none => none
  | .either a b :: parts, s =>
    match Text.dropPrefix? a.toList s with
    | some rest => matchAt? found parts rest
    | none =>
      match Text.dropPrefix? b.toList s with
      | some rest => matchAt? found parts rest
      | none => none
  | .word :: parts, s =>
    if (s.takeWhile Text.isWord).isEmpty then none
    else matchAt? found parts (s.dropWhile Text.isWord)
  | .name :: parts, s =>
    match s.takeWhile isNameChar with
    | [] => none
    | name => matchAt? name parts (s.dropWhile isNameChar)
  | .arguments :: parts, s =>
    match s.dropWhile (· != ')') with
    | [] => none
    | _ :: rest => matchAt? found parts rest

/-- The classes of the matches of a form; `skip` characters belong to the last match. -/
def matchesFrom (form : Form) (skip : Nat) : List Char → List (List Char)
  | [] => []
  | c :: s =>
    match skip with
    | skip + 1 => matchesFrom form skip s
    | 0 =>
      match matchAt? [] form (c :: s) with
      | some (name, rest) => name :: matchesFrom form (s.length - rest.length) s
      | none => matchesFrom form 0 s

/-- The class names of the location lines in diagnostics, without points at their end. -/
def classNames (diagnostics : String) : Names :=
  .ofList <| forms.flatMap fun form =>
    (matchesFrom form 0 diagnostics.toList).map fun name =>
      .ofList (Text.dropEndWhile (· == '.') name)

end Testwright.Diagnostics
