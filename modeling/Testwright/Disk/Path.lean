import Testwright.Text.Basic

/-!
# Paths

A path is a text whose pieces are separated by slashes. Paths are joined, taken apart and ordered
as texts; what they lead to is the matter of a disk.
-/

namespace Testwright.Path

/-- Whether a path begins at the root of the disk. -/
def isAbsolute (path : String) : Bool := path.toList.head? == some '/'

/-- The path that leads on from a directory; an absolute path leads away from it. -/
def join (base path : String) : String :=
  if isAbsolute path then path
  else if base.isEmpty || base.toList.getLast? == some '/' then base ++ path
  else base ++ "/" ++ path

/-- The pieces of a path between its slashes. -/
def pieces (path : String) : List String := (Text.fields '/' path.toList).map String.ofList

/-- Whether a piece stays where it is. -/
def isIdle (piece : String) : Bool := piece == "" || piece == "."

/-- A step of a path, in the order in which paths are sorted. -/
inductive Component where
  | root
  | current
  | parent
  | name (text : String)
  deriving DecidableEq, Repr, Inhabited

namespace Component

/-- The place of a step's kind in the order. -/
def rank : Component → Nat
  | root => 0
  | current => 1
  | parent => 2
  | name _ => 3

/-- The text of a step. -/
def text : Component → String
  | root => "/"
  | current => "."
  | parent => ".."
  | name text => text

/-- Whether a step comes before another one. -/
def isBefore (a b : Component) : Bool :=
  a.rank < b.rank || (a.rank == b.rank && a.text < b.text)

end Component

/-- The step of a piece. -/
def component (piece : String) : Component := if piece == ".." then .parent else .name piece

/-- The steps of a path. Repeated slashes count as one, and a dot counts only at the beginning of
a path that is not absolute. -/
def components (path : String) : List Component :=
  let ps := pieces path
  let steps := (ps.filter fun p => !isIdle p).map component
  if isAbsolute path then .root :: steps
  else if ps.head? == some "." then .current :: steps
  else steps

/-- Whether one list of steps comes before another or equals it. -/
def inOrder : List Component → List Component → Bool
  | [], _ => true
  | _ :: _, [] => false
  | a :: as, b :: bs => a.isBefore b || (a == b && inOrder as bs)

/-- Paths sorted by their steps; equal ones keep their order. -/
def sort (paths : List String) : List String :=
  paths.mergeSort fun a b => inOrder (components a) (components b)

/-- The path of some steps. -/
def ofComponents : List Component → String
  | [] => ""
  | .root :: steps => "/" ++ "/".intercalate (steps.map Component.text)
  | steps => "/".intercalate (steps.map Component.text)

/-- The path without its last step. -/
def parent? (path : String) : Option String :=
  match (components path).reverse with
  | [] => none
  | .root :: _ => none
  | _ :: front => some (ofComponents front.reverse)

def fileName? (path : String) : Option String :=
  match (components path).getLast? with
  | some (.name text) => some text
  | _ => none

/-- A file name cut at its last dot, if that is not its first character. -/
def cutExtension (name : String) : String × Option String :=
  match Text.cutAtLast? '.' name.toList with
  | some (c :: stem, extension) => (.ofList (c :: stem), some (.ofList extension))
  | _ => (name, none)

/-- The extension of the file name at the end of a path. -/
def extension? (path : String) : Option String :=
  (fileName? path).bind fun name => (cutExtension name).2

/-- The path with an extension in place of the one it has; a path without file name stays. -/
def withExtension (extension path : String) : String :=
  match fileName? path with
  | none => path
  | some name =>
    let body := Text.dropEndWhile (· == '/') path.toList
    let front := body.take (body.length - name.length)
    .ofList front ++ (cutExtension name).1 ++ "." ++ extension

/-- A list of paths as one text, separated by colons; fails if one of them holds a colon. -/
def joinList? (paths : List String) : Option String :=
  if paths.any fun p => p.toList.contains ':' then none else some (":".intercalate paths)

end Testwright.Path
