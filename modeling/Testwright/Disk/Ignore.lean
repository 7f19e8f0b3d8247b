import Testwright.Disk.Basic
import Testwright.Disk.Glob

/-!
# Files to pass over

Directories can hold lists of patterns for files that a search passes over. Of the patterns in a
list the last one that matches counts, and of the lists that of the innermost directory. The lists
`.gitignore` and `.git/info/exclude` count only inside a repository, up to its top; the list
`.ignore` counts everywhere and goes before them.
-/

namespace Testwright

/-- A line of a list. -/
structure IgnoreRule where
  /-- The patterns of its alternatives. -/
  patterns : List (List Glob.Part)
  /-- Whether what matches is kept. -/
  keeps : Bool
  /-- Whether only directories match. -/
  onlyDirectories : Bool
  deriving DecidableEq, Repr, Inhabited

namespace IgnoreRule

/-- A line without the blanks at its end, unless the last one is escaped. -/
def strip (line : List Char) : List Char :=
  if ['\\', ' '] <:+ line then line else Text.trimEnd line

/-- The pattern of a line as it is matched against paths below its directory: one without slash
matches at any depth. -/
def spread (anchored : Bool) (line : List Char) : List Char :=
  let line :=
    if !anchored && !line.contains '/' && line != ['*', '*'] then '*' :: '*' :: '/' :: line
    else line
  if ['/', '*', '*'] <:+ line then line ++ ['/', '*'] else line

/-- The rule of a line; comments and blank lines hold none, nor do patterns that are not well
formed. -/
def ofLine? (line : List Char) : Option IgnoreRule :=
  match strip line with
  | [] => none
  | '#' :: _ => none
  | line =>
    let (keeps, anchored, line) := match line with
      | '\\' :: '!' :: rest => (false, false, '!' :: rest)
      | '\\' :: '#' :: rest => (false, false, '#' :: rest)
      | '!' :: '/' :: rest => (true, true, rest)
      | '!' :: rest => (true, false, rest)
      | '/' :: rest => (false, true, rest)
      | rest => (false, false, rest)
    let (onlyDirectories, line) :=
      if line.getLast? == some '/' then
        let line := line.dropLast
        (true, if line.getLast? == some '\\' then line.dropLast else line)
      else (false, line)
    (Glob.read? (spread anchored line)).map fun patterns => { patterns, keeps, onlyDirectories }

def ofText (text : String) : List IgnoreRule :=
  let s := match text.toList with
    | '\uFEFF' :: rest => rest
    | s => s
  (Text.lines s).filterMap ofLine?

/-- Whether a rule applies to a path below its directory. -/
def applies (isDirectory : Bool) (path : List Char) (r : IgnoreRule) : Bool :=
  (isDirectory || !r.onlyDirectories) && r.patterns.any fun parts => Glob.isMatch parts path

/-- Whether a list passes over a path (`true`), keeps it (`false`) or says nothing. -/
def verdict? (rules : List IgnoreRule) (isDirectory : Bool) (path : List Char) : Option Bool :=
  (rules.reverse.find? (applies isDirectory path)).map fun r => !r.keeps

end IgnoreRule

/-- The lists of a directory. -/
structure IgnoreLists where
  place : String
  ignore : List IgnoreRule
  repository : List IgnoreRule
  exclude : List IgnoreRule
  /-- Whether the directory is the top of a repository. -/
  isRepository : Bool
  deriving DecidableEq, Repr, Inhabited

namespace Disk

def rules (d : Disk) (path : String) : List IgnoreRule :=
  match d.readText path with
  | .ok text => IgnoreRule.ofText text
  | .error _ => []

def ignoreLists (d : Disk) (place : String) : IgnoreLists where
  place
  ignore := d.rules (childPlace place ".ignore")
  repository := d.rules (childPlace place ".gitignore")
  exclude := d.rules (childPlace place ".git/info/exclude")
  isRepository := d.isPresent (childPlace place ".git")

/-- A place and the directories that hold it, from within; the count bounds their number. -/
def enclosing : Nat → String → List String
  | 0, _ => []
  | n + 1, place => if place == "/" then ["/"] else place :: enclosing n (parentPlace place)

/-- A place as seen from a directory that holds it. -/
def relative (directory place : String) : List Char :=
  let front := if directory == "/" then ['/'] else directory.toList ++ ['/']
  (Text.dropPrefix? front place.toList).getD place.toList

/-- What the first list says that says anything, from within. -/
def firstVerdict? (select : IgnoreLists → List IgnoreRule) (isDirectory : Bool) (place : String)
    (lists : List IgnoreLists) : Option Bool :=
  lists.findSome? fun l => IgnoreRule.verdict? (select l) isDirectory (relative l.place place)

/-- The lists up to the top of the innermost repository. -/
def inRepository : List IgnoreLists → List IgnoreLists
  | [] => []
  | l :: rest => if l.isRepository then [l] else l :: inRepository rest

/-- Whether a search passes over a place, by the lists of the directories that hold it, from
within. What no list mentions is passed over if its name begins with a dot. -/
def passesOver (lists : List IgnoreLists) (isDirectory : Bool) (name place : String) : Bool :=
  let repository := if lists.any IgnoreLists.isRepository then inRepository lists else []
  let verdict :=
    (firstVerdict? IgnoreLists.ignore isDirectory place lists).or
      ((firstVerdict? IgnoreLists.repository isDirectory place repository).or
        (firstVerdict? IgnoreLists.exclude isDirectory place repository))
  verdict.getD (name.toList.head? == some '.')

/-- The files below a directory that a search does not pass over; the count bounds its depth. -/
def filesBelow (d : Disk) : Nat → String → List String
  | 0, _ => []
  | depth + 1, path =>
    match d.place path, d.list path with
    | .ok place, .ok names =>
      let lists := (enclosing (place.length + 1) place).map d.ignoreLists
      names.flatMap fun name =>
        let child := Path.join path name
        let isDirectory := d.isDirectory child
        if passesOver lists isDirectory name (childPlace place name) then []
        else if isDirectory then d.filesBelow depth child
        else [child]
    | _, _ => []

/-- The file at a path, or the files below it that a search does not pass over. -/
def search (d : Disk) (path : String) : List String :=
  if d.isFile path then [path] else d.filesBelow (d.nodes.size + 1) path

end Disk

end Testwright
