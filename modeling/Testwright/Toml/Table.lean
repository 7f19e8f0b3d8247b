import Testwright.Json.Basic

/-!
# Tables of TOML documents

A TOML document fills a tree of tables line by line. Each table remembers what brought it about
(`Origin`), for this decides what later lines may add to it: a header may name a table once, a
dotted key adds only to tables of dotted keys, and a value is never extended.
-/

namespace Testwright.Toml

/-- What brought a table about. -/
inductive Origin where
  /-- A header of a table below it. -/
  | implicit
  /-- Its own header. -/
  | header
  /-- A dotted key. -/
  | dotted
  deriving DecidableEq, Repr, Inhabited

/-- What stands under a key. -/
inductive Node where
  | value (j : Json)
  | table (origin : Origin) (entries : List (String × Node))
  /-- An array of tables, the latest first. -/
  | tables (items : List (List (String × Node)))
  deriving Repr, Inhabited

/-- The entries of a table in the order of their lines. -/
abbrev Entries := List (String × Node)

/-- A change of a table, which may be refused. -/
abbrev Change := Origin → Entries → Option (Origin × Entries)

namespace Entries

/-- What stands under a key. -/
def find? (es : Entries) (key : String) : Option Node :=
  (List.find? (fun e => e.1 == key) es).map (·.2)

/-- Replace what stands under a key. -/
def set (es : Entries) (key : String) (n : Node) : Entries :=
  es.map fun e => if e.1 == key then (key, n) else e

end Entries

/-- Change the table at the end of a path; tables that are missing on the way are made. -/
def atPath (dotted : Bool) (change : Change) : List String → Change
  | [], origin, es => change origin es
  | key :: path, origin, es =>
    match es.find? key with
    | none =>
      (atPath dotted change path (if dotted then .dotted else .implicit) []).map
        fun (o, sub) => (origin, es ++ [(key, .table o sub)])
    | some (.table o sub) =>
      if dotted && o == .header then none
      else
        (atPath dotted change path o sub).map fun (o, sub) => (origin, es.set key (.table o sub))
    | some (.tables (latest :: earlier)) =>
      (atPath dotted change path .header latest).map
        fun (_, sub) => (origin, es.set key (.tables (sub :: earlier)))
    | some (.tables []) => none
    | some (.value _) => none

/-- Put a value under a key, whose table must belong to dotted keys if `nested`. -/
def putValue (nested : Bool) (key : String) (j : Json) : Change := fun origin es =>
  if (origin == .dotted) != nested then none
  else
    match es.find? key with
    | some _ => none
    | none => some (origin, es ++ [(key, .value j)])

def openTable (key : String) : Change := fun origin es =>
  match es.find? key with
  | none => some (origin, es ++ [(key, .table .header [])])
  | some (.table .implicit sub) => some (origin, es.set key (.table .header sub))
  | some _ => none

/-- Open a further table of an array. -/
def openItem (key : String) : Change := fun origin es =>
  match es.find? key with
  | none => some (origin, es ++ [(key, .tables [[]])])
  | some (.tables items) => some (origin, es.set key (.tables ([] :: items)))
  | some _ => none

/-- Put a value under a key, possibly dotted, of a table. -/
def putAt (key : List String) (j : Json) : Change := fun origin es =>
  match key.reverse with
  | [] => none
  | last :: path => atPath true (putValue (!path.isEmpty) last j) path.reverse origin es

mutual

/-- The value of a node. -/
def Node.toJson : Node → Json
  | .value j => j
  | .table _ es => .obj (membersJson es)
  | .tables items => .arr (itemsJson items).reverse

/-- The members of a table. -/
def membersJson : List (String × Node) → List (String × Json)
  | [] => []
  | (k, n) :: rest => (k, n.toJson) :: membersJson rest

/-- The tables of an array. -/
def itemsJson : List (List (String × Node)) → List Json
  | [] => []
  | es :: rest => .obj (membersJson es) :: itemsJson rest

end

end Testwright.Toml
