import Testwright.Data.Dict
import Testwright.Number.Binary64

/-!
# JSON values

The values of JSON texts. An object keeps its members as written, repetitions included; a lookup
takes the last member of a name. Numbers without fraction and exponent that fit into 64 bits are
integers, all others binary64 numbers.
-/

namespace Testwright

/-- A JSON value. -/
inductive Json where
  | null
  | bool (value : Bool)
  | int (value : Int)
  | float (value : Binary64)
  | str (value : String)
  | arr (elements : List Json)
  | obj (members : List (String × Json))
  deriving Repr, Inhabited

namespace Json

/-- The members of an object, the elements of no other value. -/
def members : Json → List (String × Json)
  | .obj ms => ms
  | _ => []

/-- The last member of a name. -/
def get? (j : Json) (name : String) : Option Json :=
  (j.members.reverse.find? fun m => m.1 == name).map (·.2)

/-- The member of a name, where absence reads as `null`. -/
def get (j : Json) (name : String) : Json := (j.get? name).getD .null

/-- The elements of an array, and none of any other value. -/
def elements : Json → List Json
  | .arr xs => xs
  | _ => []

/-- The text of a string. -/
def str? : Json → Option String
  | .str s => some s
  | _ => none

/-- The value of a Boolean. -/
def bool? : Json → Option Bool
  | .bool b => some b
  | _ => none

/-- The value of an integer that is not negative and below `2 ^ 64`. -/
def nat? : Json → Option Nat
  | .int i => if 0 ≤ i ∧ i < 0x10000000000000000 then some i.toNat else none
  | _ => none

def number? : Json → Option Binary64
  | .int i => some (.round (decide (i < 0)) i.natAbs 1)
  | .float x => some x
  | _ => none

/-- The elements of an array. -/
def arr? : Json → Option (List Json)
  | .arr xs => some xs
  | _ => none

/-- The members of an object. -/
def obj? : Json → Option (List (String × Json))
  | .obj ms => some ms
  | _ => none

/-- Whether a value is `null`. -/
def isNull : Json → Bool
  | .null => true
  | _ => false

mutual

/-- The value with the members of every object in the order of their names, each name once. -/
def sorted : Json → Json
  | .arr xs => .arr (sortedElements xs)
  | .obj ms => .obj (Dict.ofList (sortedMembers ms)).entries
  | j => j

def sortedElements : List Json → List Json
  | [] => []
  | j :: rest => sorted j :: sortedElements rest

def sortedMembers : List (String × Json) → List (String × Json)
  | [] => []
  | (k, j) :: rest => (k, sorted j) :: sortedMembers rest

end

/-- A natural number. -/
def ofNat (n : Nat) : Json := .int n

/-- The array of some texts. -/
def strings (l : List String) : Json := .arr (l.map .str)

/-- The array of the names of a set, in order. -/
def ofNames (s : Names) : Json := strings s.toList

/-- The object of a map. -/
def ofDict {α : Type} (f : α → Json) (d : Dict α) : Json :=
  .obj (d.entries.map fun e => (e.1, f e.2))

/-- A value, or `null`. -/
def ofOption {α : Type} (f : α → Json) : Option α → Json
  | none => .null
  | some a => f a

end Json

end Testwright
