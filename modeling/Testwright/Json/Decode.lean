import Testwright.Json.Basic

/-!
# Reading records from JSON values

A record is an object in which no known name stands twice, or an array of the values of its known
names in their order; unknown names are ignored. Each reader fails on a value of the wrong type.
-/

namespace Testwright.Json

/-- The members of a record with the given names. -/
def record? (known : List String) (j : Json) : Option Json :=
  match j with
  | .obj ms => if known.all fun k => (ms.filter fun m => m.1 == k).length ≤ 1 then some j else none
  | .arr xs => if xs.length ≤ known.length then some (.obj (known.zip xs)) else none
  | _ => none

/-- The member of a name, which must be present. -/
def required? {α : Type} (name : String) (read : Json → Option α) (j : Json) : Option α :=
  (j.get? name).bind read

/-- The member of a name, or a default if it is absent. -/
def optional? {α : Type} (name : String) (default : α) (read : Json → Option α) (j : Json) :
    Option α :=
  match j.get? name with
  | some v => read v
  | none => some default

/-- A value or `null`. -/
def nullable? {α : Type} (read : Json → Option α) : Json → Option (Option α)
  | .null => some none
  | v => (read v).map some

/-- An array of values. -/
def list? {α : Type} (read : Json → Option α) : Json → Option (List α)
  | .arr xs => xs.mapM read
  | _ => none

/-- An array of names, as a set. -/
def names? (j : Json) : Option Names := (list? str? j).map Names.ofList

/-- An object of values, as a map. -/
def dict? {α : Type} (read : Json → Option α) : Json → Option (Dict α)
  | .obj ms => (ms.mapM fun m => (read m.2).map fun v => (m.1, v)).map Dict.ofList
  | _ => none

end Testwright.Json
