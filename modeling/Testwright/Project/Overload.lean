import Testwright.Project.Model

/-!
# Overloads

A call is recorded with the types of its arguments as far as they are known; a declared method has
the types of its parameters. This file relates the two:

* `matching`: the declared signatures a call may bind to, exact types before widened ones;
* `reconcileWanted`: called signatures as the signatures that their class declares;
* `Project.reconcile`: a project whose calls are declared signatures wherever only one fits.
-/

namespace Testwright

/-- The type of an argument about which nothing is known. -/
def unknownType : String := "?"

namespace Overload

/-- Parameter types up to the commas outside angle brackets. `depth` counts the open brackets and
`current` holds the type so far, last character first. -/
def splitTypes (depth : Nat) (current : List Char) : List Char → List String
  | [] => [.ofList current.reverse]
  | c :: rest =>
    if c = ',' ∧ depth = 0 then .ofList current.reverse :: splitTypes 0 [] rest
    else
      let depth := if c = '<' then depth + 1 else if c = '>' then depth - 1 else depth
      splitTypes depth (c :: current) rest

/-- The name and the parameter types of a signature. The last character is taken for the closing
parenthesis and must be a single byte. -/
def splitSignature? (signature : String) : Option (String × List String) :=
  match Text.cutAt? '(' signature.toList with
  | none => none
  | some (name, rest) =>
    match rest.reverse with
    | [] => none
    | last :: inner =>
      if last.toNat < 0x80 then
        match inner.reverse with
        | [] => some (.ofList name, [])
        | inner => some (.ofList name, splitTypes 0 [] inner)
      else none

/-- A type without type arguments, package and outer class. -/
def rawType (t : List Char) : List Char := Text.afterLast '.' (Text.before '<' t)

/-- A type without the points of a parameter for any number of arguments. -/
def dropSpread (t : List Char) : List Char :=
  let points := (t.reverse.takeWhile (· == '.')).length
  t.take (t.length - points / 3 * 3)

/-- The primitive types to which a primitive type widens. -/
def widened (t : String) : List String :=
  match t with
  | "byte" => ["short", "int", "long", "float", "double"]
  | "short" => ["int", "long", "float", "double"]
  | "char" => ["int", "long", "float", "double"]
  | "int" => ["long", "float", "double"]
  | "long" => ["float", "double"]
  | "float" => ["double"]
  | _ => []

/-- The primitive types with their classes. -/
def boxes : List (String × String) :=
  [("boolean", "Boolean"), ("byte", "Byte"), ("short", "Short"), ("char", "Character"),
    ("int", "Integer"), ("long", "Long"), ("float", "Float"), ("double", "Double")]

/-- Whether an argument of a type can be passed for a declared type; `widen` also admits
widening, boxing and parameters of type `Object`. -/
def fits (widen : Bool) (declared argument : String) : Bool :=
  if argument = unknownType ∨ declared = argument then true
  else
    let declared := String.ofList (rawType declared.toList)
    let argument := String.ofList (rawType (dropSpread argument.toList))
    declared == argument ||
      widen && (declared == "Object" || (widened argument).contains declared ||
        boxes.contains (argument, declared) || boxes.contains (declared, argument))

/-- Whether two signatures have one name and one number of parameters. -/
def sameShape (call declared : String) : Bool :=
  match splitSignature? call, splitSignature? declared with
  | some (name, args), some (name', params) => name == name' && args.length == params.length
  | _, _ => false

/-- Whether a call may bind to a declared signature. -/
def binds (widen : Bool) (call declared : String) : Bool :=
  match splitSignature? call, splitSignature? declared with
  | some (name, args), some (name', params) =>
    name == name' && args.length == params.length &&
      (params.zip args).all fun (p, a) => fits widen p a
  | _, _ => false

/-- The declared signatures that a call may bind to; widening counts only where no signature fits
without it. -/
def matching (call : String) (declared : List String) : List String :=
  match declared.filter (binds false call) with
  | [] => declared.filter (binds true call)
  | exact => exact

/-- The declared signature that replaces a call: the only one it may bind to, unless the call is
declared as it is. -/
def declaredFor? (call : String) (declared : List String) : Option String :=
  if declared.contains call then none
  else match matching call declared with
    | [only] => some only
    | _ => none

/-- The declared signatures that stand for a call: itself if declared, those it may bind to, those
of its name and number of parameters, or the call. -/
def standIns (declared : List String) (call : String) : List String :=
  if declared.contains call then [call]
  else match matching call declared with
    | [] =>
      match declared.filter (sameShape call) with
      | [] => [call]
      | found => found
    | found => found

/-- Called signatures as signatures that the called class declares. -/
def reconcileWanted (wanted : Names) (declared : List String) : Names :=
  .ofList (wanted.toList.flatMap (standIns declared))

/-- Calls with every signature replaced that only one declared signature fits. Classes without
declared signatures keep theirs. -/
def reconcileCalls (declared : String → Option (List String)) (calls : Calls) : Calls :=
  calls.mapWithKey fun target signatures =>
    match declared target with
    | none => signatures
    | some ds => .ofList (signatures.toList.map fun s => (declaredFor? s ds).getD s)

/-- Classes with their calls reconciled against each other. -/
def reconcileClasses (classes : Dict ClassInfo) : Dict ClassInfo :=
  let declared (name : String) : Option (List String) :=
    (classes.get? name).map fun c => c.methods.keys
  classes.map fun c =>
    { c with
      constructorCalls := reconcileCalls declared c.constructorCalls
      methods := c.methods.map fun m => { m with calls := reconcileCalls declared m.calls } }

end Overload

def Project.reconcile (p : Project) : Project := ⟨Overload.reconcileClasses p.classes⟩

end Testwright
