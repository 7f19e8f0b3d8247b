import Testwright.Data.Dict
import Testwright.Text.Basic

/-!
# The model of a project

Classes, their methods and the calls between them. Calls are kept as the called class and the
signatures of the called methods; a signature without blanks is the key under which a class keeps
a method.

* `ClassInfo.method?_insertMethod`: a lookup finds the last method inserted under its signature;
* `Project.class?_insert_self`: every class is found under its full name.
-/

namespace Testwright

/-- A signature without its blanks. -/
def normalizeSignature (s : String) : String := onChars Text.squeeze s

/-- The signatures of a set without their blanks. -/
def normalizeSignatures (s : Names) : Names := .ofList (s.toList.map normalizeSignature)

/-- The last part of a name with points, without type arguments. -/
def simpleName (name : String) : String :=
  onChars (fun s => Text.afterLast '.' (Text.before '<' s)) name

/-- The signatures called, by the class that is called. -/
abbrev Calls := Dict Names

namespace Calls

def add (c : Calls) (target : String) (signatures : Names) : Calls :=
  c.alter target fun old => (old.getD ∅).union signatures

/-- The calls with the class and its signatures as a pair. -/
def edges (c : Calls) : List (String × Names) := c.entries

end Calls

/-- A constructor or accessor of a class. -/
structure Member where
  signature : String
  /-- The declaration without its body. -/
  brief : String
  source : String
  deriving DecidableEq, Repr, Inhabited

/-- A method of a class. -/
structure MethodInfo where
  name : String := ""
  signature : String := ""
  /-- The types of the parameters and the result in the form of class files. -/
  descriptor : String := ""
  /-- The declaration without its body. -/
  brief : String := ""
  source : String := ""
  /-- The calls the method makes; those within its class are under the name of the class. -/
  calls : Calls := ∅
  deriving DecidableEq, Repr, Inhabited

/-- A class, interface, enumeration or record of a project. -/
structure ClassInfo where
  fullName : String := ""
  name : String := ""
  /-- The package declaration, empty for the default package. -/
  package : String := ""
  /-- The declaration without its body. -/
  header : String := ""
  imports : List String := []
  fields : List String := []
  constructors : List Member := []
  accessors : List Member := []
  /-- The calls that constructors make to other classes. -/
  constructorCalls : Calls := ∅
  /-- The methods by their signature. -/
  methods : Dict MethodInfo := ∅
  deriving DecidableEq, Repr, Inhabited

namespace ClassInfo

def hasConstructor (c : ClassInfo) : Bool := !c.constructors.isEmpty

/-- Whether a name is the full or the simple name of a class. -/
def isNamed (c : ClassInfo) (name : String) : Bool := name == c.fullName || name == c.name

/-- The method of a signature, whatever its blanks. -/
def method? (c : ClassInfo) (signature : String) : Option MethodInfo :=
  c.methods.get? (normalizeSignature signature)

/-- Put a method into a class under its signature without blanks. -/
def insertMethod (c : ClassInfo) (m : MethodInfo) : ClassInfo :=
  let key := normalizeSignature m.signature
  { c with methods := c.methods.insert key { m with signature := key } }

/-- A lookup finds the last method inserted under its signature. -/
theorem method?_insertMethod (c : ClassInfo) (m : MethodInfo) (s : String) :
    (c.insertMethod m).method? s =
      if normalizeSignature m.signature = normalizeSignature s then
        some { m with signature := normalizeSignature m.signature }
      else c.method? s := by
  simp [method?, insertMethod]

/-- The header and fields of a class with the sources of the wanted methods. -/
def excerpt (c : ClassInfo) (wanted : Names) : String :=
  let package := if c.package.isEmpty then "" else c.package ++ "\n"
  let fields := String.join (c.fields.map fun f => "    " ++ f ++ "\n")
  let methods := String.join <| wanted.toList.map fun s =>
    match c.method? s with
    | some m => "\n" ++ m.source ++ "\n"
    | none => ""
  package ++ c.header ++ " \x7b\n" ++ fields ++ methods ++ "\x7d"

end ClassInfo

/-- The classes of a project by their full names. -/
structure Project where
  classes : Dict ClassInfo := ∅
  deriving DecidableEq, Repr, Inhabited

namespace Project

/-- The version of the form in which projects are stored. -/
def version : String := "0.3.0"

/-- Put a class into a project, replacing the one of its full name. -/
def insert (p : Project) (c : ClassInfo) : Project := ⟨p.classes.insert c.fullName c⟩

/-- The project of some classes; of two with one full name the later counts. -/
def ofList (l : List ClassInfo) : Project := l.foldl insert {}

/-- The number of classes. -/
def size (p : Project) : Nat := p.classes.size

/-- The number of methods of all classes. -/
def methodCount (p : Project) : Nat :=
  p.classes.values.foldl (fun n c => n + c.methods.size) 0

/-- The class of a full name, or of a simple name that only one class has. -/
def class? (p : Project) (name : String) : Option ClassInfo :=
  match p.classes.get? name with
  | some c => some c
  | none =>
    if name.toList.contains '.' then none
    else
      match p.classes.values.filter fun c => c.name == name with
      | [c] => some c
      | _ => none

/-- Every class is found under its full name. -/
theorem class?_insert_self (p : Project) (c : ClassInfo) :
    (p.insert c).class? c.fullName = some c := by
  simp [class?, insert]

end Project

end Testwright
