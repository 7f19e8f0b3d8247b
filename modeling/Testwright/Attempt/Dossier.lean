import Testwright.Project.Model

/-!
# What is known about a method under test

A `Dossier` is assembled for one attempt at one method and grows with the rounds of that attempt:
it holds the method in its class, the sources of the classes the method depends on, the latest
test and the failures so far.

Dependencies are kept by class name in four maps, by what they are needed for (constructors or
calls) and where they come from (the project or compiled libraries).
-/

namespace Testwright

/-- A test class with its full name. -/
structure UnitTest where
  className : String
  source : String
  deriving DecidableEq, Repr, Inhabited

/-- Why a round failed. -/
structure Failure where
  round : Nat
  diagnostics : String
  deriving DecidableEq, Repr, Inhabited

/-- What is known about a method under test. -/
structure Dossier where
  /-- The full name of the class. -/
  className : String := ""
  simpleClassName : String := ""
  /-- The package declaration of the class. -/
  package : String := ""
  methodName : String := ""
  methodSignature : String := ""
  methodDescriptor : String := ""
  methodSource : String := ""
  attempt : Nat := 0
  round : Nat := 0
  /-- Package, imports, header and fields of the class with the method. -/
  context : String := ""
  /-- The other members of the class that matter, without bodies. -/
  otherBriefs : String := ""
  /-- The other members of the class that matter. -/
  otherBodies : String := ""
  /-- Classes that constructors need, from the project. -/
  constructorDeps : Dict String := ∅
  /-- Classes that constructors need, from libraries. -/
  externalConstructorDeps : Dict String := ∅
  /-- Classes that are called, from the project. -/
  methodDeps : Dict String := ∅
  /-- Classes that are called, from libraries. -/
  externalMethodDeps : Dict String := ∅
  /-- The classes that had to be reconstructed from libraries. -/
  reconstructed : Names := ∅
  /-- The latest test. -/
  unitTest : Option UnitTest := none
  /-- The failures so far, the first one first. -/
  failures : List Failure := []
  deriving DecidableEq, Repr, Inhabited

namespace Dossier

/-- The dossier of a method before anything is assembled. -/
def start (c : ClassInfo) (m : MethodInfo) (attempt : Nat) : Dossier where
  className := c.fullName
  simpleClassName := c.name
  package := c.package
  methodName := m.name
  methodSignature := m.signature
  methodDescriptor := m.descriptor
  methodSource := m.source
  attempt

/-- The number of classes that had to be reconstructed. -/
def activations (d : Dossier) : Nat := d.reconstructed.size

/-- Note that a class had to be reconstructed. -/
def activate (d : Dossier) (className : String) : Dossier :=
  { d with reconstructed := d.reconstructed.insert className }

/-- Whether one of the maps holds a class. -/
def hasDependency (d : Dossier) (name : String) : Bool :=
  d.constructorDeps.contains name || d.externalConstructorDeps.contains name ||
    d.methodDeps.contains name || d.externalMethodDeps.contains name

/-- Whether a name is the full or simple name of the class under test. -/
def isTarget (d : Dossier) (name : String) : Bool :=
  name == d.className || name == d.simpleClassName

/-- The context with the other members put before the last occurrence of the method. -/
def fullContext (d : Dossier) : String :=
  match d.methodSource.toList with
  | [] => d.context
  | source =>
    match Text.cutLast? source d.context.toList with
    | none => d.context
    | some (front, back) =>
      let bodies := match Text.trim d.otherBodies.toList with
        | [] => []
        | bodies => bodies ++ ['\n', '\n']
      .ofList (front ++ bodies ++ source ++ back)

def testClassName (d : Dossier) : String :=
  simpleName d.simpleClassName ++ "_" ++ d.methodName ++ "_" ++ toString d.attempt ++ "_Test"

/-- The latest failure. -/
def lastFailure? (d : Dossier) : Option Failure := d.failures.getLast?

/-- Note that the current round failed. -/
def fail (d : Dossier) (diagnostics : String) : Dossier :=
  { d with failures := d.failures ++ [⟨d.round, diagnostics⟩] }

end Dossier

end Testwright
