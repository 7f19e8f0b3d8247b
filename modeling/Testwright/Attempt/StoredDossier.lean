import Testwright.Attempt.Dossier
import Testwright.Json.Decode

/-!
# The stored form of a dossier

A dossier as a JSON value with a member for each of its parts, and changes to a dossier given as
such a value.
-/

namespace Testwright

namespace UnitTest

/-- The stored form of a test. -/
def toJson (t : UnitTest) : Json :=
  .obj [("class_name", .str t.className), ("source", .str t.source)]

/-- A test from its stored form; a part that is absent is empty. -/
def ofJson? (j : Json) : Option UnitTest :=
  match j with
  | .obj _ => some ⟨(j.get "class_name").str?.getD "", (j.get "source").str?.getD ""⟩
  | _ => none

end UnitTest

namespace Failure

/-- The stored form of a failure. -/
def toJson (f : Failure) : Json :=
  .obj [("round", .ofNat f.round), ("diagnostics", .str f.diagnostics)]

end Failure

namespace Dossier

/-- The stored form of a dossier. -/
def toJson (d : Dossier) : Json :=
  .obj
    [("class_name", .str d.className), ("simple_class_name", .str d.simpleClassName),
      ("package", .str d.package), ("method_name", .str d.methodName),
      ("method_signature", .str d.methodSignature), ("method_descriptor", .str d.methodDescriptor),
      ("method_source", .str d.methodSource), ("attempt", .ofNat d.attempt),
      ("round", .ofNat d.round), ("context", .str d.context),
      ("other_method_brief", .str d.otherBriefs), ("other_method_bodies", .str d.otherBodies),
      ("constructor_deps", .ofDict .str d.constructorDeps),
      ("external_constructor_deps", .ofDict .str d.externalConstructorDeps),
      ("method_deps", .ofDict .str d.methodDeps),
      ("external_method_deps", .ofDict .str d.externalMethodDeps),
      ("activations", .ofNat d.activations), ("fallback_classes", .ofNames d.reconstructed),
      ("unit_test", .ofOption UnitTest.toJson d.unitTest),
      ("failures", .arr (d.failures.map Failure.toJson))]

/-- A dossier with the parts of a value in place of its own; classes that were activated are
added. -/
def update (d : Dossier) (j : Json) : Dossier :=
  let text (name old : String) : String := (j.get name).str?.getD old
  let count (name : String) (old : Nat) : Nat := (j.get name).nat?.getD old
  let map (name : String) (old : Dict String) : Dict String :=
    (Json.dict? Json.str? (j.get name)).getD old
  let changed : Dossier :=
    { d with
      className := text "class_name" d.className
      simpleClassName := text "simple_class_name" d.simpleClassName
      package := text "package" d.package
      methodName := text "method_name" d.methodName
      methodSignature := text "method_signature" d.methodSignature
      methodDescriptor := text "method_descriptor" d.methodDescriptor
      methodSource := text "method_source" d.methodSource
      attempt := count "attempt" d.attempt
      round := count "round" d.round
      context := text "context" d.context
      otherBriefs := text "other_method_brief" d.otherBriefs
      otherBodies := text "other_method_bodies" d.otherBodies
      constructorDeps := map "constructor_deps" d.constructorDeps
      externalConstructorDeps := map "external_constructor_deps" d.externalConstructorDeps
      methodDeps := map "method_deps" d.methodDeps
      externalMethodDeps := map "external_method_deps" d.externalMethodDeps
      unitTest := (UnitTest.ofJson? (j.get "unit_test")).or d.unitTest }
  ((j.get "activated").elements.filterMap Json.str?).foldl Dossier.activate changed

end Dossier

end Testwright
