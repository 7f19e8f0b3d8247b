import Testwright.Json.Decode
import Testwright.Project.Model

/-!
# The stored form of a project

How classes and their methods are written as JSON values and read back. Every part of a class or
method may be absent and is then empty; the parts of a member must be present.
-/

namespace Testwright

/-- The stored form of calls. -/
def Calls.toJson (c : Calls) : Json := .ofDict Json.ofNames c

/-- Calls from their stored form. -/
def Calls.ofJson? : Json → Option Calls := Json.dict? Json.names?

namespace Member

/-- The stored form of a member. -/
def toJson (m : Member) : Json :=
  .obj [("signature", .str m.signature), ("brief", .str m.brief), ("source", .str m.source)]

/-- A member from its stored form. -/
def ofJson? (j : Json) : Option Member := do
  let j ← j.record? ["signature", "brief", "source"]
  let signature ← j.required? "signature" Json.str?
  let brief ← j.required? "brief" Json.str?
  let source ← j.required? "source" Json.str?
  return { signature, brief, source }

end Member

namespace MethodInfo

/-- The stored form of a method. -/
def toJson (m : MethodInfo) : Json :=
  .obj
    [("name", .str m.name), ("signature", .str m.signature), ("descriptor", .str m.descriptor),
      ("brief", .str m.brief), ("source", .str m.source), ("dependent_methods", m.calls.toJson)]

/-- A method from its stored form. -/
def ofJson? (j : Json) : Option MethodInfo := do
  let j ← j.record?
    ["name", "signature", "descriptor", "brief", "source", "dependent_methods"]
  let name ← j.optional? "name" "" Json.str?
  let signature ← j.optional? "signature" "" Json.str?
  let descriptor ← j.optional? "descriptor" "" Json.str?
  let brief ← j.optional? "brief" "" Json.str?
  let source ← j.optional? "source" "" Json.str?
  let calls ← j.optional? "dependent_methods" ∅ Calls.ofJson?
  return { name, signature, descriptor, brief, source, calls }

end MethodInfo

namespace ClassInfo

/-- The stored form of a class. -/
def toJson (c : ClassInfo) : Json :=
  .obj
    [("full_name", .str c.fullName), ("name", .str c.name), ("package", .str c.package),
      ("signature", .str c.header), ("imports", .strings c.imports),
      ("fields", .strings c.fields), ("constructors", .arr (c.constructors.map Member.toJson)),
      ("accessors", .arr (c.accessors.map Member.toJson)),
      ("constructor_deps", c.constructorCalls.toJson),
      ("methods", .ofDict MethodInfo.toJson c.methods)]

/-- A class from its stored form. -/
def ofJson? (j : Json) : Option ClassInfo := do
  let j ← j.record?
    ["full_name", "name", "package", "signature", "imports", "fields", "constructors",
      "accessors", "constructor_deps", "methods"]
  let fullName ← j.optional? "full_name" "" Json.str?
  let name ← j.optional? "name" "" Json.str?
  let package ← j.optional? "package" "" Json.str?
  let header ← j.optional? "signature" "" Json.str?
  let imports ← j.optional? "imports" [] (Json.list? Json.str?)
  let fields ← j.optional? "fields" [] (Json.list? Json.str?)
  let constructors ← j.optional? "constructors" [] (Json.list? Member.ofJson?)
  let accessors ← j.optional? "accessors" [] (Json.list? Member.ofJson?)
  let constructorCalls ← j.optional? "constructor_deps" ∅ Calls.ofJson?
  let methods ← j.optional? "methods" ∅ (Json.dict? MethodInfo.ofJson?)
  some
    { fullName, name, package, header, imports, fields, constructors, accessors,
      constructorCalls, methods }

end ClassInfo

end Testwright
