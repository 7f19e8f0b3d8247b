import Testwright.Attempt.Dossier
import Testwright.Java.Index
import Testwright.Library.Resolver

/-!
# Assembling a dossier

`Assembly.assemble` fills the dossier of a method: first the classes that constructors of its class
need, then those the method calls, and from each of these on along their own calls for a given
number of further steps (`follow`). A class that the method calls counts as called, never as
needed by a constructor, and no class is filed twice. `enrich` adds classes by name later on.

How a class outside the project is resolved is a parameter with a state of its own, which every
step hands on.
-/

namespace Testwright

/-- A way to resolve classes that are not in the project, with a state `σ`. -/
abbrev Resolve (σ : Type) := String → Names → σ → Resolution × σ

/-- What a class is needed for. -/
inductive Need where
  | constructor
  | call
  deriving DecidableEq, Repr

namespace Assembly

variable {σ : Type}

/-! ## Dependencies -/

/-- The calls that the wanted methods of a class make. -/
def callsOf (c : ClassInfo) (wanted : Names) : Calls :=
  (wanted.toList.filterMap c.method?).foldl
    (fun calls m => m.calls.edges.foldl (fun calls e => calls.add e.1 e.2) calls) ∅

/-- The calls that the wanted methods of a reconstructed class make. -/
def reconstructedCalls (className source : String) (wanted : Names) : Calls :=
  match Java.indexSource? source.toList with
  | none => ∅
  | some classes =>
    match classes.find? (fun c => c.fullName == className) with
    | some c => callsOf c wanted
    | none =>
      match classes.find? (fun c => c.name == simpleName className) with
      | some c => callsOf c wanted
      | none => ∅

/-- Put the source of a class of the project into a dossier. -/
def fileOwn (need : Need) (d : Dossier) (name source : String) : Dossier :=
  match need with
  | .constructor => { d with constructorDeps := d.constructorDeps.insert name source }
  | .call => { d with methodDeps := d.methodDeps.insert name source }

/-- Put the source of a reconstructed class into a dossier. -/
def fileExternal (need : Need) (d : Dossier) (name source : String) : Dossier :=
  let d := d.activate name
  match need with
  | .constructor =>
    { d with externalConstructorDeps := d.externalConstructorDeps.insert name source }
  | .call => { d with externalMethodDeps := d.externalMethodDeps.insert name source }

/-- File a class with its wanted methods: the calls these make, or `none` if the class is in the
dossier already or cannot be resolved. -/
def fileDependency (p : Project) (resolve : Resolve σ) (need : Need) (name : String)
    (wanted : Names) (st : Dossier × σ) : Option Calls × (Dossier × σ) :=
  let (d, s) := st
  if d.hasDependency name then (none, d, s)
  else
    let wanted := normalizeSignatures wanted
    match p.class? name with
    | some c => (some (callsOf c wanted), fileOwn need d name (c.excerpt wanted), s)
    | none =>
      match resolve name wanted s with
      | (.found reconstruction pruned, s) =>
        (some (reconstructedCalls name reconstruction.source pruned.kept),
          fileExternal need d name (.ofList pruned.source), s)
      | (_, s) => (none, d, s)

/-- File the classes behind some calls, and those behind their calls, for a number of steps. -/
def follow (p : Project) (resolve : Resolve σ) : Nat → Calls → Dossier × σ → Dossier × σ
  | 0, _, st => st
  | n + 1, calls, st =>
    calls.edges.foldl (fun st e =>
      if st.1.isTarget e.1 || st.1.hasDependency e.1 then st
      else
        match fileDependency p resolve .call e.1 e.2 st with
        | (none, st) => st
        | (some next, st) => follow p resolve n next st) st

/-- File a class that constructors of the class need, unless the method calls it. -/
def fileConstructorNeed (p : Project) (resolve : Resolve σ) (m : MethodInfo)
    (st : Dossier × σ) (e : String × Names) : Dossier × σ :=
  if m.calls.contains e.1 || st.1.isTarget e.1 then st
  else (fileDependency p resolve .constructor e.1 e.2 st).2

/-- File a class that the method calls and follow the calls from there; calls within the class
itself are not filed. -/
def fileCall (p : Project) (resolve : Resolve σ) (depth : Nat) (c : ClassInfo)
    (st : Dossier × σ) (e : String × Names) : Dossier × σ :=
  if c.isNamed e.1 then st
  else
    match fileDependency p resolve .call e.1 e.2 st with
    | (none, st) => st
    | (some next, st) => follow p resolve depth next st

/-! ## The class under test -/

/-- The methods of its own class that a method calls. -/
def ownCallees (c : ClassInfo) (m : MethodInfo) : List MethodInfo :=
  (m.calls.edges.filter fun e => c.isNamed e.1).flatMap fun e =>
    e.2.toList.filterMap c.method?

/-- Package, imports, header and fields of a class, up to the place of a method. -/
def classHead (c : ClassInfo) : String :=
  c.package ++ "\n" ++ String.join (c.imports.map fun i => i ++ "\n") ++ c.header ++ " \x7b\n" ++
    String.join (c.fields.map fun f => "    " ++ f ++ "\n") ++ "\n"

def classContext (c : ClassInfo) (m : MethodInfo) : String :=
  classHead c ++ m.source ++ "\n\x7d"

/-- The members beside a method that matter for it, as briefs with sources: constructors,
accessors, and methods it calls that are not accessors. -/
def otherMembers (c : ClassInfo) (m : MethodInfo) : List (String × String) :=
  c.constructors.map (fun k => (k.brief, k.source)) ++
  c.accessors.map (fun a => (a.brief, a.source)) ++
  ((ownCallees c m).filter fun callee =>
    !c.accessors.any fun a => a.source == callee.source).map fun callee =>
      (callee.brief, callee.source)

/-- Put the class under test into a dossier. -/
def describe (c : ClassInfo) (m : MethodInfo) (d : Dossier) : Dossier :=
  let others := otherMembers c m
  { d with
    context := classContext c m
    otherBriefs := String.join (others.map fun o => o.1 ++ "\n")
    otherBodies := String.join (others.map fun o => o.2 ++ "\n\n") }

/-! ## Dossiers -/

def assemble (p : Project) (resolve : Resolve σ) (depth : Nat) (c : ClassInfo) (m : MethodInfo)
    (attempt : Nat) (s : σ) : Dossier × σ :=
  let st := c.constructorCalls.edges.foldl (fileConstructorNeed p resolve m)
    (Dossier.start c m attempt, s)
  let st := m.calls.edges.foldl (fileCall p resolve depth c) st
  (describe c m st.1, st.2)

/-- Add classes by their names, without any wanted methods; the target and classes that are there
already are passed over. The result counts the classes added. -/
def enrich (p : Project) (resolve : Resolve σ) (names : Names) (st : Dossier × σ) :
    Nat × (Dossier × σ) :=
  names.toList.foldl (fun (added, st) name =>
    if st.1.isTarget name || st.1.hasDependency name then (added, st)
    else
      match fileDependency p resolve .call name ∅ st with
      | (none, st) => (added, st)
      | (some _, st) => (added + 1, st)) (0, st)

end Assembly

end Testwright
