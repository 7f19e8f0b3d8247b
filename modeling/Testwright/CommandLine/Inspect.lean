import Testwright.Attempt.Assembly
import Testwright.Attempt.Diagnostics
import Testwright.Attempt.Gate
import Testwright.CommandLine.Host

/-!
# Commands that look at a project

Indexing a project, printing what is known about a method and what the gate says of it,
reconstructing a class, and finding the classes in diagnostics.
-/

namespace Testwright.CommandLine

/-- Several lines. -/
def lines (l : List String) : String := String.join (l.map (· ++ "\n"))

/-! ## Indexing -/

/-- Index a project. -/
def index (host : Host) (root : String) (sourceRoots : List String) : Step Printed := do
  let s ← settings host root
  let roots := if sourceRoots.isEmpty then s.harness.sourceRoots else sourceRoots
  let p ← see .missingRoot fun d => Project.ofSources d (roots.map (Path.join root))
  let () ← fun d =>
    match Workspace.save d root p host.now with
    | .ok d => (.ok (), d)
    | .error e => (.error (.workspace e), d)
  let already ← fun d =>
    match Workspace.ensureIgnored d root with
    | .ok (already, d) => (.ok already, d)
    | .error e => (.error (.disk e), d)
  let summary :=
    "Indexed " ++ toString p.size ++ " classes, " ++ toString p.methodCount ++ " methods → " ++
      Workspace.indexFile root
  return { stderr := lines ((if already then [] else ["  Added .unitsmith/ to .gitignore"]) ++ [summary]) }

/-! ## Dossiers -/

/-- The settings of a project and the dossier of a method for the first attempt. -/
def assemble (host : Host) (root className signature : String) : Step (Settings × Dossier) := do
  let s ← settings host root
  let p ← loadIndex root
  let (c, m) ← findTarget p className signature
  let r ← Work.look fun d => .ok (resolver host root s d)
  let resolve : Resolve Cache := r.resolve p
  return (s, (Assembly.assemble p resolve s.context.dependencyDepth c m 0 {}).1)

/-- A section of dependencies with their sources, if there are any. -/
def dependencies (title : String) (deps : Dict String) : String :=
  if deps.isEmpty then ""
  else
    "\n=== " ++ title ++ " ===\n" ++
      String.join (deps.entries.map fun (name, source) =>
        "\n--- " ++ name ++ " ---\n" ++ onChars Text.trim source ++ "\n")

def decision : GateDecision → String
  | .admitted score => "Gate: admit (score " ++ toString score ++ ")"
  | .refused reason => "Gate: skip (" ++ reason.message ++ ")"

def target (d : Dossier) : String := d.className ++ " :: " ++ d.methodSignature

/-- Print the dossier of a method. -/
def context (host : Host) (root className signature : String) : Step Printed := do
  let (s, d) ← assemble host root className signature
  let front := lines ["=== " ++ target d ++ " ===", d.fullContext]
  let middle :=
    dependencies "Constructor dependencies" d.constructorDeps ++
      dependencies "Constructor dependencies (reconstructed)" d.externalConstructorDeps ++
      dependencies "Called classes" d.methodDeps ++
      dependencies "Called classes (reconstructed)" d.externalMethodDeps
  let back := lines
    (["", "Activations: " ++ toString d.activations] ++
      d.reconstructed.toList.map ("  " ++ ·) ++ [decision (s.gate.judge d)])
  return { stdout := front ++ middle ++ back }

/-- Print how a method branches and what the gate says of it. -/
def gate (host : Host) (root className signature : String) : Step Printed := do
  let (s, d) ← assemble host root className signature
  let p := GatePolicy.profile d.methodSource
  let report :=
    [target d,
      "  conditionals:   " ++ toString p.conditionals,
      "  switch arms:    " ++ toString p.switchArms,
      "  loops:          " ++ toString p.loops,
      "  for-each loops: " ++ toString p.foreachLoops,
      "  && / ||:        " ++ toString p.shortCircuits,
      "  ternaries:      " ++ toString p.ternaries,
      "  policy " ++ s.gate.measure.name ++ " (threshold " ++ toString s.gate.threshold ++
        "): score " ++ toString (s.gate.score d.methodSource),
      "  activations:    " ++ toString d.activations,
      decision (s.gate.judge d)]
  return { stdout := lines report }

/-! ## Other commands -/

/-- Print the source of a class outside the project. -/
def decompile (host : Host) (root className : String) (methods : List String) : Step Printed := do
  let s ← settings host root
  if s.decompiler.cfrJar.isNone then Work.fail .noDecompiler
  else
    let r ← Work.look fun d => .ok (resolver host root s d)
    match (r.resolve {} className (normalizeSignatures (.ofList methods)) {}).1 with
    | .found x pruned =>
      return {
        stdout := .ofList pruned.source ++ "\n"
        stderr := x.className ++ " from " ++ x.origin ++ " (" ++ toString pruned.kept.size ++
          " kept, " ++ toString pruned.stubbed ++ " stubbed, " ++ toString pruned.removed ++
          " removed)\n" }
    | .notFound => Work.fail (.notFound className r.locations.length)
    | .unusable => Work.fail (.unusable className)
    | .notApplicable => Work.fail (.inProject className)

def extractClasses (host : Host) (file : Option String) : Step Printed := do
  let text ← match file with
    | none => Work.pure host.input
    | some path => see (fun _ => .unreadable path) fun d => d.readText path
  return { stdout := lines (Diagnostics.classNames text).toList }

end Testwright.CommandLine
