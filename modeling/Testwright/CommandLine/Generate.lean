import Testwright.Attempt.Schedule
import Testwright.CommandLine.Host
import Testwright.CommandLine.Request

/-!
# Generating tests

The command that runs attempts at a method: a model writes tests, tools judge them, and reports are
kept in the workspace. It prints what became of every attempt.
-/

namespace Testwright.CommandLine

/-- What attempts share: the disk, what is known of classes outside the project, and the usage of
the model. -/
structure Stage where
  disk : Disk
  cache : Cache := {}
  usage : Usage
  deriving Repr

namespace Stage

/-- The part that an author works with. -/
def model (s : Stage) : Usage × Unit := (s.usage, ())

def withDisk (disk : Disk) (s : Stage) : Stage := { s with disk }

end Stage

/-- The mode of a run: flags go before settings. -/
def mode (o : RunOptions) (s : Settings) : Mode :=
  if o.parallel then .parallel else if o.exhaustive then .exhaustive else s.mode

def modeName : Mode → String
  | .stopAtSuccess => "StopOnFirstSuccess"
  | .parallel => "Parallel"
  | .exhaustive => "Exhaustive"

def statusName : Status → String
  | .succeeded => "Succeeded"
  | .exhausted => "Exhausted"
  | .skipped => "Skipped"
  | .cancelled => "Cancelled"

/-- An archive that writes reports into the workspace. -/
def reports (root : String) : Archive Disk := fun r d =>
  match Workspace.writeReport d root r with
  | .ok d => (none, d)
  | .error e => (some e.message, d)

/-- The collaborators of a run. -/
def team (host : Host) (root : String) (s : Settings) (maxRounds : Nat) (p : Project)
    (r : Resolver) (provider : Provider) : Team Stage :=
  let author : Author (Usage × Unit) :=
    Completer.author (Chat.completer provider host.transport) s.author.maxRetries
  let onUsage (c : Call (Usage × Unit) AuthorError UnitTest) : Call Stage AuthorError UnitTest :=
    c.within Stage.model fun (usage, _) st => { st with usage }
  let judge := (Compiler.ofSettings s.harness root).judge host.launch
  let resolve : Resolve Stage := fun name wanted st =>
    let (found, cache) := r.resolve p name wanted st.cache
    (found, { st with cache })
  let paths : CoveragePaths :=
    { buildPaths := [Path.join root s.harness.buildPath]
      sourceRoots := s.harness.sourceRoots.map (Path.join root)
      classpath := s.harness.classpath.map (Path.join root) }
  { author :=
      { generate := fun d => onUsage (author.generate d)
        repair := fun d diagnostics => onUsage (author.repair d diagnostics) }
    judge := fun test => (judge test).within Stage.disk Stage.withDisk
    archive :=
      if s.generation.generateReport then (reports root).within Stage.disk Stage.withDisk
      else .all []
    meter :=
      if s.generation.coverage then
        (CoverageCommand.ofSettings? s.harness root).map fun c =>
          (fun request => (c.meter host.launch request).within Stage.disk Stage.withDisk, paths)
      else none
    enrich :=
      if s.generation.enrichFromDiagnostics then
        some fun names st => (Assembly.enrich p resolve names st).2
      else none
    policy := s.gate
    maxRounds
    clock := fun _ => 0
    now := fun _ => host.now }

/-- The coverage at the end of an attempt's line. -/
def coverageText : Option Coverage → String
  | some (.percent x) => ", coverage " ++ x.fixed 1 ++ "%"
  | some (.error reason) => ", coverage failed: " ++ reason
  | none => ""

/-- The line for an attempt. -/
def outcomeLine (index : Nat) (outcome : Outcome) : String :=
  "  attempt " ++ toString index ++ ": " ++
    match outcome with
    | .finished r =>
      statusName r.status ++ " at round " ++ toString r.round ++ " in " ++
        r.elapsedSeconds.fixed 1 ++ "s" ++ coverageText r.coverage ++ "\n"
    | .faulted reason => "faulted: " ++ reason ++ "\n"
    | .notStarted => "not started\n"

/-- Run attempts at a method. -/
def generate (host : Host) (root className signature : String) (o : RunOptions) :
    Step Printed := do
  let s ← settings host root
  let p ← loadIndex root
  let (c, m) ← findTarget p className signature
  let attempts := o.attempts.getD s.generation.attemptCount
  if attempts = 0 then Work.fail .noAttempts
  else
    let maxRounds := o.maxRounds.getD s.generation.maxRounds
    let r ← Work.look fun d => .ok (resolver host root s d)
    let provider ← Work.ofExcept (wrapped .provider
      (Provider.fromEnvironment host.environment s.author.provider s.author.model
        s.author.baseUrl))
    let team := team host root s maxRounds p r provider
    let resolve : Resolve Stage := fun name wanted st =>
      let (found, cache) := r.resolve p name wanted st.cache
      (found, { st with cache })
    let runner := team.attempts fun i st =>
      Assembly.assemble p resolve s.context.dependencyDepth c m i st
    let (summary, usage) ← fun d =>
      let st : Stage := { disk := d, usage := { rates := provider.rates } }
      let (summary, st) := Schedule.run (mode o s) attempts runner { world := (st, []) }
      (.ok (summary, st.world.1.usage), st.world.1.disk)
    let front :=
      "Running " ++ toString attempts ++ " attempt(s) for " ++ c.fullName ++ " :: " ++
        m.signature ++ " (" ++ modeName (mode o s) ++ ", model " ++ provider.model ++ ", up to " ++
        toString maxRounds ++ " repair rounds)\n"
    let middle := String.join ((summary.outcomes.zipIdx).map fun (outcome, i) =>
      outcomeLine i outcome)
    let reported :=
      if s.generation.generateReport then "Reports: " ++ Workspace.reportsDirectory root ++ "\n"
      else ""
    let result := match summary.firstSuccess? with
      | some i => "Passing test produced by attempt " ++ toString i ++ "\n"
      | none => "No attempt produced a passing test\n"
    return { stderr := front ++ middle ++ "Usage: " ++ usage.text ++ "\n" ++ reported ++ result }

end Testwright.CommandLine
