import Testwright.Attempt.Gate
import Testwright.Attempt.Schedule

/-!
# Settings

The settings of a project, what they are by default, how variables of the environment override
them, and which ones are refused. Settings are checked after they were overridden, so a variable
can both rescue and break a file.
-/

namespace Testwright

/-- The rounds of attempts and their schedule. -/
structure GenerationSettings where
  maxRounds : Nat := 3
  attemptCount : Nat := 1
  stopWhenSuccess : Bool := true
  parallel : Bool := false
  generateReport : Bool := true
  coverage : Bool := false
  enrichFromDiagnostics : Bool := true
  deriving DecidableEq, Repr, Inhabited

/-- The assembly of dossiers. -/
structure ContextSettings where
  dependencyDepth : Nat := 1
  dependencyPaths : List String := []
  cacheDecompiled : Bool := true
  deriving DecidableEq, Repr, Inhabited

structure DecompilerSettings where
  java : String := "java"
  /-- The archive of the decompiler; without it nothing is reconstructed. -/
  cfrJar : Option String := none
  deriving DecidableEq, Repr, Inhabited

/-- The model that writes tests. -/
structure AuthorSettings where
  provider : String := "anthropic"
  model : Option String := none
  baseUrl : Option String := none
  maxRetries : Nat := 2
  deriving DecidableEq, Repr, Inhabited

/-- The tools that compile and run tests. -/
structure HarnessSettings where
  classpath : List String := []
  buildPath : String := "target/classes"
  sourceRoots : List String := ["src/main/java"]
  workDir : String := ".unitsmith/work"
  javac : String := "javac"
  java : String := "java"
  junitLauncher : Option String := none
  coverageCommand : List String := []
  deriving DecidableEq, Repr, Inhabited

/-- The settings of a project. -/
structure Settings where
  generation : GenerationSettings := {}
  context : ContextSettings := {}
  gate : GatePolicy := {}
  decompiler : DecompilerSettings := {}
  author : AuthorSettings := {}
  harness : HarnessSettings := {}
  deriving DecidableEq, Repr, Inhabited

/-- Why settings are refused. -/
inductive SettingsError where
  /-- The file cannot be read. -/
  | unreadable (reason : String)
  /-- The file does not hold settings. -/
  | malformed
  | noAttempts
  | noThreshold (measure : Measure)
  | tooManyRetries (count : Nat)
  deriving DecidableEq, Repr, Inhabited

namespace Settings

/-- The largest number of retries. -/
def maxRetries : Nat := 10

end Settings

/-- The error in words. -/
def SettingsError.message : SettingsError → String
  | unreadable reason => reason
  | malformed => "TOML parse error"
  | noAttempts => "generation.attempt_count must be at least 1"
  | noThreshold measure => "gate threshold for policy '" ++ measure.name ++ "' must be at least 1"
  | tooManyRetries count =>
    "oracle.max_retries must be at most " ++ toString Settings.maxRetries ++ ", got " ++
      toString count

namespace Settings

/-! ## Variables of the environment -/

/-- A number in a variable: decimal digits, possibly behind a plus sign, below `2 ^ 64`. -/
def number? (text : String) : Option Nat :=
  let ds := match text.toList with
    | '+' :: rest => rest
    | all => all
  if ds.isEmpty || !ds.all Char.isDigit then none
  else
    let n := ds.foldl (fun n c => n * 10 + (c.toNat - '0'.toNat)) 0
    if n < 0x10000000000000000 then some n else none

/-- A Boolean in a variable. -/
def boolean? (text : String) : Option Bool :=
  if text = "true" then some true else if text = "false" then some false else none

/-- The paths in a variable, separated by colons. -/
def paths (text : String) : List String := (Text.fields ':' text.toList).map String.ofList

/-- The value of a variable if it is set and reads well, and the given value otherwise. -/
def override {α : Type} (environment : String → Option String) (read : String → Option α)
    (name : String) (value : α) : α :=
  ((environment name).bind read).getD value

/-- The settings with every variable of the environment in its place. -/
def withEnvironment (environment : String → Option String) (s : Settings) : Settings :=
  let number := override environment number?
  let boolean := override environment boolean?
  { s with
    generation :=
      { s.generation with
        maxRounds := number "UNITSMITH_MAX_ROUNDS" s.generation.maxRounds
        attemptCount := number "UNITSMITH_ATTEMPTS" s.generation.attemptCount
        stopWhenSuccess := boolean "UNITSMITH_STOP_WHEN_SUCCESS" s.generation.stopWhenSuccess
        parallel := boolean "UNITSMITH_MULTITHREADING" s.generation.parallel }
    context :=
      { s.context with
        dependencyDepth := number "UNITSMITH_DEPENDENCY_DEPTH" s.context.dependencyDepth
        dependencyPaths := override environment (fun t => some (paths t))
          "UNITSMITH_DEPENDENCY_PATHS" s.context.dependencyPaths } }

/-! ## Checks -/

/-- What is wrong with settings, the first thing first. -/
def fault? (s : Settings) : Option SettingsError :=
  if s.generation.attemptCount = 0 then some .noAttempts
  else if s.gate.threshold = 0 then some (.noThreshold s.gate.measure)
  else if maxRetries < s.author.maxRetries then some (.tooManyRetries s.author.maxRetries)
  else none

/-- The settings that hold for a run: those of a file, or the default, after the environment. -/
def resolve (environment : String → Option String) (file : Settings) :
    Except SettingsError Settings :=
  let s := file.withEnvironment environment
  match s.fault? with
  | some e => .error e
  | none => .ok s

/-- How attempts are scheduled. -/
def mode (s : Settings) : Mode := .ofFlags s.generation.stopWhenSuccess s.generation.parallel

end Settings

end Testwright
