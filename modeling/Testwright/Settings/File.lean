import Testwright.Json.Decode
import Testwright.Settings.Basic
import Testwright.Toml.Reader

/-!
# The settings file

Settings are read from a TOML document with a table for each group. What a document leaves out is
as by default, and names it does not know are ignored.
-/

namespace Testwright

open Json

/-- An array of texts. -/
def textList? : Json → Option (List String) := list? str?

namespace GenerationSettings

/-- The settings of a table. -/
def ofJson? (j : Json) : Option GenerationSettings := do
  let d : GenerationSettings := {}
  let j ← j.record?
    ["max_rounds", "attempt_count", "stop_when_success", "enable_multithreading",
      "generate_report", "coverage", "enrich_from_diagnostics"]
  let maxRounds ← j.optional? "max_rounds" d.maxRounds nat?
  let attemptCount ← j.optional? "attempt_count" d.attemptCount nat?
  let stopWhenSuccess ← j.optional? "stop_when_success" d.stopWhenSuccess bool?
  let parallel ← j.optional? "enable_multithreading" d.parallel bool?
  let generateReport ← j.optional? "generate_report" d.generateReport bool?
  let coverage ← j.optional? "coverage" d.coverage bool?
  let enrichFromDiagnostics ← j.optional? "enrich_from_diagnostics" d.enrichFromDiagnostics bool?
  some
    { maxRounds, attemptCount, stopWhenSuccess, parallel, generateReport, coverage,
      enrichFromDiagnostics }

end GenerationSettings

namespace ContextSettings

/-- The settings of a table. -/
def ofJson? (j : Json) : Option ContextSettings := do
  let d : ContextSettings := {}
  let j ← j.record? ["dependency_depth", "dependency_paths", "cache_decompiled"]
  let dependencyDepth ← j.optional? "dependency_depth" d.dependencyDepth nat?
  let dependencyPaths ← j.optional? "dependency_paths" d.dependencyPaths textList?
  let cacheDecompiled ← j.optional? "cache_decompiled" d.cacheDecompiled bool?
  some { dependencyDepth, dependencyPaths, cacheDecompiled }

end ContextSettings

namespace GatePolicy

/-- The policy of a table: its kind, and the threshold that every kind needs. -/
def ofJson? (j : Json) : Option GatePolicy := do
  let j ← j.record? ["kind", "threshold"]
  let kind ← j.required? "kind" str?
  let measure ← [Measure.branchConstructs, .decisionPoints].find? fun m => m.name == kind
  let threshold ← j.required? "threshold" nat?
  some { measure, threshold }

def ofGateJson? (j : Json) : Option GatePolicy := do
  let j ← j.record? ["policy"]
  j.optional? "policy" {} ofJson?

end GatePolicy

namespace DecompilerSettings

/-- The settings of a table. -/
def ofJson? (j : Json) : Option DecompilerSettings := do
  let d : DecompilerSettings := {}
  let j ← j.record? ["java", "cfr_jar"]
  let java ← j.optional? "java" d.java str?
  let cfrJar ← j.optional? "cfr_jar" none fun v => v.str?.map some
  some { java, cfrJar }

end DecompilerSettings

namespace AuthorSettings

/-- The settings of a table. -/
def ofJson? (j : Json) : Option AuthorSettings := do
  let d : AuthorSettings := {}
  let j ← j.record? ["provider", "model", "base_url", "max_retries"]
  let provider ← j.optional? "provider" d.provider str?
  let model ← j.optional? "model" none fun v => v.str?.map some
  let baseUrl ← j.optional? "base_url" none fun v => v.str?.map some
  let maxRetries ← j.optional? "max_retries" d.maxRetries nat?
  some { provider, model, baseUrl, maxRetries }

end AuthorSettings

namespace HarnessSettings

/-- The settings of a table. -/
def ofJson? (j : Json) : Option HarnessSettings := do
  let d : HarnessSettings := {}
  let j ← j.record?
    ["classpath", "build_path", "source_roots", "work_dir", "javac", "java", "junit_launcher",
      "coverage_command"]
  let classpath ← j.optional? "classpath" d.classpath textList?
  let buildPath ← j.optional? "build_path" d.buildPath str?
  let sourceRoots ← j.optional? "source_roots" d.sourceRoots textList?
  let workDir ← j.optional? "work_dir" d.workDir str?
  let javac ← j.optional? "javac" d.javac str?
  let java ← j.optional? "java" d.java str?
  let junitLauncher ← j.optional? "junit_launcher" none fun v => v.str?.map some
  let coverageCommand ← j.optional? "coverage_command" d.coverageCommand textList?
  some
    { classpath, buildPath, sourceRoots, workDir, javac, java, junitLauncher, coverageCommand }

end HarnessSettings

namespace Settings

/-- The settings as a value with a member for each group. -/
def toJson (s : Settings) : Json :=
  let text (v : Option String) : Json := .ofOption .str v
  .obj
    [("generation", .obj
        [("max_rounds", .ofNat s.generation.maxRounds),
          ("attempt_count", .ofNat s.generation.attemptCount),
          ("stop_when_success", .bool s.generation.stopWhenSuccess),
          ("enable_multithreading", .bool s.generation.parallel),
          ("generate_report", .bool s.generation.generateReport),
          ("coverage", .bool s.generation.coverage),
          ("enrich_from_diagnostics", .bool s.generation.enrichFromDiagnostics)]),
      ("context", .obj
        [("dependency_depth", .ofNat s.context.dependencyDepth),
          ("dependency_paths", .strings s.context.dependencyPaths),
          ("cache_decompiled", .bool s.context.cacheDecompiled)]),
      ("gate", .obj [("policy", .obj
        [("kind", .str s.gate.measure.name), ("threshold", .ofNat s.gate.threshold)])]),
      ("decompiler", .obj
        [("java", .str s.decompiler.java), ("cfr_jar", text s.decompiler.cfrJar)]),
      ("oracle", .obj
        [("provider", .str s.author.provider), ("model", text s.author.model),
          ("base_url", text s.author.baseUrl), ("max_retries", .ofNat s.author.maxRetries)]),
      ("harness", .obj
        [("classpath", .strings s.harness.classpath), ("build_path", .str s.harness.buildPath),
          ("source_roots", .strings s.harness.sourceRoots), ("work_dir", .str s.harness.workDir),
          ("javac", .str s.harness.javac), ("java", .str s.harness.java),
          ("junit_launcher", text s.harness.junitLauncher),
          ("coverage_command", .strings s.harness.coverageCommand)])]

/-- The settings of a document. -/
def ofJson? (j : Json) : Option Settings := do
  let j ← j.record? ["generation", "context", "gate", "decompiler", "oracle", "harness"]
  let generation ← j.optional? "generation" {} GenerationSettings.ofJson?
  let context ← j.optional? "context" {} ContextSettings.ofJson?
  let gate ← j.optional? "gate" {} GatePolicy.ofGateJson?
  let decompiler ← j.optional? "decompiler" {} DecompilerSettings.ofJson?
  let author ← j.optional? "oracle" {} AuthorSettings.ofJson?
  let harness ← j.optional? "harness" {} HarnessSettings.ofJson?
  some { generation, context, gate, decompiler, author, harness }

/-- The settings of a file, or those by default without a file. -/
def ofFile (text : Option String) : Except SettingsError Settings :=
  match text with
  | none => .ok {}
  | some text =>
    match (Toml.parse? text).bind ofJson? with
    | some s => .ok s
    | none => .error .malformed

/-- The settings that hold for a run. -/
def load (environment : String → Option String) (text : Option String) :
    Except SettingsError Settings :=
  match ofFile text with
  | .error e => .error e
  | .ok file => resolve environment file

end Settings

end Testwright
