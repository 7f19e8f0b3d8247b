import Testwright.Attempt.Collaborators
import Testwright.Disk.Work
import Testwright.Json.Reader
import Testwright.Json.Writer
import Testwright.Number.Reading
import Testwright.Settings.Basic
import Testwright.Text.Debug
import Testwright.Tool.Process

/-!
# Measuring coverage by a command

A configured command is run on a test and prints a JSON object whose member `branchCoverage` is a
number, or a text that reads as one with or without a percent sign. Its arguments may hold
placeholders for the test and for what it covers.
-/

namespace Testwright

structure CoverageCommand where
  /-- The program and its arguments. -/
  words : List String
  /-- Where the directories for tests are made. -/
  workDirectory : String
  deriving DecidableEq, Repr, Inhabited

namespace CoverageCommand

/-- The command that is configured, if there is one. -/
def ofSettings? (s : HarnessSettings) (root : String) : Option CoverageCommand :=
  if s.coverageCommand.isEmpty then none
  else some ⟨s.coverageCommand, Path.join root s.workDir⟩

/-- Why a command measures nothing. -/
inductive Failure where
  | noCommand
  | disk (error : DiskError)
  | separator
  | launch (program : String) (error : DiskError)
  | exited (output : Output)
  | notJson
  | noNumber (text : String) (reason : String)
  | noCoverage
  | unexpected (value : Json)
  deriving Repr, Inhabited

/-- The failure in words. -/
def Failure.message : Failure → String
  | noCommand => "no coverage command configured"
  | disk error => error.message
  | separator => "path segment contains separator \x60:\x60"
  | launch program error =>
    "failed to launch coverage command " ++ program ++ ": " ++ error.message
  | exited o => "coverage command exited with " ++ o.status.text ++ ": " ++ o.diagnostics
  | notJson => "coverage output is not JSON:"
  | noNumber text reason => "branchCoverage " ++ Text.debug text ++ " is not a number: " ++ reason
  | noCoverage => "coverage output has no branchCoverage"
  | unexpected value => "branchCoverage has unexpected value " ++ value.sorted.compact

/-! ## Placeholders -/

/-- The placeholders with their values. -/
abbrev Placeholders := List (String × String)

/-- An argument with its placeholders replaced, one kind after another. -/
def substitute (values : Placeholders) (argument : String) : String :=
  values.foldl (fun s v => onChars (Text.replaceAll v.1.toList v.2.toList) s) argument

def joined (paths : List String) : Except Failure String :=
  match Path.joinList? paths with
  | some text => .ok text
  | none => .error .separator

def placeholders (file : String) (r : CoverageRequest) : Except Failure Placeholders := do
  let buildPath ← joined r.paths.buildPaths
  let sourceRoot ← joined r.paths.sourceRoots
  let classpath ← joined r.paths.classpath
  return [("\x7btest_file\x7d", file), ("\x7btest_name\x7d", r.testName),
    ("\x7bclass\x7d", r.targetClass), ("\x7bmethod\x7d", r.targetMethod),
    ("\x7bbuild_path\x7d", buildPath), ("\x7bsource_root\x7d", sourceRoot),
    ("\x7bclasspath\x7d", classpath)]

/-! ## The printed coverage -/

/-- The coverage in the output of a command. -/
def read (stdout : String) : Except Failure Binary64 :=
  match Json.parse? (onChars Text.trim stdout) with
  | none => .error .notJson
  | some j =>
    match j.get? "branchCoverage" with
    | none => .error .noCoverage
    | some (.str text) =>
      let digits := Text.dropEndWhile (· == '%') (Text.trim text.toList)
      match Binary64.read digits with
      | .ok x => .ok x
      | .error reason => .error (.noNumber text reason.message)
    | some v =>
      match v.number? with
      | some x => .ok x
      | none => .error (.unexpected v)

/-- The coverage of a command that ended. -/
def conclude (o : Output) : Except Failure Binary64 :=
  if o.status.isSuccess then read (Utf8.lenient o.stdout) else .error (.exited o)

/-! ## Measuring -/

/-- Run a program and read what it prints. -/
def call (launch : Launcher) (program : String) (values : Placeholders)
    (arguments : List String) : Work Failure Binary64 := fun d =>
  match launch ⟨substitute values program, arguments.map (substitute values)⟩ d with
  | (.error e, d) => (.error (.launch program e), d)
  | (.ok o, d) => (conclude o, d)

/-- Run the command on a test in a directory. -/
def measureIn (launch : Launcher) (program : String) (arguments : List String)
    (r : CoverageRequest) (directory : String) : Work Failure Binary64 := do
  let file := Path.join directory (simpleName r.testName ++ ".java")
  Work.change .disk fun d => d.writeText file r.testSource
  match placeholders file r with
  | .error e => Work.fail e
  | .ok values => call launch program values arguments

def measure (c : CoverageCommand) (launch : Launcher) (r : CoverageRequest) :
    Work Failure Binary64 :=
  match c.words with
  | [] => .fail .noCommand
  | program :: arguments => do
    Work.change .disk fun d => d.makeDirectories c.workDirectory
    Work.inTemporary .disk c.workDirectory "coverage" (measureIn launch program arguments r)

def meter (c : CoverageCommand) (launch : Launcher) : Meter Disk := fun r _ d =>
  match c.measure launch r d with
  | (.ok x, d) => (.done x, false, d)
  | (.error e, d) => (.failed e.message, false, d)

end CoverageCommand

end Testwright
