import Testwright.Attempt.Collaborators
import Testwright.Disk.Work
import Testwright.Settings.Basic
import Testwright.Tool.Process

/-!
# Judging tests by compiling and running them

A test is written to a fresh directory and compiled there against the classes of the project. What
compiles is run if a launcher for tests is configured, and passes without one. The verdict on a
test that fails carries what the tools printed; the directory is removed in every case.
-/

namespace Testwright

/-- The tools that judge tests. -/
structure Compiler where
  javac : String
  java : String
  classpath : List String
  /-- Where the directories for tests are made. -/
  workDirectory : String
  /-- The launcher that runs tests. -/
  launcher : Option String
  deriving DecidableEq, Repr, Inhabited

namespace Compiler

/-- The tools that are configured; paths lead on from the root of the project. -/
def ofSettings (s : HarnessSettings) (root : String) : Compiler where
  javac := s.javac
  java := s.java
  classpath := Path.join root s.buildPath :: s.classpath.map (Path.join root)
  workDirectory := Path.join root s.workDir
  launcher := s.junitLauncher.map (Path.join root)

/-- The file of a class: a directory for each part of its package. -/
def sourceFile (className : String) : String :=
  Path.withExtension "java"
    (((Text.fields '.' className.toList).map String.ofList).foldl Path.join "")

/-- Why a list of paths cannot be passed on. -/
def separatorReason : String := "path segment contains separator \x60:\x60"

def prepareError (path : String) (e : DiskError) : JudgeError := .prepare path e.message

def joined (c : Compiler) (paths : List String) : Work JudgeError String :=
  match Path.joinList? paths with
  | some text => .pure text
  | none => .fail (.prepare c.workDirectory separatorReason)

/-- Run a program. -/
def call (launch : Launcher) (program : String) (arguments : List String) :
    Work JudgeError Output := fun d =>
  match launch ⟨program, arguments⟩ d with
  | (.ok o, d) => (.ok o, d)
  | (.error e, d) => (.error (.launch program e.message), d)

/-- Make a directory with those that hold it. -/
def makeDirectory (path : String) : Work JudgeError Unit :=
  .change (prepareError path) fun d => d.makeDirectories path

def compile (c : Compiler) (launch : Launcher) (test : UnitTest) (directory : String) :
    Work JudgeError Output := do
  let file := Path.join directory (sourceFile test.className)
  let classes := Path.join directory "classes"
  makeDirectory ((Path.parent? file).getD "")
  Work.change (prepareError file) fun d => d.writeText file test.source
  makeDirectory classes
  let classpath ← c.joined c.classpath
  call launch c.javac ["-d", classes, "-cp", classpath, file]

def execute (c : Compiler) (launch : Launcher) (launcher : String) (test : UnitTest)
    (directory : String) : Work JudgeError Output := do
  let classpath ← c.joined (Path.join directory "classes" :: c.classpath)
  call launch c.java
    ["-jar", launcher, "--disable-banner", "--class-path", classpath, "--select-class",
      test.className]

def verdict (o : Output) : Verdict :=
  if o.status.isSuccess then .pass else .fail o.diagnostics

def judgeIn (c : Compiler) (launch : Launcher) (test : UnitTest) (directory : String) :
    Work JudgeError Verdict := do
  let compiled ← c.compile launch test directory
  match verdict compiled, c.launcher with
  | .pass, some launcher => return verdict (← c.execute launch launcher test directory)
  | v, _ => return v

def run (c : Compiler) (launch : Launcher) (test : UnitTest) : Work JudgeError Verdict := do
  makeDirectory c.workDirectory
  Work.inTemporary (prepareError c.workDirectory) c.workDirectory "attempt"
    (c.judgeIn launch test)

/-- The judge that the tools make. -/
def judge (c : Compiler) (launch : Launcher) : Judge Disk := fun test cancelled d =>
  if cancelled then (.failed .cancelled, false, d)
  else
    match c.run launch test d with
    | (.ok v, d) => (.done v, false, d)
    | (.error e, d) => (.failed e, false, d)

end Compiler

end Testwright
