import Testwright.Author.Chat
import Testwright.Disk.Work
import Testwright.Project.Sources
import Testwright.Tool.Compiler
import Testwright.Tool.CoverageCommand
import Testwright.Tool.DecompilerCommand
import Testwright.Workspace.Configuration

/-!
# What commands work with

The surroundings of a command (`Host`), what it prints, the errors that end it, and the steps that
several commands share: finding settings, the index and a method, and resolving classes outside the
project.
-/

namespace Testwright.CommandLine

/-- The surroundings of a command. -/
structure Host where
  environment : String → Option String
  /-- What can be read from the standard input. -/
  input : String
  /-- How programs are run. -/
  launch : Launcher
  /-- How requests travel. -/
  transport : Transport Unit
  /-- The present time. -/
  now : Timestamp

/-- What a command prints, on either stream. -/
structure Printed where
  stdout : String := ""
  stderr : String := ""
  deriving DecidableEq, Repr, Inhabited

inductive CommandError where
  | settings (error : SettingsError)
  | workspace (error : WorkspaceError)
  | disk (error : DiskError)
  | provider (error : ProviderError)
  | missingRoot (path : String)
  | noIndex
  | unknownClass (name : String)
  | unknownMethod (signature className : String) (known : List String)
  | noAttempts
  | noDecompiler
  | notFound (className : String) (locations : Nat)
  | unusable (className : String)
  | inProject (className : String)
  | unreadable (path : String)
  deriving DecidableEq, Repr, Inhabited

/-- The error in words. -/
def CommandError.message : CommandError → String
  | settings error => error.message
  | workspace error => error.message
  | disk error => error.message
  | provider error => error.message
  | missingRoot path => "source root " ++ path ++ " does not exist"
  | noIndex => "no project index found. Run \x60unitsmith index\x60 first."
  | unknownClass name => "class '" ++ name ++ "' is not in the project index"
  | unknownMethod signature className known =>
    "method '" ++ signature ++ "' not found in " ++ className ++ " (known: " ++
      ", ".intercalate known ++ ")"
  | noAttempts => "--attempts must be at least 1"
  | noDecompiler => "decompiler.cfr_jar must be set in .unitsmith/config.toml"
  | notFound className locations =>
    className ++ " not found in " ++ toString locations ++ " search path entries"
  | unusable className =>
    className ++ " was reconstructed but is unusable: syntax error at line 1, column 1"
  | inProject className => className ++ " has a source model"
  | unreadable path => "failed to read " ++ path

/-- A step of a command. -/
abbrev Step := Work CommandError

/-- The same result with another kind of error. -/
def wrapped {ε α : Type} (f : ε → CommandError) : Except ε α → Except CommandError α
  | .ok a => .ok a
  | .error e => .error (f e)

/-- Look at the disk, which may fail. -/
def see {ε α : Type} (f : ε → CommandError) (g : Disk → Except ε α) : Step α :=
  .look fun d => wrapped f (g d)

/-- The settings of a project. -/
def settings (host : Host) (root : String) : Step Settings :=
  see .settings fun d => Workspace.settings host.environment d root

def loadIndex (root : String) : Step Project :=
  .look fun d =>
    if Workspace.hasIndex d root then
      wrapped .workspace ((Workspace.load d root).map StoredProject.project)
    else .error .noIndex

def findTarget (p : Project) (className signature : String) : Step (ClassInfo × MethodInfo) :=
  match p.class? className with
  | none => .fail (.unknownClass className)
  | some c =>
    match c.method? signature with
    | none => .fail (.unknownMethod signature c.fullName c.methods.keys)
    | some m => .pure (c, m)

/-- How classes outside the project are resolved: not at all without a decompiler. -/
def resolver (host : Host) (root : String) (s : Settings) (d : Disk) : Resolver :=
  match DecompilerCommand.ofSettings? s.decompiler with
  | none => {}
  | some c =>
    let c := { c with archive := Path.join root c.archive }
    { locations := s.context.dependencyPaths.map fun path => .ofDisk d (Path.join root path)
      decompiler := some (c.decompiler host.launch d)
      caching := s.context.cacheDecompiled }

end Testwright.CommandLine
