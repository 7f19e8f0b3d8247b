import Testwright.CommandLine.Generate
import Testwright.CommandLine.Inspect

/-!
# Running the command line

The words of a command line become a request, the request is carried out on a disk, and the result
is a status with what is printed: 0 if all went well, 1 after an error, and 2 if the words make no
request.
-/

namespace Testwright.CommandLine

/-- What running a command line comes to. -/
structure Result where
  code : Nat
  printed : Printed
  deriving DecidableEq, Repr, Inhabited

/-- Carry out a command for the project at a root. -/
def perform (host : Host) (root : String) : Command → Step Printed
  | .index sourceRoots => index host root sourceRoots
  | .context className signature => context host root className signature
  | .gate className signature => gate host root className signature
  | .run className signature options => generate host root className signature options
  | .decompile className methods => decompile host root className methods
  | .extractClasses file => extractClasses host file

/-- The result of a step. -/
def conclude : Except CommandError Printed → Result
  | .ok printed => ⟨0, printed⟩
  | .error e => ⟨1, { stderr := "Error: " ++ e.message ++ "\n" }⟩

/-- The result of words that make no request. -/
def refuse : NoRequest → Result
  | .help text => ⟨0, { stdout := text }⟩
  | .wrong => ⟨2, { stderr := "error: invalid arguments\n\n" ++ help }⟩

/-- Run a command line on a disk. -/
def run (host : Host) (words : List String) (d : Disk) : Result × Disk :=
  match parse words with
  | .error e => (refuse e, d)
  | .ok request =>
    let (r, d) := perform host (request.project.getD d.current) request.command d
    (conclude r, d)

end Testwright.CommandLine
