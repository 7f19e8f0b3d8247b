import Std.Time.DateTime.Timestamp
import Testwright.CommandLine.Run
import Testwright.Tool.Launch

/-!
# The program

The program runs a command line on a copy of the project. The standard input lists the files of the
project, one path a line; for `extract-classes` without a file it holds the diagnostics. Files that
a command writes are written back at its end.
-/

namespace Testwright.Main

/-- The variables of the environment that commands look at. -/
def variableNames : List String :=
  ["UNITSMITH_MAX_ROUNDS", "UNITSMITH_ATTEMPTS", "UNITSMITH_STOP_WHEN_SUCCESS",
    "UNITSMITH_MULTITHREADING", "UNITSMITH_DEPENDENCY_DEPTH", "UNITSMITH_DEPENDENCY_PATHS"] ++
    Vendor.all.map Vendor.keyVariable

/-- The set variables with their values. -/
def environment : IO (Dict String) := do
  let mut values : Dict String := ∅
  for name in variableNames do
    if let some value ← IO.getEnv name then values := values.insert name value
  return values

/-- A disk with a further file; files that begin like scripts may be executed. -/
def withFile (d : Disk) (path : String) (data : Bytes) : Disk :=
  let made := (d.makeDirectories ((Path.parent? (d.absolute path)).getD "/")).toOption.getD d
  match made.place path with
  | .ok place => made.put place (.file (.bytes data) ([35, 33].isPrefixOf data))
  | .error _ => made

/-- A disk with the listed files; lines that name none are left out. -/
def snapshot (current : String) (list : String) : IO Disk := do
  let start : Disk := { current }
  let mut d := (start.makeDirectories current).toOption.getD start
  for line in Text.lines list.toList do
    let path := String.ofList line
    try
      let data ← IO.FS.readBinFile path
      d := withFile d path data.toList
    catch _ => pure ()
  return d

/-- Write the files that differ between two disks. -/
def writeBack (before after : Disk) : IO Unit := do
  for (place, node) in after.nodes.entries do
    if before.nodes.get? place ≠ some node then
      match node with
      | .file (.bytes data) _ =>
        IO.FS.createDirAll (Disk.parentPlace place)
        IO.FS.writeBinFile place ⟨data.toArray⟩
      | _ => pure ()

/-- Run the command line of some words. -/
def run (words : List String) : IO UInt32 := do
  let stdin ← IO.getStdin
  let input ← stdin.readToEnd
  let current := (← IO.getEnv "PWD").getD "/"
  let before ← snapshot current input
  let values ← environment
  let now ← Std.Time.Timestamp.now
  let host : CommandLine.Host :=
    { environment := values.get?, input, launch := Tool.start, transport := .offline
      now := .ofNanoseconds now.toNanosecondsSinceUnixEpoch.val }
  let (result, after) := CommandLine.run host words before
  writeBack before after
  (← IO.getStdout).putStr result.printed.stdout
  (← IO.getStderr).putStr result.printed.stderr
  return .ofNat result.code

end Testwright.Main

/-- The program: the words of the command line decide what is done. -/
def main (words : List String) : IO UInt32 := Testwright.Main.run words
