import Testwright.Tool.Shell

/-!
# Starting programs

A program named by a path is a script on the disk that may be executed; one named without a slash
is a standard utility or the shell. Scripts start further programs, to a bounded depth.
-/

namespace Testwright.Tool

/-- The names of shells. -/
def shells : List String := ["sh", "bash", "dash"]

/-- Whether the first line of a script names a shell. -/
def isForShell (line : List Char) : Bool :=
  match ((Text.fields ' ' (Text.trim line)).filter fun w => !w.isEmpty).map
      fun w => String.ofList (Text.afterLast '/' w) with
  | "env" :: name :: _ => shells.contains name
  | name :: _ => shells.contains name
  | [] => false

/-- The script in the file at a path, if it can be executed. -/
def scriptAt (d : Disk) (path : String) : Except DiskError String :=
  match d.find path with
  | .error e => .error e
  | .ok .directory => .error .denied
  | .ok (.file _ false) => .error .denied
  | .ok (.file (.archive _) true) => .error .notProgram
  | .ok (.file (.bytes data) true) =>
    let text := Utf8.lenient data
    match Text.lines text.toList with
    | ('#' :: '!' :: line) :: _ => if isForShell line then .ok text else .error .missing
    | _ => .error .notProgram

/-- Run the shell itself: on a script given as an argument or in a file. -/
def runShell (external : Bytes → Launcher) (input : Bytes) (arguments : List String) (d : Disk) :
    Output × Disk :=
  match arguments with
  | "-c" :: text :: name :: rest => Shell.script external input name text rest d
  | ["-c", text] => Shell.script external input "sh" text [] d
  | path :: rest =>
    match d.readText path with
    | .ok text => Shell.script external input path text rest d
    | .error _ =>
      ({ status := .exited 2
         stderr := Utf8.encode ("sh: 0: cannot open " ++ path ++ ": No such file\n") }, d)
  | [] => Shell.script external [] "sh" (Utf8.lenient input) [] d

/-- Start a program, with at most `depth` programs within one another. -/
def startWith : Nat → Bytes → Launcher
  | 0, _, _, d => (.error .missing, d)
  | depth + 1, input, call, d =>
    let external := startWith depth
    if call.program.toList.contains '/' then
      match scriptAt d call.program with
      | .error e => (.error e, d)
      | .ok text =>
        let (o, d) := Shell.script external input call.program text call.arguments d
        (.ok o, d)
    else if shells.contains call.program then
      let (o, d) := runShell external input call.arguments d
      (.ok o, d)
    else
      match Utility.find? false call.program with
      | some action =>
        let (o, d) := action call.arguments input d
        (.ok o, d)
      | none => (.error .missing, d)

/-- How many programs may start one another. -/
def maxDepth : Nat := 16

/-- Start a program that reads nothing. -/
def start : Launcher := startWith maxDepth []

end Testwright.Tool
