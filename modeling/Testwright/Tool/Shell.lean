import Testwright.Tool.Script
import Testwright.Tool.Utility

/-!
# Running scripts

A script runs its pipelines one after another, each if the condition on the status before it holds,
until one of them ends the script. What a command writes goes where its redirections lead.
-/

namespace Testwright

open Script

/-- The state of a running script. -/
structure Shell where
  /-- The name of the script. -/
  name : String
  arguments : List String
  disk : Disk
  /-- The values of variables. -/
  bindings : Dict String := ∅
  /-- The status of the last command. -/
  status : Nat := 0
  stdout : Bytes := []
  stderr : Bytes := []
  /-- How the script ended, once it has. -/
  ended : Option ExitStatus := none
  deriving Repr, Inhabited

namespace Shell

/-- The number of the script's process. -/
def processId : String := "4711"

/-! ## Expansion -/

/-- The value of a parameter. -/
def parameter (sh : Shell) (name : String) : String :=
  match name with
  | "#" => toString sh.arguments.length
  | "?" => toString sh.status
  | "$" => processId
  | "0" => sh.name
  | "@" => " ".intercalate sh.arguments
  | "*" => " ".intercalate sh.arguments
  | name =>
    match name.toNat? with
    | some n => (sh.arguments[n - 1]?).getD ""
    | none => (sh.bindings.get? name).getD ""

/-- The fields of a word so far, the latest first, the last of which may still grow. -/
structure Fields where
  done : List String := []
  present : Option String := none

namespace Fields

/-- Text is added to the last field. -/
def add (f : Fields) (s : String) : Fields := { f with present := some (f.present.getD "" ++ s) }

/-- The last field ends. -/
def cut (f : Fields) : Fields :=
  match f.present with
  | some s => ⟨s :: f.done, none⟩
  | none => f

/-- Several fields are added, the first to the last one. -/
def addAll (f : Fields) : List String → Fields
  | [] => f
  | [s] => f.add s
  | s :: rest => addAll (f.add s).cut rest

/-- A text is added that is cut at blanks. -/
def addSplit (f : Fields) (s : String) : Fields :=
  s.toList.foldl (fun f c =>
    if c = ' ' || c = '\t' || c = '\n' then f.cut else f.add (.ofList [c])) f

/-- All fields in order. -/
def toList (f : Fields) : List String := f.cut.done.reverse

end Fields

def expandSegment (sh : Shell) (f : Fields) : Segment → Fields
  | .text value _ => f.add value
  | .parameter "@" true => f.addAll sh.arguments
  | .parameter name true => f.add (sh.parameter name)
  | .parameter name false => f.addSplit (sh.parameter name)

/-- The fields of a word. -/
def expand (sh : Shell) (w : Word) : List String := (w.foldl sh.expandSegment {}).toList

def expandText (sh : Shell) (w : Word) : String := " ".intercalate (sh.expand w)

/-! ## Redirections -/

/-- Where a stream of a command leads. -/
inductive Sink where
  | stdout
  | stderr
  | pipe
  | file (path : String)
  | nowhere
  deriving DecidableEq, Repr, Inhabited

/-- The streams of a command. -/
structure Streams where
  input : Bytes := []
  out : Sink := .stdout
  err : Sink := .stderr
  deriving Repr, Inhabited

/-- The path whose content is always empty. -/
def nullPath : String := "/dev/null"

/-- Open a file to write, which empties it unless it is extended. -/
def openSink (sh : Shell) (extend : Bool) (path : String) : Except DiskError (Sink × Shell) :=
  if path == nullPath then .ok (.nowhere, sh)
  else if extend && sh.disk.isFile path then .ok (.file path, sh)
  else (sh.disk.write path (.bytes [])).map fun d => (.file path, { sh with disk := d })

/-- The streams with one of the two outputs set. -/
def Streams.set (s : Streams) (stream : Nat) (sink : Sink) : Streams :=
  if stream = 2 then { s with err := sink } else { s with out := sink }

/-- Apply a redirection. -/
def redirect (st : Streams × Shell) : Redirection → Except DiskError (Streams × Shell)
  | .write stream w =>
    (st.2.openSink false (st.2.expandText w)).map fun (sink, sh) => (st.1.set stream sink, sh)
  | .append stream w =>
    (st.2.openSink true (st.2.expandText w)).map fun (sink, sh) => (st.1.set stream sink, sh)
  | .duplicate stream w =>
    let sink := if st.2.expandText w == "2" then st.1.err else st.1.out
    .ok (st.1.set stream sink, st.2)
  | .read w =>
    let path := st.2.expandText w
    if path == nullPath then .ok ({ st.1 with input := [] }, st.2)
    else
      match st.2.disk.read path with
      | .ok (.bytes data) => .ok ({ st.1 with input := data }, st.2)
      | .ok (.archive _) => .ok ({ st.1 with input := [] }, st.2)
      | .error e => .error e

/-- Send bytes to a sink; also what goes into the pipe. -/
def emit (sh : Shell) (sink : Sink) (data : Bytes) : Bytes × Shell :=
  match sink with
  | .stdout => ([], { sh with stdout := sh.stdout ++ data })
  | .stderr => ([], { sh with stderr := sh.stderr ++ data })
  | .pipe => (data, sh)
  | .nowhere => ([], sh)
  | .file path =>
    let before : Bytes := match sh.disk.read path with
      | .ok (.bytes data) => data
      | _ => []
    match sh.disk.write path (.bytes (before ++ data)) with
    | .ok d => ([], { sh with disk := d })
    | .error _ => ([], sh)

/-! ## Commands -/

def signal? (option : String) : Option Nat :=
  match option.toNat? with
  | some n => some n
  | none =>
    let name := match Text.dropPrefix? ['S', 'I', 'G'] option.toList with
      | some rest => .ofList rest
      | none => option
    (ExitStatus.signals.find? fun s => s.2 == name).map (·.1)

/-- The signal and the process of the arguments of `kill`. -/
def killArguments? : List String → Option (Nat × String)
  | ["-s", name, target] => (signal? name).map fun s => (s, target)
  | [option, target] =>
    match option.toList with
    | '-' :: name => (signal? (.ofList name)).map fun s => (s, target)
    | _ => none
  | [target] => some (15, target)
  | _ => none

/-- The state after a command with a status. -/
def withStatus (sh : Shell) (status : Nat) : Shell := { sh with status }

/-- Run a command by its fields: what it leaves behind. Commands that the script itself is made of
come first, then utilities, then programs. -/
def execute (external : Bytes → Launcher) (input : Bytes) (name : String) (args : List String)
    (sh : Shell) : Output × Shell :=
  match name with
  | ":" => ({}, sh)
  | "set" => ({}, sh)
  | "shift" => ({}, { sh with arguments := sh.arguments.drop 1 })
  | "exit" =>
    let code := match args with
      | code :: _ => (code.toNat?).getD 2 % 256
      | [] => sh.status
    ({ status := .exited code }, { sh with ended := some (.exited code) })
  | "kill" =>
    match killArguments? args with
    | some (signal, target) =>
      if target == processId then
        ({ status := .killed signal }, { sh with ended := some (.killed signal) })
      else (Utility.status false, sh)
    | none => (Utility.status false, sh)
  | name =>
    match Utility.find? true name with
    | some action =>
      let (o, d) := action args input sh.disk
      (o, { sh with disk := d })
    | none =>
      match external input ⟨name, args⟩ sh.disk with
      | (.ok o, d) => (o, { sh with disk := d })
      | (.error e, d) =>
        let (code, why) := match e with
          | .missing => (127, "not found")
          | e => (126, Utility.reason e)
        ({ status := .exited code
           stderr := Utf8.encode (sh.name ++ ": 1: " ++ name ++ ": " ++ why ++ "\n") },
          { sh with disk := d })

/-- Bind the variables that a command sets. -/
def assign (sh : Shell) (assignments : List (String × Word)) : Shell :=
  assignments.foldl (fun sh a =>
    { sh with bindings := sh.bindings.insert a.1 (sh.expandText a.2) }) sh

/-- Run a command with its redirections; also what goes into the pipe. -/
def command (external : Bytes → Launcher) (streams : Streams) (c : Command) (sh : Shell) :
    Bytes × Shell :=
  let sh := sh.assign c.assignments
  match c.redirections.foldlM redirect (streams, sh) with
  | .error e =>
    let message := sh.name ++ ": 1: cannot open file: " ++ Utility.reason e ++ "\n"
    ([], ({ sh with stderr := sh.stderr ++ Utf8.encode message }).withStatus 2)
  | .ok (streams, sh) =>
    match c.words.flatMap sh.expand with
    | [] => ([], sh.withStatus 0)
    | name :: args =>
      let (o, sh) := execute external streams.input name args sh
      let (fromOut, sh) := sh.emit streams.out o.stdout
      let (fromErr, sh) := sh.emit streams.err o.stderr
      (fromOut ++ fromErr, sh.withStatus o.status.code)

/-- Run the commands of a pipeline; each but the last writes for the next one, and cannot end the
script. -/
def pipeline (external : Bytes → Launcher) (input : Bytes) : List Command → Shell → Shell
  | [], sh => sh
  | [c], sh => (command external { input } c sh).2
  | c :: rest, sh =>
    let (output, sh') := command external { input, out := .pipe } c sh
    pipeline external output rest { sh' with ended := sh.ended }

/-- Whether a pipeline runs after a status. -/
def isDue (status : Nat) : Condition → Bool
  | .always => true
  | .onSuccess => status == 0
  | .onFailure => status != 0

/-- Run pipelines until the script ends. -/
def run (external : Bytes → Launcher) (input : Bytes) : List Pipeline → Shell → Shell
  | [], sh => sh
  | p :: rest, sh =>
    if sh.ended.isSome then sh
    else if isDue sh.status p.condition then
      run external input rest (pipeline external input p.commands sh)
    else run external input rest sh

/-- Run a script under a name with arguments. -/
def script (external : Bytes → Launcher) (input : Bytes) (name text : String)
    (arguments : List String) (d : Disk) : Output × Disk :=
  match Script.parse? text with
  | none =>
    ({ status := .exited 2, stderr := Utf8.encode (name ++ ": 1: Syntax error\n") }, d)
  | some pipelines =>
    let sh := run external input pipelines { name, arguments, disk := d }
    ({ status := sh.ended.getD (.exited sh.status), stdout := sh.stdout, stderr := sh.stderr },
      sh.disk)

end Shell

end Testwright
