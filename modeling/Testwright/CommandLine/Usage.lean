import Testwright.Settings.Basic

/-!
# The commands of the command line

What the command line can be asked for: a list of commands, each with the options and arguments it
takes, and the help that is printed for them.
-/

namespace Testwright.CommandLine

inductive ValueKind where
  | text
  /-- A path, which is not empty. -/
  | path
  /-- A number below `2 ^ 64`. -/
  | count
  deriving DecidableEq, Repr, Inhabited

namespace ValueKind

def accepts (kind : ValueKind) (value : String) : Bool :=
  match kind with
  | text => true
  | path => !value.isEmpty
  | count => (Settings.number? value).isSome

end ValueKind

structure OptionSpec where
  long : String
  short : Option Char := none
  /-- The name and kind of its value; a flag has none. -/
  value : Option (String × ValueKind) := none
  repeatable : Bool := false
  about : String
  deriving Repr, Inhabited

/-- An argument that is not an option. -/
structure ArgumentSpec where
  name : String
  kind : ValueKind := .text
  required : Bool := true
  about : String := ""
  deriving Repr, Inhabited

structure CommandSpec where
  name : String
  about : String
  arguments : List ArgumentSpec := []
  options : List OptionSpec := []
  /-- Options that exclude each other. -/
  exclusive : List String := []
  deriving Repr, Inhabited

/-- The option for the root of the project, which every command takes. -/
def projectOption : OptionSpec where
  long := "project"
  short := some 'p'
  value := some ("PROJECT", .path)
  about := "Project root directory (defaults to current directory)"

/-- The option for help, which every command takes. -/
def helpOption : OptionSpec where
  long := "help"
  short := some 'h'
  about := "Print help"

/-- The commands, each with its options in the order of its help. -/
def commands : List CommandSpec :=
  [{ name := "index"
     about := "Parse Java sources and save the project index"
     options :=
      [projectOption,
        { long := "source-root", value := some ("SOURCE_ROOTS", .path), repeatable := true
          about := "Source roots to index (repeatable; defaults to harness.source_roots)" }] },
    { name := "context"
      about := "Print the assembled prompt context for a method"
      arguments :=
        [{ name := "CLASS", about := "Fully-qualified (or unambiguous simple) class name" },
          { name := "SIGNATURE", about := "Method signature, e.g. \"add(int,String)\"" }]
      options := [projectOption] },
    { name := "gate"
      about := "Print the decision profile and gate decision for a method"
      arguments := [{ name := "CLASS" }, { name := "SIGNATURE" }]
      options := [projectOption] },
    { name := "run"
      about := "Generate, validate and repair tests for a method"
      arguments := [{ name := "CLASS" }, { name := "SIGNATURE" }]
      options :=
        [{ long := "attempts", value := some ("ATTEMPTS", .count)
           about := "Independent attempts (defaults to generation.attempt_count)" },
          projectOption,
          { long := "max-rounds", value := some ("MAX_ROUNDS", .count)
            about :=
              "Repair rounds after the first generation (defaults to generation.max_rounds)" },
          { long := "parallel", about := "Run every attempt concurrently" },
          { long := "exhaustive"
            about := "Run every attempt sequentially, even after a success" }]
      exclusive := ["parallel", "exhaustive"] },
    { name := "decompile"
      about := "Reconstruct a compiled dependency class from the search path"
      arguments := [{ name := "CLASS", about := "Fully-qualified class name" }]
      options :=
        [{ long := "method", value := some ("METHODS", .text), repeatable := true
           about := "Keep the body of this method (repeatable)" },
          projectOption] },
    { name := "extract-classes"
      about := "Print class names implicated in compiler or test diagnostics"
      arguments :=
        [{ name := "FILE", kind := .path, required := false
           about := "Diagnostics file (reads stdin when omitted)" }]
      options := [projectOption] }]

def command? (name : String) : Option CommandSpec := commands.find? fun c => c.name == name

/-! ## Help -/

/-- The name of the program. -/
def program : String := "unitsmith"

/-- Two columns of text with a heading; the second column is aligned. -/
def columns (heading : String) (rows : List (String × String)) : String :=
  let width := (rows.map fun r => r.1.length).foldl max 0
  let row (r : String × String) : String :=
    "  " ++ r.1 ++ String.ofList (List.replicate (width - r.1.length + 2) ' ') ++ r.2 ++ "\n"
  "\n" ++ heading ++ ":\n" ++ String.join (rows.map row)

namespace OptionSpec

def shown (o : OptionSpec) : String :=
  let short := match o.short with
    | some c => "-" ++ .ofList [c] ++ ", "
    | none => "    "
  let value := match o.value with
    | some (name, _) => " <" ++ name ++ ">"
    | none => ""
  short ++ "--" ++ o.long ++ value

end OptionSpec

def ArgumentSpec.shown (a : ArgumentSpec) : String :=
  if a.required then "<" ++ a.name ++ ">" else "[" ++ a.name ++ "]"

/-- The options of a command as help shows them. -/
def optionRows (options : List OptionSpec) : List (String × String) :=
  (options ++ [helpOption]).map fun o => (o.shown, o.about)

def CommandSpec.help (c : CommandSpec) : String :=
  let arguments := c.arguments.map fun a => (a.shown, a.about)
  c.about ++ "\n\nUsage: " ++ program ++ " " ++ c.name ++ " [OPTIONS]" ++
    String.join (arguments.map fun a => " " ++ a.1) ++ "\n" ++
    (if arguments.isEmpty then "" else columns "Arguments" arguments) ++
    columns "Options" (optionRows c.options)

/-- What the command for help says about itself. -/
def aboutHelp : String := "Print this message or the help of the given subcommand(s)"

/-- The help for all commands. -/
def help : String :=
  "LLM unit-test synthesis for Java\n\nUsage: " ++ program ++ " [OPTIONS] <COMMAND>\n" ++
    columns "Commands" ((commands.map fun c => (c.name, c.about)) ++ [("help", aboutHelp)]) ++
    columns "Options" (optionRows [projectOption])

def helpOfHelp : String :=
  aboutHelp ++ "\n\nUsage: " ++ program ++ " help [COMMAND]...\n" ++
    columns "Arguments" [("[COMMAND]...", "Print help for the subcommand(s)")]

end Testwright.CommandLine
