import Testwright.CommandLine.Usage

/-!
# Reading the command line

Words are read from left to right: options, which begin with a dash, until two dashes stand alone,
and arguments. What is asked for is a `Request`; help is given as soon as it is asked for, unless a
word before it is wrong.
-/

namespace Testwright.CommandLine

/-- The flags of a run. -/
structure RunOptions where
  attempts : Option Nat := none
  maxRounds : Option Nat := none
  parallel : Bool := false
  exhaustive : Bool := false
  deriving DecidableEq, Repr, Inhabited

/-- What is asked for. -/
inductive Command where
  | index (sourceRoots : List String)
  | context (className signature : String)
  | gate (className signature : String)
  | run (className signature : String) (options : RunOptions)
  | decompile (className : String) (methods : List String)
  | extractClasses (file : Option String)
  deriving DecidableEq, Repr, Inhabited

/-- A command for a project. -/
structure Request where
  /-- The root of the project, unless it is the current directory. -/
  project : Option String
  command : Command
  deriving DecidableEq, Repr, Inhabited

/-- Why there is no request. -/
inductive NoRequest where
  | help (text : String)
  | wrong
  deriving DecidableEq, Repr, Inhabited

/-- The words read so far: options with their values, flags with an empty one, and arguments. -/
structure Matches where
  options : List (String × String) := []
  arguments : List String := []
  deriving Repr, Inhabited

namespace Matches

def value? (m : Matches) (name : String) : Option String :=
  (m.options.find? fun o => o.1 == name).map (·.2)

/-- All values of an option, in order. -/
def values (m : Matches) (name : String) : List String :=
  (m.options.filter fun o => o.1 == name).map (·.2)

/-- Whether an option was given. -/
def has (m : Matches) (name : String) : Bool := (m.value? name).isSome

/-- The words with a further option, unless it is wrong. -/
def add (m : Matches) (o : OptionSpec) (value : String) : Except NoRequest Matches :=
  let kind := (o.value.map (·.2)).getD .text
  if (m.has o.long && !o.repeatable) || !kind.accepts value then .error .wrong
  else .ok { m with options := m.options ++ [(o.long, value)] }

/-- The words with a further argument, unless there are too many. -/
def addArgument (m : Matches) (specs : List ArgumentSpec) (word : String) :
    Except NoRequest Matches :=
  match specs[m.arguments.length]? with
  | none => .error .wrong
  | some spec =>
    if spec.kind.accepts word then .ok { m with arguments := m.arguments ++ [word] }
    else .error .wrong

end Matches

/-- What is read at a level of the command line. -/
structure Level where
  help : String
  options : List OptionSpec
  arguments : List ArgumentSpec
  /-- Whether an argument is the name of a command and ends the level. -/
  hasCommands : Bool

def isOption (word : String) : Bool := word.toList.head? == some '-' && word != "-"

/-- The value of an option: the one behind it in its word, or else the next word. -/
def takeValue (attached : Option String) (rest : List String) :
    Except NoRequest (String × List String) :=
  match attached, rest with
  | some value, _ => .ok (value, rest)
  | none, value :: rest => if isOption value then .error .wrong else .ok (value, rest)
  | none, [] => .error .wrong

/-- Read a long option, without its dashes. -/
def readLong (level : Level) (word : List Char) (rest : List String) (m : Matches) :
    Except NoRequest (Matches × List String) := do
  let (name, attached) := match Text.cutAt? '=' word with
    | some (name, value) => (String.ofList name, some (String.ofList value))
    | none => (.ofList word, none)
  if name == helpOption.long then
    throw (if attached.isSome then .wrong else .help level.help)
  match level.options.find? fun o => o.long == name with
  | none => throw .wrong
  | some o =>
    match o.value with
    | none => if attached.isSome then throw .wrong else return (← m.add o "", rest)
    | some _ =>
      let (value, rest) ← takeValue attached rest
      return (← m.add o value, rest)

/-- Read short options, without their dash. -/
def readShort (level : Level) (rest : List String) :
    List Char → Matches → Except NoRequest (Matches × List String)
  | [], m => .ok (m, rest)
  | c :: word, m =>
    if helpOption.short == some c then .error (.help level.help)
    else
      match level.options.find? fun o => o.short == some c with
      | none => .error .wrong
      | some o =>
        match o.value with
        | none =>
          match m.add o "" with
          | .ok m => readShort level rest word m
          | .error e => .error e
        | some _ => do
          let attached := match word with
            | [] => none
            | '=' :: value => some (String.ofList value)
            | value => some (.ofList value)
          let (value, rest) ← takeValue attached rest
          return (← m.add o value, rest)

/-- Read words at a level, up to the name of a command; the number bounds how many. -/
def read (level : Level) : Nat → Matches → List String →
    Except NoRequest (Matches × Option (String × List String))
  | 0, m, _ => .ok (m, none)
  | _ + 1, m, [] => .ok (m, none)
  | n + 1, m, word :: rest =>
    match word.toList with
    | ['-', '-'] => do
      let m ← rest.foldlM (fun m w => m.addArgument level.arguments w) m
      return (m, none)
    | '-' :: '-' :: long => do
      let (m, rest) ← readLong level long rest m
      read level n m rest
    | '-' :: c :: short => do
      let (m, rest) ← readShort level rest (c :: short) m
      read level n m rest
    | _ =>
      if level.hasCommands then .ok (m, some (word, rest))
      else do
        let m ← m.addArgument level.arguments word
        read level n m rest

/-- The level of the program itself. -/
def topLevel : Level where
  help := help
  options := [projectOption]
  arguments := []
  hasCommands := true

def CommandSpec.level (c : CommandSpec) : Level where
  help := c.help
  options := c.options
  arguments := c.arguments
  hasCommands := false

/-- Whether the words of a command are complete and go together. -/
def CommandSpec.isComplete (c : CommandSpec) (m : Matches) : Bool :=
  (c.arguments.drop m.arguments.length).all (fun a => !a.required) &&
    !(1 < (c.exclusive.filter m.has).length)

/-- The number of an option. -/
def Matches.count? (m : Matches) (name : String) : Option Nat :=
  (m.value? name).bind Settings.number?

def Matches.command? (m : Matches) (name : String) : Option Command :=
  match name, m.arguments with
  | "index", _ => some (.index (m.values "source-root"))
  | "context", [className, signature] => some (.context className signature)
  | "gate", [className, signature] => some (.gate className signature)
  | "run", [className, signature] =>
    some (.run className signature
      { attempts := m.count? "attempts", maxRounds := m.count? "max-rounds"
        parallel := m.has "parallel", exhaustive := m.has "exhaustive" })
  | "decompile", [className] => some (.decompile className (m.values "method"))
  | "extract-classes", [] => some (.extractClasses none)
  | "extract-classes", [file] => some (.extractClasses (some file))
  | _, _ => none

/-- What the command for help is asked for. -/
def helpFor (words : List String) : NoRequest :=
  match words with
  | [] => .help help
  | ["help"] => .help helpOfHelp
  | [name] =>
    match CommandLine.command? name with
    | some c => .help c.help
    | none => .wrong
  | _ => .wrong

/-- The request of a command line. -/
def parse (words : List String) : Except NoRequest Request := do
  let (top, rest) ← read topLevel (words.length + 1) {} words
  match rest with
  | none => throw .wrong
  | some ("help", rest) => throw (helpFor rest)
  | some (name, rest) =>
    match CommandLine.command? name with
    | none => throw .wrong
    | some spec =>
      let (m, _) ← read spec.level (rest.length + 1) {} rest
      match (if spec.isComplete m then m.command? name else none) with
      | none => throw .wrong
      | some command => return ⟨(m.value? "project").or (top.value? "project"), command⟩

end Testwright.CommandLine
