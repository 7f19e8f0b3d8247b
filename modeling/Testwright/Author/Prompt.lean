import Testwright.Author.Answer

/-!
# Prompts

The texts sent to an author: the standing instructions, the request for a first test and the
request to repair one. A request is a template in which each place holder, a name in braces, is
replaced by its value; values are never searched for place holders.
-/

namespace Testwright.Prompt

/-! ## Templates -/

/-- The standing instructions. -/
def instructions : String :=
  "\n".intercalate [
    "You are a senior Java engineer who writes focused, deterministic JUnit 5 unit tests.",
    "",
    "Rules:",
    "- Answer with exactly one ```java fenced code block holding one complete, compilable test class.",
    "- Use JUnit 5 (`org.junit.jupiter.api.*`) and static assertions from `org.junit.jupiter.api.Assertions`.",
    "- Only call constructors and methods that appear in the provided context. Signatures ending in `;` are declarations of public API whose bodies were omitted.",
    "- Cover each branch of the method under test with its own test method and a meaningful assertion.",
    "- Do not use reflection to reach private members. Do not read files, the network, or the clock.",
    "- Keep the package and test class name exactly as requested."] ++ "\n"

/-- The template of the request for a first test. -/
def generationTemplate : String :=
  "\n".intercalate [
    "Write unit tests for `\x7bmethod_signature\x7d` in class `\x7bclass_name\x7d`.",
    "",
    "Name the test class `\x7btest_class_name\x7d` and declare it in package `\x7bpackage\x7d`.",
    "",
    "## Class under test",
    "",
    "```java",
    "\x7bcontext\x7d",
    "```",
    "",
    "## Other members of the class",
    "",
    "```java",
    "\x7bother_method_brief\x7d",
    "```",
    "\x7bdependencies\x7d"] ++ "\n"

/-- The template of the request to repair a test. -/
def repairTemplate : String :=
  "\n".intercalate [
    "The test class below for `\x7bmethod_signature\x7d` in `\x7bclass_name\x7d` failed (round \x7bround\x7d).",
    "",
    "## Failing test",
    "",
    "```java",
    "\x7btest_source\x7d",
    "```",
    "",
    "## Compiler and test runner output",
    "",
    "```",
    "\x7bdiagnostics\x7d",
    "```",
    "",
    "Fix the test so it compiles and passes. Keep the class name `\x7btest_class_name\x7d` and package `\x7bpackage\x7d`.",
    "Remove assertions you cannot justify from the code under test rather than guessing.",
    "",
    "## Class under test",
    "",
    "```java",
    "\x7bcontext\x7d",
    "```",
    "\x7bdependencies\x7d"] ++ "\n"

/-- Whether a character can stand in the name of a place holder. -/
def isNameChar (c : Char) : Bool := c.isLower || c == '_'

/-- A piece of a template. -/
inductive Piece where
  | text (c : Char)
  | placeholder (name : List Char)
  deriving DecidableEq, Repr

/-- The place holder at the beginning of a text. -/
def placeholder? : List Char → Option (List Char)
  | '\x7b' :: rest =>
    match rest.takeWhile isNameChar, rest.dropWhile isNameChar with
    | [], _ => none
    | name, '\x7d' :: _ => some name
    | _, _ => none
  | _ => none

/-- The pieces of a template; `skip` characters belong to the last place holder. -/
def piecesFrom (skip : Nat) : List Char → List Piece
  | [] => []
  | c :: rest =>
    match skip with
    | skip + 1 => piecesFrom skip rest
    | 0 =>
      match placeholder? (c :: rest) with
      | some name => .placeholder name :: piecesFrom (name.length + 1) rest
      | none => .text c :: piecesFrom 0 rest

def pieces (template : String) : List Piece := piecesFrom 0 template.toList

/-- A piece with its place holder replaced by the first value of its name, if there is one. -/
def fill (values : List (String × String)) : Piece → List Char
  | .text c => [c]
  | .placeholder name =>
    match values.find? fun v => v.1.toList == name with
    | some v => v.2.toList
    | none => '\x7b' :: name ++ ['\x7d']

/-- A template with its place holders replaced. -/
def render (template : String) (values : List (String × String)) : String :=
  .ofList ((pieces template).flatMap (fill values))

/-! ## Dependencies -/

/-- A text in a fenced block of Java. -/
def javaBlock (source : String) : String :=
  "```java\n" ++ onChars Text.trim source ++ "\n```\n"

/-- The section of one map of dependencies. -/
def depsSection (title : String) (deps : Dict String) : String :=
  if deps.isEmpty then ""
  else
    "\n## " ++ title ++ "\n" ++
      String.join (deps.entries.map fun e => "\n### `" ++ e.1 ++ "`\n\n" ++ javaBlock e.2)

def dependencies (d : Dossier) : String :=
  depsSection "Constructor dependencies" d.constructorDeps ++
  depsSection "Constructor dependencies (from compiled libraries)" d.externalConstructorDeps ++
  depsSection "Called classes" d.methodDeps ++
  depsSection "Called classes (from compiled libraries)" d.externalMethodDeps

/-! ## Requests -/

/-- The most characters of diagnostics that are sent. -/
def maxDiagnostics : Nat := 6000

/-- The beginning and the end of a text that is too long. -/
def clip (max : Nat) (s : List Char) : List Char :=
  if s.length ≤ max then s
  else
    s.take (max / 2) ++ "\n... [truncated] ...\n".toList ++ s.drop (s.length - max / 2)

/-- The name in the package declaration of the class under test. -/
def packageOf (d : Dossier) : String := onChars Answer.packageName d.package

/-- The request for a first test. -/
def generation (d : Dossier) : String :=
  render generationTemplate
    [("method_signature", d.methodSignature), ("class_name", d.className),
      ("test_class_name", d.testClassName), ("package", packageOf d),
      ("context", d.fullContext), ("other_method_brief", onChars Text.trim d.otherBriefs),
      ("dependencies", dependencies d)]

def repair (d : Dossier) (test : UnitTest) (diagnostics : String) : String :=
  render repairTemplate
    [("method_signature", d.methodSignature), ("class_name", d.className),
      ("round", toString d.round), ("test_source", onChars Text.trim test.source),
      ("diagnostics", onChars (fun s => clip maxDiagnostics (Text.trim s)) diagnostics),
      ("test_class_name", d.testClassName), ("package", packageOf d),
      ("context", d.fullContext), ("dependencies", dependencies d)]

end Testwright.Prompt
