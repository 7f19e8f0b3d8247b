import Testwright.Attempt.Dossier
import Testwright.Text.CharClass

/-!
# Tests in answers

An author answers in prose with code in fenced blocks. `codeBlock?` finds the block that holds the
test, `className?` and `package?` read what a code declares, and `test?` makes a test of an answer
whose package, name and source agree.
-/

namespace Testwright.Answer

/-! ## Fenced blocks -/

/-- The three backticks around a block. -/
def fence : List Char := ['\x60', '\x60', '\x60']

/-- Whether a character can stand in the tag of a block. -/
def isTagChar (c : Char) : Bool := c.isAlphanum || c == '_' || c == '+' || c == '-'

/-- A fenced block: its tag and what it holds. -/
structure Block where
  tag : List Char
  body : List Char
  deriving DecidableEq, Repr, Inhabited

/-- The first block of a text and the text after it. -/
def nextBlock? (s : List Char) : Option (Block × List Char) :=
  match Text.cut? fence s with
  | none => none
  | some (_, opened) =>
    let tag := (opened.dropWhile fun c => c == ' ' || c == '\t').takeWhile isTagChar
    match opened.dropWhile (· != '\n') with
    | [] => none
    | _ :: inner =>
      (Text.cut? fence inner).map fun (body, rest) => (⟨tag, body⟩, rest)

/-- The blocks of a text, of which there are at most `fuel`. -/
def blocksUpTo : Nat → List Char → List Block
  | 0, _ => []
  | fuel + 1, s =>
    match nextBlock? s with
    | none => []
    | some (block, rest) => block :: blocksUpTo fuel rest

/-- The blocks of a text. -/
def blocks (s : List Char) : List Block := blocksUpTo s.length s

/-- Whether a block is tagged as Java, in any case of the letters. -/
def Block.isJava (b : Block) : Bool := b.tag.map Char.toLower == ['j', 'a', 'v', 'a']

/-- What the first block tagged as Java holds, or else the first block without a tag unless it is
blank. -/
def codeBlock? (s : List Char) : Option (List Char) :=
  let all := blocks s
  match all.find? Block.isJava with
  | some b => some (Text.trim b.body)
  | none =>
    match all.find? fun b => b.tag.isEmpty with
    | none => none
    | some b =>
      match Text.trim b.body with
      | [] => none
      | body => some body

/-! ## Declarations in code -/

/-- The text after a word and the blanks that must follow it. -/
def afterWord? (word : List Char) (s : List Char) : Option (List Char) :=
  match Text.dropPrefix? word s with
  | some (c :: rest) => if Text.isBlank c then some (Text.trimStart rest) else none
  | _ => none

/-- The words that may stand before `class`. -/
def classModifiers : List (List Char) := ["public", "final", "abstract"].map String.toList

/-- The text after all modifiers, each of which takes one unit of `fuel`. -/
def dropModifiers : Nat → List Char → List Char
  | 0, s => s
  | fuel + 1, s =>
    match classModifiers.findSome? fun word => afterWord? word s with
    | some rest => dropModifiers fuel rest
    | none => s

/-- The name of a class declared at the beginning of a text. -/
def classAt? (s : List Char) : Option (List Char) :=
  match afterWord? "class".toList (dropModifiers s.length (Text.trimStart s)) with
  | none => none
  | some [] => none
  | some (c :: rest) =>
    if c.isAlpha || c == '_' || c == '$' then
      some (c :: rest.takeWhile fun c => Text.isWord c || c == '$')
    else none

/-- The name of a package declared at the beginning of a text. -/
def packageAt? (s : List Char) : Option (List Char) :=
  match afterWord? "package".toList (Text.trimStart s) with
  | none => none
  | some rest =>
    let isNameChar (c : Char) : Bool := Text.isWord c || c == '.'
    match rest.takeWhile isNameChar with
    | [] => none
    | name =>
      match Text.trimStart (rest.dropWhile isNameChar) with
      | ';' :: _ => some name
      | _ => none

/-- The first answer of a function at the rests of a text that follow a line feed. -/
def atLaterLine? {α : Type} (f : List Char → Option α) : List Char → Option α
  | [] => none
  | c :: rest =>
    if c = '\n' then
      match f rest with
      | some a => some a
      | none => atLaterLine? f rest
    else atLaterLine? f rest

/-- The first answer of a function at the beginning of a line. -/
def atLine? {α : Type} (f : List Char → Option α) (s : List Char) : Option α :=
  match f s with
  | some a => some a
  | none => atLaterLine? f s

/-- The name of the first class that a code declares. -/
def className? (code : List Char) : Option (List Char) := atLine? classAt? code

def package? (code : List Char) : Option (List Char) := atLine? packageAt? code

/-- The text without all repetitions of a word at its beginning, at most `fuel` of them. -/
def dropWords (word : List Char) : Nat → List Char → List Char
  | 0, s => s
  | fuel + 1, s =>
    match Text.dropPrefix? word s with
    | some rest => dropWords word fuel rest
    | none => s

def packageName (declaration : List Char) : List Char :=
  let s := Text.trim declaration
  Text.trim (Text.dropEndWhile (· == ';') (dropWords "package".toList s.length s))

/-! ## Tests -/

/-- Why an answer holds no test. -/
inductive Missing where
  | block
  | declaration
  deriving DecidableEq, Repr, Inhabited

/-- The reason in words. -/
def Missing.message : Missing → String
  | block => "the answer holds no Java code block"
  | declaration => "the code block declares no class"

/-- The test in an answer. A code without package declaration gets that of the class under
test. -/
def test? (d : Dossier) (answer : String) : Except Missing UnitTest :=
  match codeBlock? answer.toList with
  | none => .error .block
  | some code =>
    match className? code with
    | none => .error .declaration
    | some name =>
      let declared := package? code
      let package := declared.getD (packageName d.package.toList)
      let heading : List Char :=
        if declared.isNone && !package.isEmpty then
          "package ".toList ++ package ++ [';', '\n', '\n']
        else []
      .ok
        { className := .ofList (if package.isEmpty then name else package ++ '.' :: name)
          source := .ofList (heading ++ code ++ ['\n']) }

end Testwright.Answer
