import Testwright.Text.Basic

/-!
# Scripts

The language of the scripts that stand for tools: commands with words and redirections, joined to
pipelines and to lists by `;`, `&&`, `||` and line breaks. A word is made of texts and parameters,
each quoted or not. Compound commands and command substitution are not part of the language.
-/

namespace Testwright.Script

/-! ## Commands -/

/-- A part of a word. -/
inductive Segment where
  | text (value : String) (quoted : Bool)
  | parameter (name : String) (quoted : Bool)
  deriving DecidableEq, Repr, Inhabited

/-- A word before it is expanded. -/
abbrev Word := List Segment

/-- A redirection of a stream. -/
inductive Redirection where
  | write (stream : Nat) (target : Word)
  | append (stream : Nat) (target : Word)
  | duplicate (stream : Nat) (target : Word)
  | read (source : Word)
  deriving DecidableEq, Repr, Inhabited

/-- A command: variables set, words and redirections. -/
structure Command where
  assignments : List (String × Word) := []
  words : List Word := []
  redirections : List Redirection := []
  deriving DecidableEq, Repr, Inhabited

/-- When a pipeline runs, by the status of the one before. -/
inductive Condition where
  | always
  | onSuccess
  | onFailure
  deriving DecidableEq, Repr, Inhabited

/-- Commands each of which reads what the one before writes. -/
structure Pipeline where
  condition : Condition := .always
  commands : List Command := []
  deriving DecidableEq, Repr, Inhabited

/-! ## Tokens -/

/-- A redirection without its word. -/
inductive Arrow where
  | write
  | append
  | duplicate
  | read
  deriving DecidableEq, Repr, Inhabited

/-- A token of a script. -/
inductive Token where
  | word (w : Word)
  | arrow (stream : Nat) (a : Arrow)
  | pipe
  | next (condition : Condition)
  deriving DecidableEq, Repr, Inhabited

/-- Whether a character can begin the name of a variable. -/
def isNameStart (c : Char) : Bool := c.isAlpha || c == '_'

/-- Whether a character can stand in the name of a variable. -/
def isNameChar (c : Char) : Bool := c.isAlphanum || c == '_'

/-- The name of a parameter after a dollar sign, and the text after it. -/
def parameter? : List Char → Option (String × List Char)
  | '{' :: rest =>
    match Text.cutAt? '}' rest with
    | some (name, rest) => some (.ofList name, rest)
    | none => none
  | c :: rest =>
    if isNameStart c then
      some (.ofList (c :: rest.takeWhile isNameChar), rest.dropWhile isNameChar)
    else if c.isDigit || "@*#?$!-".toList.contains c then some (.ofList [c], rest)
    else none
  | [] => none

/-- The segments between double quotes, and the text after the closing one. -/
def doubleQuoted? : Nat → Word → List Char → Option (Word × List Char)
  | 0, _, _ => none
  | _ + 1, _, [] => none
  | _ + 1, done, '"' :: rest => some (done, rest)
  | n + 1, done, '\\' :: '\n' :: rest => doubleQuoted? n done rest
  | n + 1, done, '\\' :: c :: rest =>
    if c = '"' || c = '\\' || c = '$' || c = '\x60' then
      doubleQuoted? n (.text (.ofList [c]) true :: done) rest
    else doubleQuoted? n (.text (.ofList ['\\', c]) true :: done) rest
  | n + 1, done, '$' :: rest =>
    match parameter? rest with
    | some (name, rest) => doubleQuoted? n (.parameter name true :: done) rest
    | none => doubleQuoted? n (.text "$" true :: done) rest
  | n + 1, done, c :: rest =>
    if c = '\x60' then none else doubleQuoted? n (.text (.ofList [c]) true :: done) rest

def endsWord (c : Char) : Bool := " \t\n;&|<>()".toList.contains c

/-- The segments of a word, the latest first, and the text after it. -/
def word? : Nat → Word → List Char → Option (Word × List Char)
  | 0, _, _ => none
  | _ + 1, done, [] => some (done, [])
  | n + 1, done, '\'' :: rest =>
    match Text.cutAt? '\'' rest with
    | some (text, rest) => word? n (.text (.ofList text) true :: done) rest
    | none => none
  | n + 1, done, '"' :: rest =>
    match doubleQuoted? (rest.length + 1) (.text "" true :: done) rest with
    | some (done, rest) => word? n done rest
    | none => none
  | n + 1, done, '\\' :: '\n' :: rest => word? n done rest
  | n + 1, done, '\\' :: c :: rest => word? n (.text (.ofList [c]) true :: done) rest
  | n + 1, done, '$' :: rest =>
    match parameter? rest with
    | some (name, rest) => word? n (.parameter name false :: done) rest
    | none => if rest.head? = some '(' then none else word? n (.text "$" false :: done) rest
  | n + 1, done, c :: rest =>
    if c = '\x60' then none
    else if endsWord c then some (done, c :: rest)
    else word? n (.text (.ofList [c]) false :: done) rest

/-- The tokens of a script, behind those read so far. -/
def tokens? : Nat → List Token → List Char → Option (List Token)
  | 0, _, _ => none
  | _ + 1, done, [] => some done.reverse
  | n + 1, done, '\\' :: '\n' :: rest => tokens? n done rest
  | n + 1, done, '\n' :: rest => tokens? n (.next .always :: done) rest
  | n + 1, done, ';' :: rest => tokens? n (.next .always :: done) rest
  | n + 1, done, '&' :: '&' :: rest => tokens? n (.next .onSuccess :: done) rest
  | n + 1, done, '|' :: '|' :: rest => tokens? n (.next .onFailure :: done) rest
  | n + 1, done, '|' :: rest => tokens? n (.pipe :: done) rest
  | n + 1, done, '>' :: '>' :: rest => tokens? n (.arrow 1 .append :: done) rest
  | n + 1, done, '>' :: '&' :: rest => tokens? n (.arrow 1 .duplicate :: done) rest
  | n + 1, done, '>' :: rest => tokens? n (.arrow 1 .write :: done) rest
  | n + 1, done, '<' :: rest => tokens? n (.arrow 0 .read :: done) rest
  | n + 1, done, '2' :: '>' :: '>' :: rest => tokens? n (.arrow 2 .append :: done) rest
  | n + 1, done, '2' :: '>' :: '&' :: rest => tokens? n (.arrow 2 .duplicate :: done) rest
  | n + 1, done, '2' :: '>' :: rest => tokens? n (.arrow 2 .write :: done) rest
  | n + 1, done, '1' :: '>' :: rest => tokens? n done ('>' :: rest)
  | n + 1, done, c :: rest =>
    if c = ' ' || c = '\t' then tokens? n done rest
    else if c = '#' then tokens? n done (rest.dropWhile (· != '\n'))
    else
      match word? (rest.length + 2) [] (c :: rest) with
      | some ([], _) => none
      | some (w, rest) => tokens? n (.word w.reverse :: done) rest
      | none => none

/-! ## Reading -/

def redirection (stream : Nat) (w : Word) : Arrow → Redirection
  | .write => .write stream w
  | .append => .append stream w
  | .duplicate => .duplicate stream w
  | .read => .read w

/-- The text at the beginning of a word that is not quoted, and the segments after it. -/
def plainFront : Word → List Char × Word
  | .text value false :: rest =>
    let (text, rest) := plainFront rest
    (value.toList ++ text, rest)
  | w => ([], w)

/-- The variable that a word sets, and its value. -/
def assignment? (w : Word) : Option (String × Word) :=
  let (text, rest) := plainFront w
  match Text.cutAt? '=' text with
  | some (c :: name, value) =>
    if isNameStart c && name.all isNameChar then
      some (.ofList (c :: name), .text (.ofList value) true :: rest)
    else none
  | _ => none

namespace Command

/-- Whether a command has nothing to do. -/
def isEmpty (c : Command) : Bool :=
  c.assignments.isEmpty && c.words.isEmpty && c.redirections.isEmpty

def addWord (c : Command) (w : Word) : Command :=
  match (if c.words.isEmpty then assignment? w else none) with
  | some a => { c with assignments := c.assignments ++ [a] }
  | none => { c with words := c.words ++ [w] }

def addRedirection (c : Command) (r : Redirection) : Command :=
  { c with redirections := c.redirections ++ [r] }

end Command

/-- The pipelines of some tokens: those read so far, the present one and its last command. -/
def pipelines? (done : List Pipeline) (p : Pipeline) (c : Command) :
    List Token → Option (List Pipeline)
  | [] =>
    if c.isEmpty then
      if p.commands.isEmpty && p.condition == .always then some done.reverse else none
    else some ({ p with commands := p.commands ++ [c] } :: done).reverse
  | .word w :: rest => pipelines? done p (c.addWord w) rest
  | .arrow stream a :: .word w :: rest =>
    pipelines? done p (c.addRedirection (redirection stream w a)) rest
  | .arrow _ _ :: _ => none
  | .pipe :: rest =>
    if c.isEmpty then none else pipelines? done { p with commands := p.commands ++ [c] } {} rest
  | .next condition :: rest =>
    if c.isEmpty then
      if condition == .always && p.commands.isEmpty then pipelines? done p {} rest else none
    else pipelines? ({ p with commands := p.commands ++ [c] } :: done) { condition } {} rest

def parse? (script : String) : Option (List Pipeline) :=
  let s := script.toList
  (tokens? (2 * s.length + 1) [] s).bind (pipelines? [] {} {})

end Testwright.Script
