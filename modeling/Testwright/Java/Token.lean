import Testwright.Java.Kind
import Testwright.Text.CharClass

/-!
# Tokens of Java texts

`tokens?` splits a text into words, literals, symbols and comments; it fails at a character that
begins none of them and at an unclosed literal or comment. Positions count characters.

A symbol that begins with `>` is always that one character, because type arguments close with a
`>` each; operators such as `>>=` are put together from adjacent symbols by the grammar.
-/

namespace Testwright.Java

/-- The class of a token. -/
inductive Lexeme where
  /-- A keyword or identifier. -/
  | word
  /-- A number, character or string literal, which is a node of the given kind. -/
  | literal (kind : Kind)
  /-- An operator or punctuation. -/
  | symbol
  /-- A comment, which is a node of the given kind. -/
  | comment (kind : Kind)
  deriving DecidableEq, Repr, Inhabited

/-- A token with its place: the characters from `start` up to but not including `stop`. -/
structure Token where
  lexeme : Lexeme
  text : String
  start : Nat
  stop : Nat
  deriving DecidableEq, Repr, Inhabited

namespace Token

def isComment (t : Token) : Bool :=
  match t.lexeme with
  | .comment _ => true
  | _ => false

/-- Whether a character is white space between tokens. -/
def isSpace (c : Char) : Bool := c == ' ' || (9 ≤ c.toNat && c.toNat ≤ 13)

def isWordStart (c : Char) : Bool := c == '_' || c == '$' || Text.isIdentStart c

def isWordContinue (c : Char) : Bool := c == '$' || c == '¢' || Text.isIdentContinue c

/-! ## Numbers

Each form of number is recognized by the length of its longest match, zero without a match. -/

/-- The length of a run of digits with underscores between them. `n` characters up to the last
digit and `pending` underscores after it have been seen. -/
def digitRun (p : Char → Bool) (n pending : Nat) : List Char → Nat
  | [] => n
  | c :: r =>
    if p c then digitRun p (n + pending + 1) 0 r
    else if c = '_' ∧ 0 < n then digitRun p n (pending + 1) r
    else n

/-- The length of the run of digits at the beginning of a text. -/
def digitsLength (p : Char → Bool) (s : List Char) : Nat := digitRun p 0 0 s

/-- Whether a character is a hexadecimal digit. -/
def isHex (c : Char) : Bool := c.isDigit || ('a' ≤ c && c ≤ 'f') || ('A' ≤ c && c ≤ 'F')

def isOctal (c : Char) : Bool := '0' ≤ c && c ≤ '7'

def isBinary (c : Char) : Bool := c == '0' || c == '1'

/-- Extend a match of length `n` by one character of a set, if there is one. -/
def withSuffix (set s : List Char) (n : Nat) : Nat :=
  match s.drop n with
  | c :: _ => if c ∈ set then n + 1 else n
  | [] => n

/-- An integer literal after a prefix of `n` characters. -/
def integerLength (p : Char → Bool) (s : List Char) (n : Nat) : Nat :=
  match digitsLength p (s.drop n) with
  | 0 => 0
  | d => withSuffix ['l', 'L'] s (n + d)

/-- The length of an exponent part, marked by a character of a set. -/
def exponentLength (marks : List Char) : List Char → Nat
  | c :: r =>
    if c ∈ marks then
      let sign := match r with
        | '+' :: _ => 1
        | '-' :: _ => 1
        | _ => 0
      match digitsLength Char.isDigit (r.drop sign) with
      | 0 => 0
      | d => 1 + sign + d
    else 0
  | [] => 0

/-- The letters that may end a floating-point literal. -/
def floatSuffixes : List Char := ['f', 'F', 'd', 'D']

/-- The length of a decimal floating-point literal. -/
def decimalFloatLength (s : List Char) : Nat :=
  let d := digitsLength Char.isDigit s
  match s.drop d with
  | '.' :: r =>
    let f := digitsLength Char.isDigit r
    if d = 0 ∧ f = 0 then 0
    else
      let n := d + 1 + f
      withSuffix floatSuffixes s (n + exponentLength ['e', 'E'] (s.drop n))
  | r =>
    if d = 0 then 0
    else
      let marked := exponentLength ['e', 'E', 'p', 'P'] r
      let n := withSuffix floatSuffixes s (d + marked)
      if n = d then 0 else n

/-- The length of a hexadecimal floating-point literal, after `0x`. -/
def hexFloatLength (s : List Char) : Nat :=
  let r := s.drop 2
  let d := digitsLength isHex r
  let n := match r.drop d with
    | '.' :: r' =>
      let f := digitsLength isHex r'
      if d = 0 ∧ f = 0 then 0 else 2 + d + 1 + f
    | _ => if d = 0 then 0 else 2 + d
  if n = 0 then 0
  else match exponentLength ['e', 'E', 'p', 'P'] (s.drop n) with
    | 0 => n
    | e => withSuffix floatSuffixes s (n + e)

/-- The forms of numbers that match at the beginning of a text, with the length of the match. -/
def numberForms : List Char → List (Kind × Nat)
  | s@('0' :: c :: _) =>
    let dec := [(.decimalInteger, integerLength Char.isDigit s 0)]
    let rest :=
      if c = 'x' ∨ c = 'X' then
        [(.hexInteger, integerLength isHex s 2), (.hexFloat, hexFloatLength s)]
      else if c = 'o' ∨ c = 'O' then [(.octalInteger, integerLength isOctal s 2)]
      else if c = 'b' ∨ c = 'B' then [(.binaryInteger, integerLength isBinary s 2)]
      else [(.octalInteger, integerLength isOctal s 1)]
    dec ++ rest ++ [(.decimalFloat, decimalFloatLength s)]
  | s => [(.decimalInteger, integerLength Char.isDigit s 0), (.decimalFloat, decimalFloatLength s)]

/-- The first longest of some matches. -/
def longest : List (Kind × Nat) → Option (Kind × Nat)
  | [] => none
  | m :: rest =>
    match longest rest with
    | some best => if m.2 < best.2 then some best else if m.2 = 0 then none else some m
    | none => if m.2 = 0 then none else some m

/-! ## Quoted literals and comments -/

/-- The length of an escape sequence in a string, after its backslash. -/
def escapeLength? : List Char → Option Nat
  | 'x' :: a :: b :: _ => if isHex a && isHex b then some 3 else none
  | 'u' :: '{' :: r =>
    let h := r.takeWhile isHex
    match h, r.drop h.length with
    | _ :: _, '}' :: _ => some (h.length + 3)
    | _, _ => none
  | 'u' :: a :: b :: c :: d :: _ =>
    if isHex a && isHex b && isHex c && isHex d then some 5 else none
  | c :: r =>
    if c = 'x' ∨ c = 'u' then none
    else if isOctal c then some (1 + ((r.take 2).takeWhile isOctal).length)
    else some 1
  | [] => none

/-- The length of a string up to and including its closing quote. The first argument counts the
characters of an escape sequence still to be passed over. -/
def stringLength? (skip n : Nat) : List Char → Option Nat
  | [] => none
  | c :: r =>
    match skip with
    | skip + 1 => stringLength? skip (n + 1) r
    | 0 =>
      if c = '"' then some (n + 1)
      else if c = '\\' then
        match escapeLength? r with
        | some k => stringLength? k (n + 1) r
        | none => none
      else stringLength? 0 (n + 1) r

/-- The length of a text block up to and including its three closing quotes. -/
def textBlockLength? (n : Nat) : List Char → Option Nat
  | '"' :: '"' :: '"' :: _ => some (n + 3)
  | '\\' :: _ :: r => textBlockLength? (n + 2) r
  | _ :: r => textBlockLength? (n + 1) r
  | [] => none

/-- The length of a character literal up to and including its closing quote. -/
def characterLength? (n : Nat) : List Char → Option Nat
  | '\'' :: _ => if n = 1 then none else some (n + 1)
  | '\\' :: _ :: r => characterLength? (n + 2) r
  | c :: r => if c = '\n' ∨ c = '\\' then none else characterLength? (n + 1) r
  | [] => none

/-- The length of a block comment up to and including its end. -/
def blockCommentLength? (n : Nat) : List Char → Option Nat
  | '*' :: '/' :: _ => some (n + 2)
  | _ :: r => blockCommentLength? (n + 1) r
  | [] => none

/-! ## Symbols -/

/-- The symbols of more than one character, longer ones first. -/
def longSymbols : List (List Char) :=
  ["...", "<<=", "->", "::", "++", "--", "+=", "-=", "*=", "/=", "%=", "&=", "|=", "^=", "&&",
    "||", "==", "!=", "<=", "<<"].map String.toList

def shortSymbols : List Char :=
  ['(', ')', '{', '}', '[', ']', ';', ',', '.', '@', '=', '<', '>', '!', '~', '?', ':', '+', '-',
    '*', '/', '%', '&', '|', '^']

/-- The length of the symbol at the beginning of a text. -/
def symbolLength? (s : List Char) : Option Nat :=
  match longSymbols.find? fun sym => sym.isPrefixOf s with
  | some sym => some sym.length
  | none =>
    match s with
    | c :: _ => if c ∈ shortSymbols then some 1 else none
    | [] => none

/-! ## Tokens -/

/-- The class and length of the token at the beginning of a text without leading space. -/
def scan? (s : List Char) : Option (Lexeme × Nat) :=
  match s with
  | '/' :: '/' :: r => some (.comment .lineComment, 2 + (r.takeWhile (· != '\n')).length)
  | '/' :: '*' :: r => (blockCommentLength? 2 r).map fun n => (.comment .blockComment, n)
  | '"' :: '"' :: '"' :: r => (textBlockLength? 3 r).map fun n => (.literal .stringLiteral, n)
  | '"' :: r => (stringLength? 0 1 r).map fun n => (.literal .stringLiteral, n)
  | '\'' :: r => (characterLength? 1 r).map fun n => (.literal .characterLiteral, n)
  | '@' :: r =>
    if ['i', 'n', 't', 'e', 'r', 'f', 'a', 'c', 'e'].isPrefixOf r then some (.symbol, 10)
    else some (.symbol, 1)
  | c :: _ =>
    if isWordStart c then some (.word, (s.takeWhile isWordContinue).length)
    else
      match longest (numberForms s) with
      | some (kind, n) => some (.literal kind, n)
      | none => (symbolLength? s).map fun n => (.symbol, n)
  | [] => none

/-- The tokens of the rest of a text that begins at a position; each token takes one unit of
`fuel`. -/
def tokensFrom? (pos : Nat) (s : List Char) : Nat → Option (List Token)
  | 0 => none
  | fuel + 1 =>
    let space := (s.takeWhile isSpace).length
    match s.drop space with
    | [] => some []
    | c :: r =>
      match scan? (c :: r) with
      | none => none
      | some (lexeme, n) =>
        let start := pos + space
        let rest := tokensFrom? (start + n) ((c :: r).drop n) fuel
        rest.map fun ts => ⟨lexeme, .ofList ((c :: r).take n), start, start + n⟩ :: ts

end Token

/-- The tokens of a text, comments included. A byte order mark may precede the first one. -/
def tokens? (source : List Char) : Option (List Token) :=
  match source with
  | '\uFEFF' :: r => Token.tokensFrom? 1 r (r.length + 1)
  | s => Token.tokensFrom? 0 s (s.length + 1)

end Testwright.Java
