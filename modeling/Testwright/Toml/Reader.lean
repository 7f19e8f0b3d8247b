import Testwright.Text.Basic
import Testwright.Time.Timestamp
import Testwright.Toml.Table

/-!
# Reading TOML

`Toml.parse?` reads a TOML document (version 1.1) as a JSON object; dates and times, for which JSON
has no values, become objects of their own. It fails on any text that is no TOML.
-/

namespace Testwright.Toml

/-! ## Characters and scalars -/

/-- A blank within a line. -/
def isBlank (c : Char) : Bool := c == ' ' || c == '\t'

/-- The text without blanks in front. -/
def dropBlanks (s : List Char) : List Char := s.dropWhile isBlank

/-- Whether a character may stand in comments and strings: no control character but a tab. -/
def isPlain (c : Char) : Bool := c == '\t' || (0x20 ≤ c.toNat && c.toNat != 0x7F)

/-- Whether a character can stand in a key without quotes. -/
def isKeyChar (c : Char) : Bool := c.isAlphanum || c == '_' || c == '-'

/-- The text after a line break. -/
def newline? : List Char → Option (List Char)
  | '\n' :: rest => some rest
  | '\r' :: '\n' :: rest => some rest
  | _ => none

/-- The text after a comment, which may be missing. -/
def comment? (s : List Char) : Option (List Char) :=
  match s with
  | '#' :: rest =>
    let body := rest.takeWhile fun c => c != '\n'
    let body := if body.getLast? = some '\r' then body.dropLast else body
    if body.all isPlain then some (rest.drop body.length) else none
  | _ => some s

/-- The text after blanks, comments and line breaks, of which there are at most `fuel`. -/
def gap? : Nat → List Char → Option (List Char)
  | 0, s => some s
  | fuel + 1, s =>
    match comment? (dropBlanks s) with
    | none => none
    | some s =>
      match newline? s with
      | some rest => gap? fuel rest
      | none => some s

/-- Whether a character is a hexadecimal digit. -/
def isHex (c : Char) : Bool := c.isDigit || ('a' ≤ c && c ≤ 'f') || ('A' ≤ c && c ≤ 'F')

/-- The value of a digit of a base up to sixteen. -/
def digitValue (c : Char) : Nat :=
  if c.isDigit then c.toNat - '0'.toNat else c.toLower.toNat - 'a'.toNat + 10

def digitsValue (base : Nat) (ds : List Char) : Nat :=
  ds.foldl (fun n c => n * base + digitValue c) 0

/-- A character given by exactly `count` hexadecimal digits. -/
def codePoint? (count : Nat) (s : List Char) : Option (Char × List Char) :=
  let ds := s.take count
  if ds.length = count ∧ ds.all isHex then
    let n := digitsValue 16 ds
    if n < 0xD800 ∨ (0xDFFF < n ∧ n < 0x110000) then some (Char.ofNat n, s.drop count) else none
  else none

/-- The character of an escape sequence, after its backslash. -/
def escape? : List Char → Option (Char × List Char)
  | 'b' :: r => some ('\x08', r)
  | 't' :: r => some ('\t', r)
  | 'n' :: r => some ('\n', r)
  | 'f' :: r => some ('\x0c', r)
  | 'r' :: r => some ('\r', r)
  | 'e' :: r => some ('\x1b', r)
  | '"' :: r => some ('"', r)
  | '\\' :: r => some ('\\', r)
  | 'x' :: r => codePoint? 2 r
  | 'u' :: r => codePoint? 4 r
  | 'U' :: r => codePoint? 8 r
  | _ => none

/-! ## Strings

The readers of strings begin after the opening quote and take one unit of `fuel` a character. -/

/-- A string on one line between double quotes. -/
def basic? (done : List Char) : Nat → List Char → Option (List Char × List Char)
  | 0, _ => none
  | _ + 1, [] => none
  | fuel + 1, c :: rest =>
    if c = '"' then some (done.reverse, rest)
    else if c = '\\' then
      match escape? rest with
      | some (d, rest) => basic? (d :: done) fuel rest
      | none => none
    else if isPlain c then basic? (c :: done) fuel rest
    else none

/-- A string on one line between single quotes. -/
def literal? (done : List Char) : List Char → Option (List Char × List Char)
  | [] => none
  | c :: rest =>
    if c = '\'' then some (done.reverse, rest)
    else if isPlain c then literal? (c :: done) rest
    else none

/-- The text after a backslash at the end of a line and the blanks and lines that follow it. -/
def continued? (s : List Char) : Option (List Char) :=
  match newline? (dropBlanks s) with
  | none => none
  | some rest => some (rest.dropWhile fun c => isBlank c || c == '\n' || c == '\r')

/-- The end of a string between triple quotes: up to two further quotes belong to the string. -/
def tripleEnd? (quote : Char) (done : List Char) (s : List Char) :
    Option (List Char × List Char) :=
  let quotes := (s.takeWhile (· == quote)).length
  if 3 ≤ quotes ∧ quotes ≤ 5 then
    some (done.reverse ++ List.replicate (quotes - 3) quote, s.drop quotes)
  else none

/-- A string between three double quotes. -/
def multiBasic? (done : List Char) : Nat → List Char → Option (List Char × List Char)
  | 0, _ => none
  | _ + 1, [] => none
  | fuel + 1, c :: rest =>
    if c = '"' ∧ rest.take 2 = ['"', '"'] then tripleEnd? '"' done (c :: rest)
    else if c = '\\' then
      match escape? rest with
      | some (d, rest) => multiBasic? (d :: done) fuel rest
      | none =>
        match continued? rest with
        | some rest => multiBasic? done fuel rest
        | none => none
    else
      match newline? (c :: rest) with
      | some rest => multiBasic? ('\n' :: done) fuel rest
      | none => if isPlain c then multiBasic? (c :: done) fuel rest else none

/-- A string between three single quotes. -/
def multiLiteral? (done : List Char) : Nat → List Char → Option (List Char × List Char)
  | 0, _ => none
  | _ + 1, [] => none
  | fuel + 1, c :: rest =>
    if c = '\'' ∧ rest.take 2 = ['\'', '\''] then tripleEnd? '\'' done (c :: rest)
    else
      match newline? (c :: rest) with
      | some rest => multiLiteral? ('\n' :: done) fuel rest
      | none => if isPlain c then multiLiteral? (c :: done) fuel rest else none

/-- The text without one line break in front. -/
def dropNewline (s : List Char) : List Char := (newline? s).getD s

/-- A string in quotes; only values may have triple quotes. -/
def string? (multi : Bool) (s : List Char) : Option (List Char × List Char) :=
  match s with
  | '"' :: '"' :: '"' :: rest =>
    if multi then multiBasic? [] (rest.length + 1) (dropNewline rest) else none
  | '\'' :: '\'' :: '\'' :: rest =>
    if multi then multiLiteral? [] (rest.length + 1) (dropNewline rest) else none
  | '"' :: rest => basic? [] (rest.length + 1) rest
  | '\'' :: rest => literal? [] rest
  | _ => none

/-! ## Keys -/

/-- A key without points. -/
def simpleKey? (s : List Char) : Option (String × List Char) :=
  match s with
  | '"' :: _ => (string? false s).map fun (k, rest) => (.ofList k, rest)
  | '\'' :: _ => (string? false s).map fun (k, rest) => (.ofList k, rest)
  | _ =>
    match s.takeWhile isKeyChar with
    | [] => none
    | k => some (.ofList k, s.drop k.length)

/-- A key with its parts, at most `fuel` of them, and the text after it and its blanks. -/
def key? : Nat → List Char → Option (List String × List Char)
  | 0, _ => none
  | fuel + 1, s =>
    match simpleKey? (dropBlanks s) with
    | none => none
    | some (k, rest) =>
      match dropBlanks rest with
      | '.' :: rest => (key? fuel rest).map fun (ks, rest) => (k :: ks, rest)
      | rest => some ([k], rest)

/-! ## Numbers and dates -/

/-- Digits with single underscores between them. -/
def digits? (p : Char → Bool) (s : List Char) : Option (List Char) :=
  let ds := s.filter (· != '_')
  let pieces := Text.fields '_' s
  if ds.all p && pieces.all fun piece => !piece.isEmpty then some ds else none

/-- The sign in front of a number and the number. -/
def sign : List Char → Bool × List Char
  | '-' :: r => (true, r)
  | '+' :: r => (false, r)
  | r => (false, r)

/-- Decimal digits without a superfluous zero in front. -/
def decimal? (s : List Char) : Option (List Char) :=
  match digits? Char.isDigit s with
  | some ds => if ds.head? = some '0' ∧ s.length ≠ 1 then none else some ds
  | none => none

/-- An integer; it must not exceed 128 bits. -/
def integer? (s : List Char) : Option Int :=
  let based (base : Nat) (p : Char → Bool) (r : List Char) : Option Int :=
    (digits? p r).map fun ds => (digitsValue base ds : Int)
  let value : Option Int := match s with
    | '0' :: 'x' :: r => based 16 isHex r
    | '0' :: 'o' :: r => based 8 (fun c => '0' ≤ c && c ≤ '7') r
    | '0' :: 'b' :: r => based 2 (fun c => c == '0' || c == '1') r
    | _ =>
      let (negative, r) := sign s
      (decimal? r).map fun ds =>
        let n : Int := digitsValue 10 ds
        if negative then -n else n
  value.filter fun n => -0x80000000000000000000000000000000 ≤ n ∧ n < 0x100000000000000000000000000000000

/-- The exponent part of a float, after its mark. -/
def exponent? (s : List Char) : Option Int :=
  let (negative, r) := sign s
  (digits? Char.isDigit r).map fun ds =>
    let n : Int := digitsValue 10 ds
    if negative then -n else n

def float? (s : List Char) : Option Binary64 :=
  let (negative, r) := sign s
  if r = ['i', 'n', 'f'] then some (.infinite negative)
  else if r = ['n', 'a', 'n'] then some (.nan negative)
  else
    let (mantissa, e) := r.span fun c => c != 'e' && c != 'E'
    let exponent : Option Int := match e with
      | [] => some 0
      | _ :: e => exponent? e
    let (whole, point) := mantissa.span (· != '.')
    let fraction : Option (List Char) := match point with
      | [] => if e.isEmpty then none else some []
      | _ :: f => digits? Char.isDigit f
    match decimal? whole, fraction, exponent with
    | some whole, some fraction, some exponent =>
      some (.ofDecimal negative (digitsValue 10 (whole ++ fraction)) (exponent - fraction.length))
    | _, _, _ => none

/-- The number of two digits. -/
def pair? : List Char → Option Nat
  | [a, b] => if a.isDigit && b.isDigit then some (digitsValue 10 [a, b]) else none
  | _ => none

/-- Whether a text is a date. -/
def isDate (s : List Char) : Bool :=
  match s with
  | [a, b, c, d, '-', m, n, '-', x, y] =>
    match [a, b, c, d].all Char.isDigit, pair? [m, n], pair? [x, y] with
    | true, some month, some day =>
      1 ≤ month && month ≤ 12 && 1 ≤ day &&
        day ≤ Timestamp.daysIn (digitsValue 10 [a, b, c, d]) month
    | _, _, _ => false
  | _ => false

def isHourMinute (s : List Char) : Bool :=
  match s with
  | [a, b, ':', c, d] =>
    match pair? [a, b], pair? [c, d] with
    | some hour, some minute => hour < 24 && minute < 60
    | _, _ => false
  | _ => false

/-- Whether a text is a time of day; the seconds may be missing. -/
def isTime (s : List Char) : Bool :=
  isHourMinute (s.take 5) &&
    match s.drop 5 with
    | [] => true
    | ':' :: rest =>
      match pair? (rest.take 2) with
      | none => false
      | some second =>
        second ≤ 60 &&
          match rest.drop 2 with
          | [] => true
          | '.' :: fraction => !fraction.isEmpty && fraction.all Char.isDigit
          | _ => false
    | _ => false

/-- Whether a text is a time of day with an offset from universal time, or without one. -/
def isOffsetTime (s : List Char) : Bool :=
  match s.reverse with
  | 'Z' :: r => isTime r.reverse
  | 'z' :: r => isTime r.reverse
  | _ =>
    let tail := s.drop (s.length - 6)
    match tail with
    | c :: offset =>
      if (c == '+' || c == '-') && isHourMinute offset then isTime (s.take (s.length - 6))
      else isTime s
    | [] => false

/-- Whether a text is a date, a time or both. -/
def isDateTime (s : List Char) : Bool :=
  isTime s || isDate s ||
    match s.drop 10 with
    | c :: time => (c == 'T' || c == 't' || c == ' ') && isDate (s.take 10) && isOffsetTime time
    | [] => false

/-- The value of a date or time. -/
def dateJson (s : List Char) : Json := .obj [("$date", .str (.ofList s))]

/-- Whether a character can stand in a number, a date or a word. -/
def isScalarChar (c : Char) : Bool := isKeyChar c || c == '+' || c == '.' || c == ':'

/-- The characters of a number, a date or a word; a date may be followed by a blank and a time. -/
def scalarChars (s : List Char) : List Char :=
  let front := s.takeWhile isScalarChar
  match s.drop front.length with
  | ' ' :: c :: rest =>
    if isDate front && c.isDigit then front ++ ' ' :: c :: rest.takeWhile isScalarChar else front
  | _ => front

/-- A number, a date or a Boolean. -/
def scalar? (s : List Char) : Option (Json × List Char) :=
  let cs := scalarChars s
  let rest := s.drop cs.length
  if cs = ['t', 'r', 'u', 'e'] then some (.bool true, rest)
  else if cs = ['f', 'a', 'l', 's', 'e'] then some (.bool false, rest)
  else
    match integer? cs with
    | some n => some (.int n, rest)
    | none =>
      match float? cs with
      | some x => some (.float x, rest)
      | none => if isDateTime cs then some (dateJson cs, rest) else none

/-! ## Values -/

mutual

/-- A value; the readers of values take one unit of `fuel` for each value and element. -/
def value? : Nat → List Char → Option (Json × List Char)
  | 0, _ => none
  | fuel + 1, s =>
    match s with
    | '"' :: _ => (string? true s).map fun (t, rest) => (.str (.ofList t), rest)
    | '\'' :: _ => (string? true s).map fun (t, rest) => (.str (.ofList t), rest)
    | '[' :: rest => elements? [] fuel rest
    | '{' :: rest => members? [] fuel rest
    | _ => scalar? s

/-- The elements of an array up to its closing bracket. -/
def elements? (done : List Json) : Nat → List Char → Option (Json × List Char)
  | 0, _ => none
  | fuel + 1, s =>
    match gap? (s.length + 1) s with
    | none => none
    | some (']' :: rest) => some (.arr done.reverse, rest)
    | some s =>
      match value? fuel s with
      | none => none
      | some (v, rest) =>
        match gap? (rest.length + 1) rest with
        | some (']' :: rest) => some (.arr (v :: done).reverse, rest)
        | some (',' :: rest) => elements? (v :: done) fuel rest
        | _ => none

/-- The members of an inline table up to its closing brace. -/
def members? (done : Entries) : Nat → List Char → Option (Json × List Char)
  | 0, _ => none
  | fuel + 1, s =>
    match gap? (s.length + 1) s with
    | none => none
    | some ('}' :: rest) => some (.obj (membersJson done), rest)
    | some s =>
      match key? (s.length + 1) s with
      | some (key, '=' :: rest) =>
        match value? fuel (dropBlanks rest) with
        | none => none
        | some (v, rest) =>
          match putAt key v .implicit done, gap? (rest.length + 1) rest with
          | some (_, done), some ('}' :: rest) => some (.obj (membersJson done), rest)
          | some (_, done), some (',' :: rest) => members? done fuel rest
          | _, _ => none
      | _ => none

end

/-! ## Documents -/

/-- The lines read so far: the table of the latest header and all tables. -/
structure Document where
  current : List String := []
  entries : Entries := []
  deriving Repr, Inhabited

/-- Change a document at the table of its latest header. -/
def Document.change (d : Document) (path : List String) (c : Change) : Option Document :=
  (atPath false c path .implicit d.entries).map fun (_, entries) => { d with entries }

/-- Read the header of a table, after its opening bracket. -/
def header? (d : Document) (s : List Char) : Option (Document × List Char) :=
  match s with
  | '[' :: s =>
    match key? (s.length + 1) s with
    | some (key, ']' :: ']' :: rest) =>
      match key.reverse with
      | [] => none
      | last :: path =>
        (d.change path.reverse (openItem last)).map fun d => ({ d with current := key }, rest)
    | _ => none
  | _ =>
    match key? (s.length + 1) s with
    | some (key, ']' :: rest) =>
      match key.reverse with
      | [] => none
      | last :: path =>
        (d.change path.reverse (openTable last)).map fun d => ({ d with current := key }, rest)
    | _ => none

/-- Read a key with its value. -/
def assignment? (d : Document) (s : List Char) : Option (Document × List Char) :=
  match key? (s.length + 1) s with
  | some (key, '=' :: rest) =>
    match value? (2 * rest.length + 2) (dropBlanks rest) with
    | some (v, rest) => (d.change d.current (putAt key v)).map fun d => (d, rest)
    | none => none
  | _ => none

/-- Read the lines of a document, at most `fuel` of them. -/
def lines? (d : Document) : Nat → List Char → Option Document
  | 0, s => if s.isEmpty then some d else none
  | fuel + 1, s =>
    let line : Option (Document × List Char) := match dropBlanks s with
      | [] => some (d, [])
      | '#' :: rest => some (d, '#' :: rest)
      | '\n' :: rest => some (d, '\n' :: rest)
      | '\r' :: rest => some (d, '\r' :: rest)
      | '[' :: rest => header? d rest
      | rest => assignment? d rest
    match line with
    | none => none
    | some (d, rest) =>
      match comment? (dropBlanks rest) with
      | none => none
      | some [] => some d
      | some rest =>
        match newline? rest with
        | some rest => lines? d fuel rest
        | none => none

/-- The value of a TOML document. -/
def parse? (text : String) : Option Json :=
  let s := match text.toList with
    | '\uFEFF' :: rest => rest
    | s => s
  (lines? {} (s.length + 1) s).map fun d => .obj (membersJson d.entries)

end Testwright.Toml
