import Testwright.Json.Basic

/-!
# Reading JSON

`Json.parse?` reads one JSON text. Blank space is space, tab, line feed and carriage return;
strings hold no control characters and no lone surrogates; arrays and objects nest at most 127
deep; a number too large for binary64 is refused.

A decimal number is read as its first digits that fit into 64 bits, rounded, then multiplied or
divided by a power of ten, rounded once more (`Json.decimal?`).
-/

namespace Testwright.Json

/-- Whether a character may stand between tokens. -/
def isSpace (c : Char) : Bool := c == ' ' || c == '\n' || c == '\t' || c == '\r'

/-- The text after leading space. -/
def skipSpace (s : List Char) : List Char := s.dropWhile isSpace

/-- The value of a hexadecimal digit. -/
def hexDigit? (c : Char) : Option Nat :=
  if c.isDigit then some (c.toNat - 48)
  else if 'a' ≤ c ∧ c ≤ 'f' then some (c.toNat - 87)
  else if 'A' ≤ c ∧ c ≤ 'F' then some (c.toNat - 55)
  else none

/-- The value of four hexadecimal digits and the text after them. -/
def hex4? : List Char → Option (Nat × List Char)
  | a :: b :: c :: d :: rest => do
    let a ← hexDigit? a
    let b ← hexDigit? b
    let c ← hexDigit? c
    let d ← hexDigit? d
    some (((a * 16 + b) * 16 + c) * 16 + d, rest)
  | _ => none

/-- The character of an escape sequence, after its backslash, and the text after it. -/
def escape? : List Char → Option (Char × List Char)
  | '"' :: r => some ('"', r)
  | '\\' :: r => some ('\\', r)
  | '/' :: r => some ('/', r)
  | 'b' :: r => some ('\x08', r)
  | 'f' :: r => some ('\x0c', r)
  | 'n' :: r => some ('\n', r)
  | 'r' :: r => some ('\r', r)
  | 't' :: r => some ('\t', r)
  | 'u' :: r => do
    let (hi, r) ← hex4? r
    if 0xD800 ≤ hi ∧ hi < 0xDC00 then
      match r with
      | '\\' :: 'u' :: r => do
        let (lo, r) ← hex4? r
        if 0xDC00 ≤ lo ∧ lo < 0xE000 then
          some (Char.ofNat (0x10000 + (hi - 0xD800) * 0x400 + (lo - 0xDC00)), r)
        else none
      | _ => none
    else if 0xDC00 ≤ hi ∧ hi < 0xE000 then none
    else some (Char.ofNat hi, r)
  | _ => none

/-- The characters of a string up to its closing quote, and the text after it; `done` holds the
characters read so far, last first. -/
def stringBody? (done : List Char) : Nat → List Char → Option (String × List Char)
  | 0, _ => none
  | _ + 1, [] => none
  | _ + 1, '"' :: r => some (.ofList done.reverse, r)
  | n + 1, '\\' :: r =>
    match escape? r with
    | some (c, r) => stringBody? (c :: done) n r
    | none => none
  | n + 1, c :: r => if c.toNat < 0x20 then none else stringBody? (c :: done) n r

/-- The decimal digits at the beginning, and the text after them. -/
def digits (s : List Char) : List Char × List Char := s.span Char.isDigit

/-- The decimal digits at the beginning, of which there must be one, and the text after them. -/
def digits? (s : List Char) : Option (List Char × List Char) :=
  match digits s with
  | ([], _) => none
  | (ds, r) => some (ds, r)

/-- Extend a significand by digits while it stays below `2 ^ 64`; also the digits not taken. -/
def extend (significand : Nat) : List Char → Nat × List Char
  | [] => (significand, [])
  | c :: r =>
    let next := significand * 10 + (c.toNat - 48)
    if next < 0x10000000000000000 then extend next r else (significand, c :: r)

/-- The number nearest to a power of ten. -/
def powerOfTen (n : Nat) : Binary64 := .ofDecimal false 1 n

/-- Divide by `10 ^ n` in steps of at most `10 ^ 308`; four steps make any number zero. -/
def shrink (x : Binary64) (n : Nat) : Nat → Binary64
  | 0 => .zero false
  | steps + 1 =>
    if n ≤ 308 then x / powerOfTen n
    else if x.isZero then x
    else shrink (x / powerOfTen 308) (n - 308) steps

/-- `significand * 10 ^ e`, rounded after each step, unless it is too large. -/
def decimal? (significand : Nat) (e : Int) : Option Binary64 :=
  let x := Binary64.ofNat significand
  let y :=
    if e < 0 then shrink x (-e).toNat 4
    else if e ≤ 308 then x * powerOfTen e.toNat
    else if x.isZero then x
    else .infinite false
  if y.isInfinite then none else some y

/-- The number with the given sign. -/
def signed (negative : Bool) : Binary64 → Binary64
  | .finite _ m e => .finite negative m e
  | .infinite _ => .infinite negative
  | .nan _ => .nan negative

/-- Whether an exponent is negative, and the text after its sign, if it has one. -/
def exponentSign : List Char → Bool × List Char
  | '+' :: r => (false, r)
  | '-' :: r => (true, r)
  | r => (false, r)

/-- The exponent part of a number, if there is one, and the text after it. -/
def exponent? : List Char → Option (Option Int × List Char)
  | c :: r =>
    if c = 'e' ∨ c = 'E' then
      let (negative, r) := exponentSign r
      (digits? r).map fun (ds, r) =>
        let n : Int := ds.foldl (fun n c => n * 10 + (c.toNat - 48 : Nat)) 0
        (some (if negative then -n else n), r)
    else some (none, c :: r)
  | [] => some (none, [])

/-- The fraction part of a number, if there is one, and the text after it. -/
def fraction? : List Char → Option (Option (List Char) × List Char)
  | '.' :: r => (digits? r).map fun (ds, r) => (some ds, r)
  | r => some (none, r)

/-- Whether a number is negative, and the text after its sign. -/
def sign : List Char → Bool × List Char
  | '-' :: r => (true, r)
  | r => (false, r)

/-- The digits of a number before its point, where no zero leads others, and the text after
them. -/
def whole? : List Char → Option (List Char × List Char)
  | '0' :: c :: r => if c.isDigit then none else some (['0'], c :: r)
  | s => digits? s

/-- The value of a number from its sign, its digits before and behind the point and its exponent. -/
def numeral? (negative : Bool) (whole : List Char) (fraction : Option (List Char))
    (e : Option Int) : Option Json :=
  let (significand, excess) := extend 0 whole
  if fraction.isNone ∧ e.isNone ∧ excess.isEmpty then
    some <|
      if negative then
        if significand = 0 then .float (.zero true)
        else if significand ≤ 0x8000000000000000 then .int (-significand)
        else .float (signed true (.ofNat significand))
      else .int significand
  else
    let ds := fraction.getD []
    let (significand, taken) :=
      if excess.isEmpty then
        let (n, left) := extend significand ds
        (n, ds.length - left.length)
      else (significand, 0)
    (decimal? significand (excess.length - taken + e.getD 0)).map fun x => .float (signed negative x)

/-- A number at the beginning of a text, and the text after it. -/
def numberAt? (s : List Char) : Option (Json × List Char) := do
  let (negative, s) := sign s
  let (whole, s) ← whole? s
  let (fraction, s) ← fraction? s
  let (e, s) ← exponent? s
  (numeral? negative whole fraction e).map fun v => (v, s)

mutual

/-- A value at the beginning of a text, and the text after it, inside at most `depth` further
arrays and objects. -/
def value? (depth : Nat) : Nat → List Char → Option (Json × List Char)
  | 0, _ => none
  | n + 1, s =>
    match skipSpace s with
    | 'n' :: 'u' :: 'l' :: 'l' :: r => some (.null, r)
    | 't' :: 'r' :: 'u' :: 'e' :: r => some (.bool true, r)
    | 'f' :: 'a' :: 'l' :: 's' :: 'e' :: r => some (.bool false, r)
    | '"' :: r => (stringBody? [] (r.length + 1) r).map fun (t, r) => (.str t, r)
    | '[' :: r =>
      match depth with
      | 0 => none
      | depth + 1 =>
        match skipSpace r with
        | ']' :: r => some (.arr [], r)
        | r => elements? depth [] n r
    | '{' :: r =>
      match depth with
      | 0 => none
      | depth + 1 =>
        match skipSpace r with
        | '}' :: r => some (.obj [], r)
        | r => members? depth [] n r
    | r => numberAt? r

/-- The elements of an array from one of them to its end; `done` holds those before. -/
def elements? (depth : Nat) (done : List Json) : Nat → List Char → Option (Json × List Char)
  | 0, _ => none
  | n + 1, s =>
    match value? depth n s with
    | none => none
    | some (v, s) =>
      match skipSpace s with
      | ',' :: r => elements? depth (v :: done) n r
      | ']' :: r => some (.arr (v :: done).reverse, r)
      | _ => none

/-- The members of an object from one of them to its end; `done` holds those before. -/
def members? (depth : Nat) (done : List (String × Json)) :
    Nat → List Char → Option (Json × List Char)
  | 0, _ => none
  | n + 1, s =>
    match skipSpace s with
    | '"' :: r =>
      match stringBody? [] (r.length + 1) r with
      | none => none
      | some (k, r) =>
        match skipSpace r with
        | ':' :: r =>
          match value? depth n r with
          | none => none
          | some (v, s) =>
            match skipSpace s with
            | ',' :: r => members? depth ((k, v) :: done) n r
            | '}' :: r => some (.obj ((k, v) :: done).reverse, r)
            | _ => none
        | _ => none
    | _ => none

end

/-- The value of a JSON text. -/
def parse? (text : String) : Option Json :=
  let s := text.toList
  match value? 127 (2 * s.length + 2) s with
  | some (v, rest) => if (skipSpace rest).isEmpty then some v else none
  | none => none

end Testwright.Json
