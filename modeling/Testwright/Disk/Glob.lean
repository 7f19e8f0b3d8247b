import Testwright.Text.Basic

/-!
# Wildcard patterns of paths

A pattern stands for one text or, with alternatives in braces, for several (`texts?`). Each text is
a list of parts, each of which matches a stretch of a path. No single wildcard matches a slash; two
stars between slashes, or at an end, match any number of directories.
-/

namespace Testwright.Glob

/-- A part of a pattern. -/
inductive Part where
  | char (c : Char)
  /-- One character. -/
  | any
  /-- Any number of characters. -/
  | many
  /-- One character in the ranges, or in none of them. -/
  | oneOf (negated : Bool) (ranges : List (Char × Char))
  /-- Any directories at the beginning of a path. -/
  | front
  /-- A slash, or slashes around any directories. -/
  | middle
  /-- A slash and everything after it. -/
  | back
  deriving DecidableEq, Repr, Inhabited

/-- The characters of a class up to its closing bracket, and the text after it. -/
def classBody? : Nat → Bool → Bool → List (Char × Char) → List Char →
    Option (List (Char × Char) × List Char)
  | 0, _, _, _, _ => none
  | _ + 1, _, _, _, [] => none
  | n + 1, first, ranging, ranges, c :: rest =>
    if c = ']' && !first then
      some ((if ranging then ('-', '-') :: ranges else ranges).reverse, rest)
    else if c = '-' && !first && !ranging then classBody? n false true ranges rest
    else
      match ranging, ranges with
      | true, (low, _) :: others =>
        if c < low then none else classBody? n false false ((low, c) :: others) rest
      | _, _ => classBody? n false false ((c, c) :: ranges) rest

/-- A class after its opening bracket, and the text after it. -/
def class? (s : List Char) : Option (Part × List Char) :=
  let (negated, s) := match s with
    | '!' :: r => (true, r)
    | '^' :: r => (true, r)
    | r => (false, r)
  (classBody? (s.length + 1) true false [] s).map fun (ranges, rest) =>
    (.oneOf negated ranges, rest)

/-! ## Alternatives -/

mutual

/-- The texts of a pattern up to its end, or inside braces up to a comma or the closing brace; and
what is left of the pattern. -/
def textsFrom? : Nat → Bool → List Char → Option (List (List Char) × List Char)
  | 0, _, _ => none
  | _ + 1, _, [] => some ([[]], [])
  | n + 1, inside, '\\' :: c :: rest =>
    (textsFrom? n inside rest).map fun (texts, rest) => (texts.map ('\\' :: c :: ·), rest)
  | n + 1, inside, '[' :: rest =>
    match class? rest with
    | none => none
    | some (_, after) =>
      let front := '[' :: rest.take (rest.length - after.length)
      (textsFrom? n inside after).map fun (texts, rest) => (texts.map (front ++ ·), rest)
  | n + 1, inside, '{' :: rest =>
    match alternatives? n rest with
    | none => none
    | some (heads, rest) =>
      (textsFrom? n inside rest).map fun (tails, rest) =>
        (heads.flatMap fun head => tails.map (head ++ ·), rest)
  | n + 1, inside, c :: rest =>
    if inside && (c == ',' || c == '}') then some ([[]], c :: rest)
    else if c = '}' then none
    else (textsFrom? n inside rest).map fun (texts, rest) => (texts.map (c :: ·), rest)

/-- The texts of all alternatives up to the closing brace, and the pattern behind it. -/
def alternatives? : Nat → List Char → Option (List (List Char) × List Char)
  | 0, _ => none
  | n + 1, s =>
    match textsFrom? n true s with
    | some (texts, ',' :: rest) =>
      (alternatives? n rest).map fun (more, rest) => (texts ++ more, rest)
    | some (texts, '}' :: rest) => some (texts, rest)
    | _ => none

end

def texts? (pattern : List Char) : Option (List (List Char)) :=
  (textsFrom? (2 * pattern.length + 2) false pattern).map (·.1)

/-! ## Parts -/

/-- The part in place of a slash and the two stars behind it. -/
def starred (atEnd : Bool) : Part → Part
  | .front => .front
  | .back => .back
  | _ => if atEnd then .back else .middle

/-- The parts of a pattern; `before` is the character in front and `parts` holds the parts so far,
the latest first. -/
def partsFrom? : Nat → Option Char → List Part → List Char → Option (List Part)
  | 0, _, _, _ => none
  | _ + 1, _, parts, [] => some parts.reverse
  | n + 1, before, parts, '*' :: '*' :: rest =>
    match parts, rest with
    | [], [] => partsFrom? n (some '*') [.front] []
    | [], '/' :: rest => partsFrom? n (some '/') [.front] rest
    | [], rest => partsFrom? n (some '*') [.many, .many] rest
    | last :: earlier, rest =>
      if before = some '/' then
        match rest with
        | [] => partsFrom? n (some '*') (starred true last :: earlier) []
        | '/' :: rest => partsFrom? n (some '/') (starred false last :: earlier) rest
        | rest => partsFrom? n (some '*') (.many :: .many :: last :: earlier) rest
      else partsFrom? n (some '*') (.many :: .many :: last :: earlier) rest
  | n + 1, _, parts, '*' :: rest => partsFrom? n (some '*') (.many :: parts) rest
  | n + 1, _, parts, '?' :: rest => partsFrom? n (some '?') (.any :: parts) rest
  | n + 1, _, parts, '[' :: rest =>
    match class? rest with
    | none => none
    | some (part, rest) => partsFrom? n (some ']') (part :: parts) rest
  | _ + 1, _, _, ['\\'] => none
  | n + 1, _, parts, '\\' :: c :: rest => partsFrom? n (some c) (.char c :: parts) rest
  | n + 1, _, parts, c :: rest => partsFrom? n (some c) (.char c :: parts) rest

def parts? (text : List Char) : Option (List Part) := partsFrom? (text.length + 1) none [] text

/-- The parts of each text that a pattern stands for. -/
def read? (pattern : List Char) : Option (List (List Part)) :=
  (texts? pattern).bind fun texts => texts.mapM parts?

/-! ## Matching -/

/-- The texts behind the slashes of a text. -/
def afterSlashes : List Char → List (List Char)
  | [] => []
  | c :: rest => if c = '/' then rest :: afterSlashes rest else afterSlashes rest

/-- All ends of a text, from the whole text to the empty one. -/
def ends : List Char → List (List Char)
  | [] => [[]]
  | c :: rest => (c :: rest) :: ends rest

def inClass (negated : Bool) (ranges : List (Char × Char)) (c : Char) : Bool :=
  (ranges.any fun (low, high) => low ≤ c && c ≤ high) != negated

/-- The texts that are left when any number of characters other than slashes is taken away. -/
def afterMany : List Char → List (List Char)
  | [] => [[]]
  | c :: rest => if c = '/' then [c :: rest] else (c :: rest) :: afterMany rest

/-- The texts that are left when a part is taken from the beginning. -/
def Part.rests : Part → List Char → List (List Char)
  | .char d, c :: rest => if c = d then [rest] else []
  | .any, c :: rest => if c = '/' then [] else [rest]
  | .many, s => afterMany s
  | .oneOf negated ranges, c :: rest => if inClass negated ranges c then [rest] else []
  | .front, s => s :: afterSlashes s
  | .middle, '/' :: rest => rest :: afterSlashes rest
  | .back, '/' :: rest => ends rest
  | _, _ => []

/-- Whether a whole text matches the parts. -/
def isMatch : List Part → List Char → Bool
  | [], s => s.isEmpty
  | part :: parts, s => (part.rests s).any (isMatch parts)

end Testwright.Glob
