import Testwright.Text.Basic

/-!
# Cleaning decompiled text

`sanitize` drops the banner in front of decompiled text (`stripBanner`) and then scrubs the text
(`scrub`): block comments become blank, line comments vanish unless they start a line, and a
synthetic class such as `Outer$1` becomes `Object` where it stands as a type.

The text is cut into pieces by lexical rules alone (`pieces`), so what looks like a comment inside
a literal is part of the literal. No character is lost in the cut (`pieces_flatten`).
-/

namespace Testwright.Java

namespace Scrub

/-- What a piece of text is. -/
inductive PieceKind where
  /-- A string, character literal or text block, possibly unclosed. -/
  | literal
  | blockComment
  | lineComment
  /-- Identifiers with points between them. -/
  | name
  /-- Any other character. -/
  | other
  deriving DecidableEq, Repr, Inhabited

/-- A piece of text. -/
structure Piece where
  kind : PieceKind
  text : List Char
  deriving DecidableEq, Repr, Inhabited

/-- Whether a character can start an identifier; above ASCII every character can. -/
def isNameStart (c : Char) : Bool := c.isAlpha || c == '_' || c == '$' || 0x80 ≤ c.toNat

/-- Whether a character can continue an identifier. -/
def isNameContinue (c : Char) : Bool := isNameStart c || c.isDigit

/-- The length of a literal after its opening quote. An escape takes two characters; a literal
that is not closed ends before the line break or with the text. -/
def quotedLength (quote : Char) : List Char → Nat
  | [] => 0
  | ['\\'] => 1
  | '\\' :: _ :: r => 2 + quotedLength quote r
  | c :: r => if c = '\n' then 0 else if c = quote then 1 else 1 + quotedLength quote r

/-- The length of a text block after its opening quotes. -/
def textBlockLength : List Char → Nat
  | [] => 0
  | ['\\'] => 1
  | '\\' :: _ :: r => 2 + textBlockLength r
  | '"' :: '"' :: '"' :: _ => 3
  | _ :: r => 1 + textBlockLength r

/-- The length of a block comment after its opening. -/
def blockLength : List Char → Nat
  | [] => 0
  | '*' :: '/' :: _ => 2
  | _ :: r => 1 + blockLength r

/-- The length of identifiers with points between them. -/
def nameLength : List Char → Nat
  | [] => 0
  | '.' :: c :: r => if isNameStart c then 1 + nameLength (c :: r) else 0
  | c :: r => if isNameContinue c then 1 + nameLength r else 0

/-- The kind and length of the first piece of a text, given its first character. -/
def first (c : Char) (r : List Char) : PieceKind × Nat :=
  if c = '"' then
    match r with
    | '"' :: '"' :: r => (.literal, 3 + textBlockLength r)
    | r => (.literal, 1 + quotedLength '"' r)
  else if c = '\'' then (.literal, 1 + quotedLength '\'' r)
  else if c = '/' then
    match r with
    | '*' :: r => (.blockComment, 2 + blockLength r)
    | '/' :: r => (.lineComment, 2 + (r.takeWhile (· != '\n')).length)
    | _ => (.other, 1)
  else if isNameStart c then (.name, 1 + nameLength r)
  else (.other, 1)

/-- The pieces of a text, of which there are at most `fuel`. -/
def piecesFrom : Nat → List Char → List Piece
  | _, [] => []
  | 0, _ :: _ => []
  | fuel + 1, c :: r =>
    let (kind, n) := first c r
    ⟨kind, (c :: r).take n⟩ :: piecesFrom fuel ((c :: r).drop n)

/-- The pieces of a text. -/
def pieces (s : List Char) : List Piece := piecesFrom s.length s

theorem first_pos (c : Char) (r : List Char) : 0 < (first c r).2 := by
  unfold first
  split
  · split <;> simp <;> omega
  · split
    · simp <;> omega
    · split
      · split <;> simp <;> omega
      · split <;> simp <;> omega

theorem piecesFrom_flatten {fuel : Nat} {s : List Char} (h : s.length ≤ fuel) :
    (piecesFrom fuel s).flatMap Piece.text = s := by
  induction fuel generalizing s with
  | zero =>
    cases s with
    | nil => rfl
    | cons c r => simp at h
  | succ fuel ih =>
    cases s with
    | nil => rfl
    | cons c r =>
      have hpos := first_pos c r
      have hlen : ((c :: r).drop (first c r).2).length ≤ fuel := by
        simp only [List.length_drop]; simp only [List.length_cons] at h ⊢; omega
      simp only [piecesFrom, List.flatMap_cons, ih hlen, List.take_append_drop]

/-- No character is lost in the cut. -/
theorem pieces_flatten (s : List Char) : (pieces s).flatMap Piece.text = s :=
  piecesFrom_flatten (Nat.le_refl _)

/-- Whether a name is a class made by the compiler: its last part begins with a capital letter and
ends in a dollar sign and digits. -/
def isSynthetic (name : List Char) : Bool :=
  match Text.cutAtLast? '$' (Text.afterLast '.' name) with
  | none => false
  | some (base, number) =>
    !number.isEmpty && number.all Char.isDigit &&
      match base with
      | c :: _ => c.isUpper
      | [] => false

/-- Whether a type can follow a character, or begin a text. -/
def typeMayFollow : Option Char → Bool
  | none => true
  | some c => c == '(' || c == ',' || Text.isAsciiBlank c

/-- Whether a type can precede a character, or end a text. -/
def typeMayPrecede : Option Char → Bool
  | none => true
  | some c => c == ',' || c == ';' || c == ')' || Text.isAsciiBlank c

/-- The class that stands for a synthetic one. -/
def placeholder : List Char := ['O', 'b', 'j', 'e', 'c', 't']

/-- What becomes of a piece between the characters next to it. -/
def scrubPiece (previous next : Option Char) (p : Piece) : List Char :=
  match p.kind with
  | .blockComment => ' ' :: p.text.filter (· == '\n')
  | .lineComment => if previous = none ∨ previous = some '\n' then p.text else []
  | .name =>
    if isSynthetic p.text && typeMayFollow previous && typeMayPrecede next then placeholder
    else p.text
  | _ => p.text

/-- What becomes of the pieces after a given character. -/
def scrubPieces (previous : Option Char) : List Piece → List Char
  | [] => []
  | p :: rest =>
    let next := (rest.head?.map Piece.text).bind List.head?
    scrubPiece previous next p ++ scrubPieces (p.text.getLast?.or previous) rest

end Scrub

/-- Remove comments and synthetic classes. -/
def scrub (s : List Char) : List Char := Scrub.scrubPieces none (Scrub.pieces s)

/-- Drop the progress lines in front of a text, of which there are at most `fuel`. -/
def dropProgress : Nat → List Char → List Char
  | 0, s => s
  | fuel + 1, s =>
    if ['A', 'n', 'a', 'l', 'y', 's', 'i', 'n', 'g'].isPrefixOf s then
      match s.dropWhile (· != '\n') with
      | _ :: r => dropProgress fuel r
      | [] => s
    else s

/-- Drop progress lines, blanks and one block comment in front of a text. -/
def stripBanner (s : List Char) : List Char :=
  let s := Text.trimStart (dropProgress s.length s)
  match s with
  | '/' :: '*' :: r =>
    match Text.cut? ['*', '/'] r with
    | some (_, after) => Text.trimStart after
    | none => s
  | _ => s

/-- Clean decompiled text. -/
def sanitize (s : List Char) : List Char := scrub (stripBanner s)

end Testwright.Java
