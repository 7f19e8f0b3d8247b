/-!
# Blanks, trimming and splitting

Operations on texts as lists of characters. A *blank* is a character with the Unicode property
`White_Space`; an ASCII blank is a space, tab, line feed, form feed or carriage return.

* `fields_join`: splitting at a separator and joining with it gives the text back;
* `cut?_eq_some`: the two sides of a cut surround the text cut out.
-/

namespace Testwright.Text

/-- A character with the property `White_Space`. -/
def isBlank (c : Char) : Bool :=
  let n := c.toNat
  (9 ≤ n && n ≤ 13) || n == 0x20 || n == 0x85 || n == 0xA0 || n == 0x1680
    || (0x2000 ≤ n && n ≤ 0x200A) || n == 0x2028 || n == 0x2029 || n == 0x202F || n == 0x205F
    || n == 0x3000

/-- A space, tab, line feed, form feed or carriage return. -/
def isAsciiBlank (c : Char) : Bool :=
  c == ' ' || c == '\t' || c == '\n' || c == '\x0c' || c == '\r'

/-- The text without the characters at its end that satisfy `p`. -/
def dropEndWhile (p : Char → Bool) (s : List Char) : List Char := (s.reverse.dropWhile p).reverse

/-- The text without its leading blanks. -/
def trimStart (s : List Char) : List Char := s.dropWhile isBlank

/-- The text without its trailing blanks. -/
def trimEnd (s : List Char) : List Char := dropEndWhile isBlank s

/-- The text without leading and trailing blanks. -/
def trim (s : List Char) : List Char := trimEnd (trimStart s)

/-- The text without any blanks. -/
def squeeze (s : List Char) : List Char := s.filter fun c => !isBlank c

/-- The pieces between the separators. -/
def fields (sep : Char) : List Char → List (List Char)
  | [] => [[]]
  | c :: rest =>
    if c = sep then [] :: fields sep rest
    else match fields sep rest with
      | [] => [[c]]
      | piece :: pieces => (c :: piece) :: pieces

theorem fields_ne_nil (sep : Char) (s : List Char) : fields sep s ≠ [] := by
  cases s with
  | nil => simp [fields]
  | cons c rest =>
    unfold fields
    split
    · simp
    · split <;> simp

/-- Join pieces with a separator. -/
def join (sep : List Char) : List (List Char) → List Char
  | [] => []
  | [p] => p
  | p :: q :: rest => p ++ sep ++ join sep (q :: rest)

/-- Splitting at a separator and joining with it gives the text back. -/
theorem fields_join (sep : Char) (s : List Char) : join [sep] (fields sep s) = s := by
  induction s with
  | nil => rfl
  | cons c rest ih =>
    have hne := fields_ne_nil sep rest
    cases hf : fields sep rest with
    | nil => exact absurd hf hne
    | cons p ps =>
      rw [hf] at ih
      by_cases h : c = sep
      · simp [fields, h, hf, join, ih]
      · cases ps <;> simp_all [fields, join]

/-- What follows a given beginning. -/
def dropPrefix? : List Char → List Char → Option (List Char)
  | [], s => some s
  | _ :: _, [] => none
  | p :: ps, c :: s => if p = c then dropPrefix? ps s else none

theorem dropPrefix?_eq_some {p s r : List Char} : dropPrefix? p s = some r ↔ s = p ++ r := by
  induction p generalizing s with
  | nil => simp [dropPrefix?, eq_comm]
  | cons c p ih =>
    cases s with
    | nil => simp [dropPrefix?]
    | cons d s =>
      by_cases h : c = d
      · simp [dropPrefix?, h, ih]
      · simp [dropPrefix?, h, Ne.symm h]

/-- What precedes a given end. -/
def dropSuffix? (e s : List Char) : Option (List Char) :=
  (dropPrefix? e.reverse s.reverse).map List.reverse

/-- The texts before and after the first occurrence of a given text. -/
def cut? (pat : List Char) : List Char → Option (List Char × List Char)
  | [] => (dropPrefix? pat []).map fun after => ([], after)
  | c :: rest =>
    match dropPrefix? pat (c :: rest) with
    | some after => some ([], after)
    | none => (cut? pat rest).map fun (before, after) => (c :: before, after)

/-- The two sides of a cut surround the text cut out. -/
theorem cut?_eq_some {pat s before after : List Char} (h : cut? pat s = some (before, after)) :
    s = before ++ pat ++ after := by
  induction s generalizing before with
  | nil =>
    simp only [cut?, Option.map_eq_some_iff] at h
    obtain ⟨r, hr, he⟩ := h
    have := dropPrefix?_eq_some.1 hr
    simp_all
  | cons c rest ih =>
    unfold cut? at h
    split at h
    · next after' hp =>
      have := dropPrefix?_eq_some.1 hp
      simp_all
    · obtain ⟨⟨b, a⟩, hr, he⟩ := Option.map_eq_some_iff.1 h
      obtain ⟨rfl, rfl⟩ := Prod.mk.inj he
      simp [ih hr]

/-- The texts before and after the last occurrence of a given text. -/
def cutLast? (pat s : List Char) : Option (List Char × List Char) :=
  (cut? pat.reverse s.reverse).map fun (back, front) => (front.reverse, back.reverse)

/-- The two sides of the last cut surround the text cut out. -/
theorem cutLast?_eq_some {pat s front back : List Char} (h : cutLast? pat s = some (front, back)) :
    s = front ++ pat ++ back := by
  simp only [cutLast?, Option.map_eq_some_iff] at h
  obtain ⟨⟨b, f⟩, hc, he⟩ := h
  obtain ⟨rfl, rfl⟩ := Prod.mk.inj he
  have := congrArg List.reverse (cut?_eq_some hc)
  simpa using this

/-- The text before the first `c`, or the whole text. -/
def before (c : Char) (s : List Char) : List Char := s.takeWhile (· != c)

/-- The text after the last `c`, or the whole text. -/
def afterLast (c : Char) (s : List Char) : List Char := (s.reverse.takeWhile (· != c)).reverse

/-- Cut a text at the first `c`. -/
def cutAt? (c : Char) (s : List Char) : Option (List Char × List Char) :=
  match s.span (· != c) with
  | (_, []) => none
  | (front, _ :: rest) => some (front, rest)

def cutAtLast? (c : Char) (s : List Char) : Option (List Char × List Char) :=
  (cutAt? c s.reverse).map fun (back, front) => (front.reverse, back.reverse)

/-- Replace every occurrence of one character by a text. -/
def replaceChar (c : Char) (repl : List Char) (s : List Char) : List Char :=
  s.flatMap fun d => if d = c then repl else [d]

/-- Replace every occurrence of a text, from left to right; the empty text is not replaced. -/
def replaceAll (pat repl s : List Char) : List Char :=
  if _hp : pat = [] then s
  else
    match _h : cut? pat s with
    | none => s
    | some (front, back) => front ++ repl ++ replaceAll pat repl back
termination_by s.length
decreasing_by
  have hs := congrArg List.length (cut?_eq_some _h)
  have hpos := List.length_pos_iff.2 _hp
  simp only [List.length_append] at hs
  omega

/-- The lines of a text; a final line feed ends the last line, and a carriage return in front
of a line feed belongs to the line break. -/
def lines (s : List Char) : List (List Char) :=
  let pieces := fields '\n' s
  let pieces := if pieces.getLast? = some [] then pieces.dropLast else pieces
  match pieces.reverse with
  | [] => []
  | last :: init =>
    let chomp (l : List Char) : List Char := if l.getLast? = some '\r' then l.dropLast else l
    let last := if s.getLast? = some '\n' then chomp last else last
    (init.map chomp).reverse ++ [last]

/-- Whether one text occurs in another. -/
def isInfix (pat s : List Char) : Bool := (cut? pat s).isSome

end Testwright.Text

namespace Testwright

/-- Apply a function of character lists to a text. -/
def onChars (f : List Char → List Char) (s : String) : String := .ofList (f s.toList)

@[simp] theorem toList_onChars (f : List Char → List Char) (s : String) :
    (onChars f s).toList = f s.toList := String.toList_ofList

end Testwright
