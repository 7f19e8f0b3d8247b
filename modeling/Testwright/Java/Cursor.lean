import Testwright.Java.Sanitize
import Testwright.Text.Slice

/-!
# Scrubbing byte by byte

Scrubbing passes over the bytes of a text once. A `Cursor` stands at an index, and the bytes from `copied` up to it
are pending: they are still to be copied. An iteration (`Cursor.next?`) passes one piece of the text. Where the piece
is dropped or replaced, what is pending is copied first.

The end of a piece is found by an index that moves over bytes, not over characters (`scanEnd`). An escape takes the
byte behind the backslash along, whatever it is, so the index can stand inside of a character or behind the end of
the text. Bytes that are copied are a slice of the text, so an iteration fails where a slice would cut a character.
-/

namespace Testwright.Java.Scrub

/-- What a scan does at a byte. -/
inductive Move where
  /-- It ends behind a number of bytes. -/
  | stop (count : Nat)
  /-- It goes on behind the byte. -/
  | pass
  /-- It goes on behind the byte and the next one. -/
  | escape
  deriving DecidableEq, Repr

/-- The moves of a scan at a byte, given the bytes behind it; a byte counts as the character with its number. -/
abbrev Moves := Char → List Char → Move

/-- The moves at some texts, of which the first that stands there counts. All other bytes are passed. -/
def movesAt : List (List Char × Move) → Moves
  | [], _, _ => .pass
  | (text, move) :: rows, c, r => if text.isPrefixOf (c :: r) then move else movesAt rows c r

/-- Inside of a string or character literal. -/
def quotedMoves (quote : Char) : Moves := movesAt [(['\\'], .escape), (['\n'], .stop 0), ([quote], .stop 1)]

def textBlockMoves : Moves := movesAt [(['\\'], .escape), (['"', '"', '"'], .stop 3)]

def blockMoves : Moves := movesAt [(['*', '/'], .stop 2)]

def lineMoves : Moves := movesAt [(['\n'], .stop 0)]

/-- Inside of identifiers with points between them. -/
def nameMoves : Moves := fun c r =>
  if isNameContinue c || (c == '.' && r.head?.any isNameStart) then .pass else .stop 0

theorem nameMoves_of_isNameStart {c : Char} (h : isNameStart c = true) (r : List Char) : nameMoves c r = .pass := by
  rw [nameMoves, isNameContinue, h, Bool.true_or, Bool.true_or, if_pos rfl]

/-- The bytes behind an index, each as the character with its number. -/
def ahead (bytes : Bytes) (i : Nat) : List Char := (bytes.drop (i + 1)).map Utf8.unit

/-- Where a scan from an index ends: where a move ends it, else with the bytes. -/
def scanEnd (moves : Moves) (bytes : Bytes) (i : Nat) : Nat :=
  if h : i < bytes.length then
    match moves (Utf8.unit bytes[i]) (ahead bytes i) with
    | .stop count => i + count
    | .pass => scanEnd moves bytes (i + 1)
    | .escape => scanEnd moves bytes (i + 2)
  else bytes.length
termination_by bytes.length - i

/-- The kind and the end of the piece that begins at an index. -/
def pieceAt (bytes : Bytes) (i : Nat) (h : i < bytes.length) : PieceKind × Nat :=
  match Utf8.unit bytes[i], ahead bytes i with
  | '"', '"' :: '"' :: _ => (.literal, scanEnd textBlockMoves bytes (i + 3))
  | '"', _ => (.literal, scanEnd (quotedMoves '"') bytes (i + 1))
  | '\'', _ => (.literal, scanEnd (quotedMoves '\'') bytes (i + 1))
  | '/', '*' :: _ => (.blockComment, scanEnd blockMoves bytes (i + 2))
  | '/', '/' :: _ => (.lineComment, scanEnd lineMoves bytes i)
  | c, _ => if isNameStart c then (.name, scanEnd nameMoves bytes i) else (.other, i + 1)

structure Cursor where
  /-- The bytes up to here have been passed. -/
  index : Nat
  /-- The bytes up to here have been copied or left out. -/
  copied : Nat
  out : String
  deriving DecidableEq, Repr

namespace Cursor

def start : Cursor := ⟨0, 0, ""⟩

/-- Pass the bytes up to an index and leave them pending. -/
def skip (c : Cursor) (stop : Nat) : Cursor := { c with index := stop }

/-- Copy what is pending, and put a text in the place of the bytes up to an index. -/
def replace? (bytes : Bytes) (c : Cursor) (stop : Nat) (text : String) : Option Cursor :=
  (Utf8.slice? bytes c.copied c.index).map fun pending => ⟨stop, stop, c.out ++ pending ++ text⟩

/-- The byte in front of an index. -/
def before? (bytes : Bytes) (i : Nat) : Option Char :=
  if i = 0 then none else bytes[i - 1]?.map Utf8.unit

/-- Pass one piece. -/
def next? (bytes : Bytes) (c : Cursor) (h : c.index < bytes.length) : Option Cursor :=
  match pieceAt bytes c.index h with
  | (.blockComment, stop) =>
    (Utf8.between? bytes c.index stop).bind fun comment =>
      c.replace? bytes stop (.ofList (' ' :: (comment.map Utf8.unit).filter (· == '\n')))
  | (.lineComment, stop) =>
    if (before? bytes c.index).all (· == '\n') then some (c.skip stop) else c.replace? bytes stop ""
  | (.name, stop) =>
    (Utf8.slice? bytes c.index stop).bind fun name =>
      if isSynthetic name.toList && typeMayFollow (before? bytes c.index) &&
          typeMayPrecede (bytes[stop]?.map Utf8.unit) then
        c.replace? bytes stop (.ofList placeholder)
      else some (c.skip stop)
  | (_, stop) => some (c.skip stop)

end Cursor

/-! ## Every iteration moves forward -/

section
variable {moves : Moves} {bytes : Bytes} {i : Nat}

theorem scanEnd_of_pass (h : i < bytes.length) (hpass : moves (Utf8.unit bytes[i]) (ahead bytes i) = .pass) :
    scanEnd moves bytes i = scanEnd moves bytes (i + 1) := by
  rw [scanEnd, dif_pos h, hpass]

theorem le_scanEnd (h : i ≤ bytes.length) : i ≤ scanEnd moves bytes i := by
  -- An index that an escape moves behind the end comes back to it.
  have hmin : min i bytes.length ≤ scanEnd moves bytes i := by
    clear h
    fun_induction scanEnd moves bytes i with
    | case1 i h count hmoves => omega
    | case2 i h hmoves ih | case3 i h hmoves ih => omega
    | case4 i h => omega
  omega

theorem length_ahead : (ahead bytes i).length = bytes.length - (i + 1) := by
  rw [ahead, List.length_map, List.length_drop]

theorem lt_pieceAt (h : i < bytes.length) : i < (pieceAt bytes i h).2 := by
  have hlength : (ahead bytes i).length = bytes.length - (i + 1) := length_ahead
  unfold pieceAt
  split
  · next hahead =>
    rw [hahead] at hlength
    simp only [List.length_cons] at hlength
    have hle : i + 3 ≤ scanEnd textBlockMoves bytes (i + 3) := le_scanEnd (by omega)
    dsimp only
    omega
  · exact le_scanEnd h
  · exact le_scanEnd h
  · next hahead =>
    rw [hahead] at hlength
    simp only [List.length_cons] at hlength
    have hle : i + 2 ≤ scanEnd blockMoves bytes (i + 2) := le_scanEnd (by omega)
    dsimp only
    omega
  · next hslash _ =>
    dsimp only
    rw [scanEnd_of_pass h (by rw [hslash]; rfl)]
    exact le_scanEnd h
  · split
    · next hname =>
      dsimp only
      rw [scanEnd_of_pass h (nameMoves_of_isNameStart hname _)]
      exact le_scanEnd h
    · exact Nat.lt_succ_self i

end

namespace Cursor

section
variable {bytes : Bytes} {c c' : Cursor} {stop : Nat} {text : String}

theorem index_of_replace? (h : c.replace? bytes stop text = some c') : c'.index = stop := by
  obtain ⟨pending, -, rfl⟩ := Option.map_eq_some_iff.1 h
  rfl

/-- An iteration ends behind the piece. -/
theorem index_of_next? {h : c.index < bytes.length} (hnext : c.next? bytes h = some c') :
    c'.index = (pieceAt bytes c.index h).2 := by
  unfold next? at hnext
  split at hnext
  · next stop hpiece =>
    obtain ⟨comment, -, hreplace⟩ := Option.bind_eq_some_iff.1 hnext
    rw [hpiece, index_of_replace? hreplace]
  · next stop hpiece =>
    rw [hpiece]
    split at hnext
    · cases hnext
      rfl
    · exact index_of_replace? hnext
  · next stop hpiece =>
    obtain ⟨name, -, hname⟩ := Option.bind_eq_some_iff.1 hnext
    rw [hpiece]
    split at hname
    · exact index_of_replace? hname
    · cases hname
      rfl
  · next stop _ _ _ hpiece =>
    cases hnext
    rw [hpiece]
    rfl

theorem index_lt_of_next? {h : c.index < bytes.length} (hnext : c.next? bytes h = some c') : c.index < c'.index :=
  index_of_next? hnext ▸ lt_pieceAt h

end

/-- Pass all pieces, and copy what is still pending behind them. -/
def run? (bytes : Bytes) (c : Cursor) : Option String :=
  if h : c.index < bytes.length then
    match _hnext : c.next? bytes h with
    | some c' => run? bytes c'
    | none => none
  else (Utf8.slice? bytes c.copied bytes.length).map (c.out ++ ·)
termination_by bytes.length - c.index
decreasing_by
  have := index_lt_of_next? _hnext
  omega

end Cursor

/-- Scrub the bytes of a text. -/
def scrubBytes? (bytes : Bytes) : Option String := Cursor.start.run? bytes

end Testwright.Java.Scrub
