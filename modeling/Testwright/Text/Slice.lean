import Testwright.Text.Utf8

/-!
# Places in the bytes of a text

A place in a sequence of bytes is given by its index. At a *boundary* no character is under way, and a slice is the
text between two boundaries (`Utf8.slice?`): there is none between other places.
-/

namespace Testwright.Utf8

/-- The character whose number a byte is. Characters beyond ASCII are written in bytes from 0x80 on, so every other
byte is the character that it stands for. -/
def unit (b : UInt8) : Char := .ofNat b.toNat

/-- Whether a character begins at an index, or the bytes end there. -/
def isBoundary (bytes : Bytes) (i : Nat) : Bool :=
  i == 0 || i == bytes.length || bytes[i]?.any fun b => !isContinuation b

/-- The bytes between two places. -/
def between? (bytes : Bytes) (start stop : Nat) : Option Bytes :=
  if start ≤ stop ∧ stop ≤ bytes.length then some ((bytes.take stop).drop start) else none

/-- The text between two boundaries. -/
def slice? (bytes : Bytes) (start stop : Nat) : Option String :=
  if isBoundary bytes start && isBoundary bytes stop then (between? bytes start stop).bind text? else none

end Testwright.Utf8
