import Testwright.Number.Binary64
import Testwright.Text.Basic

/-!
# Quoted texts in messages

A text is quoted in a message so that every character of it can be told apart: quotes, backslashes
and line breaks are escaped, and characters that cannot be seen are written by their number.
-/

namespace Testwright.Text

/-- Ranges of characters that cannot be seen: controls, blanks other than the space, format
characters, and those for private use or for none. -/
def invisibleRanges : List (Nat × Nat) :=
  [(0x00, 0x1F), (0x7F, 0xA0), (0xAD, 0xAD), (0x600, 0x605), (0x61C, 0x61C), (0x6DD, 0x6DD),
    (0x70F, 0x70F), (0x890, 0x891), (0x8E2, 0x8E2), (0x1680, 0x1680), (0x180E, 0x180E),
    (0x2000, 0x200F), (0x2028, 0x202F), (0x205F, 0x206F), (0x3000, 0x3000), (0xE000, 0xF8FF),
    (0xFEFF, 0xFEFF), (0xFFF0, 0xFFFB), (0xFFFE, 0xFFFF), (0x110BD, 0x110BD),
    (0x110CD, 0x110CD), (0x1BCA0, 0x1BCA3), (0x1D173, 0x1D17A), (0xE0000, 0x10FFFF)]

/-- Whether a character cannot be seen. -/
def isInvisible (c : Char) : Bool :=
  invisibleRanges.any fun (low, high) => low ≤ c.toNat && c.toNat ≤ high

/-- A character inside quotes. -/
def debugChar (c : Char) : List Char :=
  match c with
  | '"' => ['\\', '"']
  | '\\' => ['\\', '\\']
  | '\n' => ['\\', 'n']
  | '\r' => ['\\', 'r']
  | '\t' => ['\\', 't']
  | '\x00' => ['\\', '0']
  | c => if isInvisible c then ['\\', 'u', '{'] ++ Nat.toDigits 16 c.toNat ++ ['}'] else [c]

/-- A text in quotes. -/
def debug (s : String) : String := .ofList ('"' :: s.toList.flatMap debugChar ++ ['"'])

end Testwright.Text
