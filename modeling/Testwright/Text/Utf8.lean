/-!
# UTF-8

Files and the output of programs are sequences of bytes. `Utf8.decode` reads every such sequence
as characters with gaps: a gap stands for a longest run of bytes that begins a character without
completing it, or for a byte that begins none. A text is read strictly if there are no gaps
(`Utf8.text?`), and leniently with a replacement character for each (`Utf8.lenient`).
-/

namespace Testwright

/-- A sequence of bytes. -/
abbrev Bytes := List UInt8

namespace Utf8

/-- The bytes of a text. -/
def encode (s : String) : Bytes := s.toList.flatMap String.utf8EncodeChar

/-- Whether a byte continues a character. -/
def isContinuation (b : UInt8) : Bool := 0x80 ≤ b && b ≤ 0xBF

/-- The low six bits of a byte. -/
def payload (b : UInt8) : Nat := b.toNat % 64

/-- Whether a byte may come second after a leading byte of three or four. -/
def isSecond (lead b : UInt8) : Bool :=
  if lead == 0xE0 then 0xA0 ≤ b && b ≤ 0xBF
  else if lead == 0xED then 0x80 ≤ b && b ≤ 0x9F
  else if lead == 0xF0 then 0x90 ≤ b && b ≤ 0xBF
  else if lead == 0xF4 then 0x80 ≤ b && b ≤ 0x8F
  else isContinuation b

/-- How many bytes follow a leading byte. -/
def following? (lead : UInt8) : Option Nat :=
  if lead < 0x80 then some 0
  else if 0xC2 ≤ lead && lead ≤ 0xDF then some 1
  else if 0xE0 ≤ lead && lead ≤ 0xEF then some 2
  else if 0xF0 ≤ lead && lead ≤ 0xF4 then some 3
  else none

/-- The bytes that continue a character after its leading byte, at most `count`. -/
def continuations (lead : UInt8) (count : Nat) : Bytes → Bytes
  | [] => []
  | b :: rest =>
    if count = 0 || !isSecond lead b then []
    else b :: (rest.takeWhile isContinuation).take (count - 1)

/-- The value of the bits in a leading byte. -/
def leadPayload (lead : UInt8) : Nat :=
  if lead < 0x80 then lead.toNat
  else if lead < 0xE0 then lead.toNat % 32
  else if lead < 0xF0 then lead.toNat % 16
  else lead.toNat % 8

/-- The character that begins with a byte, or a gap, and how many further bytes it takes. -/
def step (lead : UInt8) (rest : Bytes) : Option Char × Nat :=
  match following? lead with
  | none => (none, 0)
  | some count =>
    let tail := continuations lead count rest
    let value := tail.foldl (fun n b => n * 64 + payload b) (leadPayload lead)
    (if tail.length = count then some (Char.ofNat value) else none, tail.length)

/-- The characters of a sequence of bytes and the gaps between them. -/
def decode : Bytes → List (Option Char)
  | [] => []
  | b :: rest => (step b rest).1 :: decode (rest.drop (step b rest).2)
termination_by bytes => bytes.length
decreasing_by simp only [List.length_cons, List.length_drop]; omega

def text? (bytes : Bytes) : Option String := ((decode bytes).mapM id).map String.ofList

/-- The text of bytes with a replacement character for each gap. -/
def lenient (bytes : Bytes) : String :=
  .ofList ((decode bytes).map fun c => c.getD '\uFFFD')

end Utf8

end Testwright
