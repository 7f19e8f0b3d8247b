import Testwright.Number.Binary64

/-!
# Reading binary64 numbers

A text is read as a number if it is a decimal, or the name of an infinity or of no number, possibly
with a sign. A decimal has digits before or after its point, and perhaps an exponent.
-/

namespace Testwright.Binary64

/-- Why a text is no number. -/
inductive ReadError where
  | empty
  | malformed
  deriving DecidableEq, Repr, Inhabited

/-- The error in words. -/
def ReadError.message : ReadError → String
  | empty => "cannot parse float from empty string"
  | malformed => "invalid float literal"

def digitsValue (ds : List Char) : Nat := ds.foldl (fun n c => n * 10 + (c.toNat - 48)) 0

/-- An exponent, which may be absent; nothing may follow it. -/
def readExponent? : List Char → Option Int
  | [] => some 0
  | c :: rest =>
    if c = 'e' ∨ c = 'E' then
      let (negative, ds) := match rest with
        | '-' :: ds => (true, ds)
        | '+' :: ds => (false, ds)
        | ds => (false, ds)
      if ds.isEmpty || !ds.all Char.isDigit then none
      else some (if negative then -(digitsValue ds : Int) else digitsValue ds)
    else none

/-- A decimal without sign. -/
def readDecimal? (negative : Bool) (s : List Char) : Option Binary64 :=
  let (whole, s) := s.span Char.isDigit
  let (fraction, s) := match s with
    | '.' :: s => s.span Char.isDigit
    | s => ([], s)
  if whole.isEmpty && fraction.isEmpty then none
  else
    (readExponent? s).map fun e =>
      ofDecimal negative (digitsValue (whole ++ fraction)) (e - fraction.length)

/-- A number without sign: a name in any case, or a decimal. -/
def readUnsigned? (negative : Bool) (s : List Char) : Option Binary64 :=
  match String.ofList (s.map Char.toLower) with
  | "inf" => some (.infinite negative)
  | "infinity" => some (.infinite negative)
  | "nan" => some (.nan negative)
  | _ => readDecimal? negative s

/-- The number of a text. -/
def read (s : List Char) : Except ReadError Binary64 :=
  if s.isEmpty then .error .empty
  else
    let x? := match s with
      | '-' :: rest => readUnsigned? true rest
      | '+' :: rest => readUnsigned? false rest
      | rest => readUnsigned? false rest
    match x? with
    | some x => .ok x
    | none => .error .malformed

end Testwright.Binary64
