/-!
# Binary floating point of 64 bits

Numbers of the binary64 format as sign, mantissa and exponent, with arithmetic that computes the
exact result and rounds it once to the nearest number, a tie to the even mantissa. Nothing here
uses the machine's floating point, so every result is a value a proof can compute.

* `roundDiv_le`, `le_roundDiv`: a rounded quotient is within one half of the exact one.
-/

namespace Testwright

/-- The integer nearest to `n / d`; of two equally near ones the even one. -/
def roundDiv (n d : Nat) : Nat :=
  let q := n / d
  let r := n % d
  if 2 * r < d then q
  else if d < 2 * r then q + 1
  else if q % 2 = 0 then q else q + 1

/-- A rounded quotient exceeds the exact one by at most one half. -/
theorem roundDiv_le (n d : Nat) : 2 * d * roundDiv n d ≤ 2 * n + d := by
  have h := Nat.div_add_mod n d
  have key : 2 * d * (n / d) + 2 * (n % d) = 2 * n := by
    rw [Nat.mul_assoc, ← Nat.mul_add, h]
  unfold roundDiv
  simp only
  split
  · omega
  · split
    · rw [Nat.mul_add]; omega
    · split
      · omega
      · rw [Nat.mul_add]; omega

/-- A rounded quotient falls short of the exact one by at most one half. -/
theorem le_roundDiv (n : Nat) {d : Nat} (hd : 0 < d) : 2 * n ≤ 2 * d * roundDiv n d + d := by
  have h := Nat.div_add_mod n d
  have key : 2 * d * (n / d) + 2 * (n % d) = 2 * n := by
    rw [Nat.mul_assoc, ← Nat.mul_add, h]
  have hr := Nat.mod_lt n hd
  unfold roundDiv
  simp only
  split
  · omega
  · split
    · rw [Nat.mul_add]; omega
    · split
      · omega
      · rw [Nat.mul_add]; omega

/-- A binary64 number: `mantissa * 2 ^ exponent`, an infinity, or no number, each with a sign. -/
inductive Binary64 where
  | nan (negative : Bool)
  | infinite (negative : Bool)
  | finite (negative : Bool) (mantissa : Nat) (exponent : Int)
  deriving DecidableEq, Repr, Inhabited

namespace Binary64

/-- The exponent of the smallest positive numbers. -/
def minExponent : Int := -1074

/-- The largest exponent a number can have. -/
def maxExponent : Int := 971

/-- The zero of a sign. -/
def zero (negative : Bool) : Binary64 := .finite negative 0 minExponent

/-- `n / d * 2 ^ e` as a quotient of natural numbers. -/
def scale (n d : Nat) (e : Int) : Nat × Nat :=
  if 0 ≤ e then (n * Nat.pow 2 e.toNat, d) else (n, d * Nat.pow 2 (-e).toNat)

/-- The exponent `e` with `2 ^ e ≤ n / d < 2 ^ (e + 1)`, for positive `n` and `d`. -/
def magnitude (n d : Nat) : Int :=
  let e : Int := (Nat.log2 n : Int) - (Nat.log2 d : Int)
  let (a, b) := scale n d (-e)
  if a < b then e - 1 else e

/-- The number nearest to `n / d`; of two equally near ones that with the even mantissa. -/
def round (negative : Bool) (n d : Nat) : Binary64 :=
  if n = 0 then zero negative
  else
    let e := max (magnitude n d - 52) minExponent
    let (a, b) := scale n d (-e)
    let m := roundDiv a b
    let (m, e) := if m = 0x20000000000000 then (0x10000000000000, e + 1) else (m, e)
    if maxExponent < e then .infinite negative else .finite negative m e

/-- The number nearest to a natural number. -/
def ofNat (n : Nat) : Binary64 := round false n 1

/-- The number nearest to `digits * 10 ^ e`. -/
def ofDecimal (negative : Bool) (digits : Nat) (e : Int) : Binary64 :=
  let size : Int := (Nat.toDigits 10 digits).length
  if digits = 0 ∨ e + size < -400 then zero negative
  else if 400 < e + size then .infinite negative
  else if 0 ≤ e then round negative (digits * Nat.pow 10 e.toNat) 1
  else round negative digits (Nat.pow 10 (-e).toNat)

/-- The number nearest to `m * 2 ^ e`. -/
def ofDyadic (negative : Bool) (m : Nat) (e : Int) : Binary64 :=
  let (a, b) := scale m 1 e
  round negative a b

/-- The sum, rounded. -/
def add : Binary64 → Binary64 → Binary64
  | .nan s, _ => .nan s
  | _, .nan t => .nan t
  | .infinite s, .infinite t => if s = t then .infinite s else .nan false
  | .infinite s, _ => .infinite s
  | _, .infinite t => .infinite t
  | .finite s m e, .finite t n f =>
    let g := min e f
    let a : Int := (m * Nat.pow 2 (e - g).toNat : Nat)
    let b : Int := (n * Nat.pow 2 (f - g).toNat : Nat)
    let sum := (if s then -a else a) + (if t then -b else b)
    if sum = 0 then zero (s && t) else ofDyadic (decide (sum < 0)) sum.natAbs g

/-- The product, rounded. -/
def mul : Binary64 → Binary64 → Binary64
  | .nan s, _ => .nan s
  | _, .nan t => .nan t
  | .infinite s, .infinite t => .infinite (s != t)
  | .infinite s, .finite t n _ => if n = 0 then .nan false else .infinite (s != t)
  | .finite s m _, .infinite t => if m = 0 then .nan false else .infinite (s != t)
  | .finite s m e, .finite t n f => ofDyadic (s != t) (m * n) (e + f)

/-- The quotient, rounded. -/
def div : Binary64 → Binary64 → Binary64
  | .nan s, _ => .nan s
  | _, .nan t => .nan t
  | .infinite _, .infinite _ => .nan false
  | .infinite s, .finite t _ _ => .infinite (s != t)
  | .finite s _ _, .infinite t => zero (s != t)
  | .finite s m e, .finite t n f =>
    if n = 0 then (if m = 0 then .nan false else .infinite (s != t))
    else
      let (a, b) := scale m n (e - f)
      round (s != t) a b

instance : Add Binary64 := ⟨add⟩
instance : Mul Binary64 := ⟨mul⟩
instance : Div Binary64 := ⟨div⟩

/-- Whether a number is an infinity. -/
def isInfinite : Binary64 → Bool
  | .infinite _ => true
  | _ => false

/-- Whether a number is a zero. -/
def isZero : Binary64 → Bool
  | .finite _ m _ => m == 0
  | _ => false

/-- The 64 bits of a number. -/
def bits : Binary64 → Nat
  | .nan s => (if s then 0x8000000000000000 else 0) + 0x7FF8000000000000
  | .infinite s => (if s then 0x8000000000000000 else 0) + 0x7FF0000000000000
  | .finite s m e =>
    let sign := if s then 0x8000000000000000 else 0
    if m < 0x10000000000000 then sign + m
    else sign + (e + 1075).toNat * 0x10000000000000 + (m - 0x10000000000000)

/-- The digits of a natural number, padded with zeros to a width. -/
def padded (base width n : Nat) : String :=
  let ds := Nat.toDigits base n
  String.ofList (List.replicate (width - ds.length) '0' ++ ds)

/-- The bits as sixteen hexadecimal digits. -/
def hex (x : Binary64) : String := padded 16 16 x.bits

/-- The text with a fixed number of decimal places, rounded to nearest, ties to even. -/
def fixed (places : Nat) : Binary64 → String
  | .nan _ => "NaN"
  | .infinite s => if s then "-inf" else "inf"
  | .finite s m e =>
    let (a, b) := scale m 1 e
    let n := roundDiv (a * Nat.pow 10 places) b
    let whole := toString (n / Nat.pow 10 places)
    let sign := if s then "-" else ""
    if places = 0 then sign ++ whole
    else sign ++ whole ++ "." ++ padded 10 places (n % Nat.pow 10 places)

/-- The shortest decimal, as digits and a power of ten, that reads back as the number with the
given magnitude; `fuel` bounds the number of digits tried beyond `count`. -/
def shortestFrom (m : Nat) (e : Int) (count : Nat) : Nat → Nat × Int
  | 0 => (m, 0)
  | fuel + 1 =>
    let (a, b) := scale m 1 e
    let size : Int :=
      if a / b = 0 then 1 - ((Nat.toDigits 10 (b / a)).length : Int)
      else (Nat.toDigits 10 (a / b)).length
    let p : Int := size - count
    let digits :=
      if 0 ≤ p then roundDiv a (b * Nat.pow 10 p.toNat)
      else roundDiv (a * Nat.pow 10 (-p).toNat) b
    if ofDecimal false digits p = .finite false m e then (digits, p)
    else shortestFrom m e (count + 1) fuel

/-- The text with the fewest digits that read back: positional with a point from `1e-5` up to but
not including `1e16`, otherwise with an exponent and its sign. -/
def shortest : Binary64 → String
  | .nan _ => "null"
  | .infinite _ => "null"
  | .finite s m e =>
    let sign := if s then "-" else ""
    if m = 0 then sign ++ "0.0"
    else
      let (digits, p) := shortestFrom m e 1 20
      let ds := Nat.toDigits 10 digits
      let point : Int := ds.length + p
      sign ++
        if 0 < point ∧ point ≤ 16 then
          if 0 ≤ p then String.ofList (ds ++ List.replicate p.toNat '0') ++ ".0"
          else String.ofList (ds.take point.toNat) ++ "." ++ String.ofList (ds.drop point.toNat)
        else if -5 < point ∧ point ≤ 0 then
          "0." ++ String.ofList (List.replicate (-point).toNat '0' ++ ds)
        else
          String.ofList (ds.take 1) ++
            (if ds.length = 1 then "" else "." ++ String.ofList (ds.drop 1)) ++
            (if 1 ≤ point then "e+" else "e-") ++ toString (point - 1).natAbs

end Binary64

end Testwright
