import Mathlib.Data.List.Find
import Testwright.Proofs.Java.Lexing
import Testwright.Proofs.Text.Cutting

/-!
# How far the scanner looks

A token that ends in front of a blank, a bracket or a semicolon does not depend on which of these it is or
on what follows (`scan?_append`).
-/

namespace Testwright.Java.Token

/-- The characters at which all tokens end but comments and quoted literals. -/
def stoppers : List Char :=
  [' ', '\t', '\n', '\x0b', '\x0c', '\r', '(', ')', '[', ']', '\x7b', '\x7d', ';']

/-- A text begins with one of these characters. -/
def Stopped (s : List Char) : Prop := ∃ c ∈ s.head?, c ∈ stoppers

section
variable {p : Char → Bool} {u v x x' : List Char} {n k : Nat}

theorem Stopped.exists_cons (h : Stopped x) : ∃ c r, x = c :: r ∧ c ∈ stoppers := by
  obtain ⟨c, hc, hstop⟩ := h
  cases x with
  | nil => cases hc
  | cons d r =>
    cases hc
    exact ⟨c, r, rfl, hstop⟩

theorem Stopped.cons {c : Char} {r : List Char} (h : c ∈ stoppers) : Stopped (c :: r) := ⟨c, rfl, h⟩

/-- A class of characters has no stoppers. -/
def Passing (p : Char → Bool) : Prop := ∀ c ∈ stoppers, p c = false

theorem passing_isDigit : Passing Char.isDigit := by unfold Passing; decide
theorem passing_isHex : Passing isHex := by unfold Passing; decide
theorem passing_isOctal : Passing isOctal := by unfold Passing; decide
theorem passing_isBinary : Passing isBinary := by unfold Passing; decide
theorem passing_isWordContinue : Passing isWordContinue := by unfold Passing; decide

theorem not_mem_of_passing {set : List Char} (h : (stoppers.all fun c => !set.contains c) = true) {c : Char}
    (hc : c ∈ stoppers) : c ∉ set := by
  simpa using List.all_eq_true.1 h c hc

variable (hp : Passing p) (hx : Stopped x)
include hp hx

theorem takeWhile_append_of_stopped : (u ++ x).takeWhile p = u.takeWhile p := by
  obtain ⟨c, r, rfl, hc⟩ := hx.exists_cons
  induction u with
  | nil => simp [hp c hc]
  | cons d u ih => simp [List.takeWhile_cons, ih]

theorem digitRun_append (n pending : Nat) : digitRun p n pending (u ++ x) = digitRun p n pending u := by
  obtain ⟨c, r, rfl, hc⟩ := hx.exists_cons
  induction u generalizing n pending with
  | nil =>
    have hne : c ≠ '_' := by
      rintro rfl
      exact absurd hc (by decide)
    simp [digitRun, hp c hc, hne]
  | cons d u ih => simp only [List.cons_append, digitRun, ih]

theorem digitsLength_append : digitsLength p (u ++ x) = digitsLength p u := digitRun_append hp hx 0 0

end

theorem digitRun_le (p : Char → Bool) (u : List Char) (n pending : Nat) :
    digitRun p n pending u ≤ n + pending + u.length := by
  induction u generalizing n pending with
  | nil => simp [digitRun]
  | cons c u ih =>
    unfold digitRun
    have hfirst := ih (n + pending + 1) 0
    have hlater := ih n (pending + 1)
    simp only [List.length_cons]
    split
    · omega
    · split <;> omega

theorem digitsLength_le (p : Char → Bool) (u : List Char) : digitsLength p u ≤ u.length := by
  have := digitRun_le p u 0 0
  simpa [digitsLength] using this

section
variable {p : Char → Bool} {u v x x' : List Char} {n k : Nat}

theorem drop_append_of_le (h : n ≤ u.length) : (u ++ x).drop n = u.drop n ++ x :=
  List.drop_append_of_le_length h

theorem withSuffix_append {set : List Char} (hset : (stoppers.all fun c => !set.contains c) = true)
    (hx : Stopped x) (hn : n ≤ u.length) : withSuffix set (u ++ x) n = withSuffix set u n := by
  obtain ⟨c, r, rfl, hc⟩ := hx.exists_cons
  rw [withSuffix, withSuffix, drop_append_of_le hn]
  cases hdrop : u.drop n with
  | nil => simp [not_mem_of_passing hset hc]
  | cons d v => rfl

theorem integerLength_append (hp : Passing p) (hx : Stopped x) (hn : n ≤ u.length) :
    integerLength p (u ++ x) n = integerLength p u n := by
  have hle := digitsLength_le p (u.drop n)
  rw [List.length_drop] at hle
  rw [integerLength, integerLength, drop_append_of_le hn, digitsLength_append hp hx]
  split
  · rfl
  · exact withSuffix_append (by decide) hx (by omega)

/-- The length of the sign of an exponent. -/
def signLength : List Char → Nat
  | '+' :: _ => 1
  | '-' :: _ => 1
  | _ => 0

theorem exponentLength_cons (marks : List Char) (c : Char) (r : List Char) :
    exponentLength marks (c :: r) =
      if c ∈ marks then
        match digitsLength Char.isDigit (r.drop (signLength r)) with
        | 0 => 0
        | d => 1 + signLength r + d
      else 0 := by
  unfold exponentLength signLength
  rfl

theorem signLength_append (hx : Stopped x) : signLength (u ++ x) = signLength u ∧
    signLength u ≤ u.length := by
  obtain ⟨c, r, rfl, hc⟩ := hx.exists_cons
  cases u with
  | nil =>
    simp only [stoppers, List.mem_cons, List.not_mem_nil, or_false] at hc
    rcases hc with rfl | rfl | rfl | rfl | rfl | rfl | rfl | rfl | rfl | rfl | rfl | rfl | rfl <;>
      exact ⟨rfl, Nat.le_refl 0⟩
  | cons d u =>
    refine ⟨?_, ?_⟩
    · unfold signLength
      simp only [List.cons_append]
      split <;> simp_all
    · unfold signLength
      split <;> simp

theorem exponentLength_append {marks : List Char} (hmarks : (stoppers.all fun c => !marks.contains c) = true)
    (hx : Stopped x) : exponentLength marks (u ++ x) = exponentLength marks u := by
  cases u with
  | nil =>
    obtain ⟨c, r, rfl, hc⟩ := hx.exists_cons
    rw [List.nil_append, exponentLength_cons, if_neg (not_mem_of_passing hmarks hc)]
    rfl
  | cons d u =>
    obtain ⟨hsign, hle⟩ := signLength_append (u := u) hx
    rw [List.cons_append, exponentLength_cons, exponentLength_cons, hsign, drop_append_of_le hle,
      digitsLength_append passing_isDigit hx]

theorem exponentLength_le (marks u : List Char) : exponentLength marks u ≤ u.length := by
  cases u with
  | nil => exact Nat.le_refl 0
  | cons d u =>
    rw [exponentLength_cons]
    have hle := digitsLength_le Char.isDigit (u.drop (signLength u))
    rw [List.length_drop] at hle
    generalize digitsLength Char.isDigit (u.drop (signLength u)) = k at hle
    split
    · cases k with
      | zero => exact Nat.zero_le _
      | succ k =>
        show 1 + signLength u + (k + 1) ≤ u.length + 1
        omega
    · exact Nat.zero_le _

/-- The length of a floating-point literal with a point behind `d` digits. -/
def pointLength (s : List Char) (d : Nat) : Nat :=
  let f := digitsLength Char.isDigit (s.drop (d + 1))
  if d = 0 ∧ f = 0 then 0
  else withSuffix floatSuffixes s (d + 1 + f + exponentLength ['e', 'E'] (s.drop (d + 1 + f)))

/-- The length of a floating-point literal without a point behind `d` digits. -/
def pointlessLength (s : List Char) (d : Nat) : Nat :=
  let n := withSuffix floatSuffixes s (d + exponentLength ['e', 'E', 'p', 'P'] (s.drop d))
  if d = 0 then 0 else if n = d then 0 else n

theorem decimalFloatLength_eq (s : List Char) : decimalFloatLength s =
    if (s.drop (digitsLength Char.isDigit s)).head? = some '.' then
      pointLength s (digitsLength Char.isDigit s)
    else pointlessLength s (digitsLength Char.isDigit s) := by
  unfold decimalFloatLength
  generalize digitsLength Char.isDigit s = d
  simp only
  split
  · next r hdrop =>
    have hr : s.drop (d + 1) = r := by rw [← List.drop_drop, hdrop]; rfl
    rw [hdrop, List.head?_cons, if_pos rfl, pointLength, hr]
  · next hother =>
    have hpoint : (s.drop d).head? ≠ some '.' := by
      intro hpoint
      cases hdrop : s.drop d with
      | nil => simp [hdrop] at hpoint
      | cons c r =>
        rw [hdrop] at hpoint
        exact hother r (by rw [hdrop, Option.some.inj hpoint])
    rw [if_neg hpoint]
    rfl

/-- What follows a text that is stopped does not begin with a character that is no stopper. -/
theorem head?_append_of_stopped (hx : Stopped x) {c : Char} (hc : c ∉ stoppers) :
    (u ++ x).head? = some c ↔ u.head? = some c := by
  cases u with
  | nil =>
    obtain ⟨d, r, rfl, hd⟩ := hx.exists_cons
    simp only [List.nil_append, List.head?_cons, List.head?_nil, Option.some.injEq, reduceCtorEq, iff_false]
    rintro rfl
    exact hc hd
  | cons d u => simp

theorem pointLength_append (hx : Stopped x) (hn : n < u.length) : pointLength (u ++ x) n = pointLength u n := by
  have hle := digitsLength_le Char.isDigit (u.drop (n + 1))
  rw [List.length_drop] at hle
  have hle' := exponentLength_le ['e', 'E'] (u.drop (n + 1 + digitsLength Char.isDigit (u.drop (n + 1))))
  rw [List.length_drop] at hle'
  simp only [pointLength]
  rw [drop_append_of_le (n := n + 1) hn, digitsLength_append passing_isDigit hx,
    drop_append_of_le (by omega), exponentLength_append (by decide) hx]
  split
  · rfl
  · exact withSuffix_append (by decide) hx (by omega)

theorem pointlessLength_append (hx : Stopped x) (hn : n ≤ u.length) :
    pointlessLength (u ++ x) n = pointlessLength u n := by
  have hle := exponentLength_le ['e', 'E', 'p', 'P'] (u.drop n)
  rw [List.length_drop] at hle
  simp only [pointlessLength]
  rw [drop_append_of_le hn, exponentLength_append (by decide) hx,
    withSuffix_append (by decide) hx (by omega)]

theorem decimalFloatLength_append (hx : Stopped x) :
    decimalFloatLength (u ++ x) = decimalFloatLength u := by
  have hle := digitsLength_le Char.isDigit u
  rw [decimalFloatLength_eq, decimalFloatLength_eq, digitsLength_append passing_isDigit hx,
    drop_append_of_le hle]
  generalize digitsLength Char.isDigit u = d at hle
  simp only [head?_append_of_stopped hx (show '.' ∉ stoppers by decide)]
  split
  · next hpoint =>
    refine pointLength_append hx (Nat.lt_of_not_le fun hle => ?_)
    rw [List.drop_eq_nil_of_le hle] at hpoint
    cases hpoint
  · exact pointlessLength_append hx hle

/-- The length of the digits of a hexadecimal floating-point literal with a point behind `d` of them. -/
def hexPointLength (s : List Char) (d : Nat) : Nat :=
  let f := digitsLength isHex (s.drop (2 + d + 1))
  if d = 0 ∧ f = 0 then 0 else 2 + d + 1 + f

theorem hexMantissaLength_eq (s : List Char) : hexMantissaLength s =
    if (s.drop (2 + digitsLength isHex (s.drop 2))).head? = some '.' then
      hexPointLength s (digitsLength isHex (s.drop 2))
    else if digitsLength isHex (s.drop 2) = 0 then 0 else 2 + digitsLength isHex (s.drop 2) := by
  unfold hexMantissaLength
  simp only [List.drop_drop]
  generalize digitsLength isHex (s.drop 2) = d
  split
  · next r hdrop =>
    have hr : s.drop (2 + d + 1) = r := by rw [← List.drop_drop, hdrop]; rfl
    rw [hdrop, List.head?_cons, if_pos rfl, hexPointLength, hr]
  · next hother =>
    have hpoint : (s.drop (2 + d)).head? ≠ some '.' := by
      intro hpoint
      cases hdrop : s.drop (2 + d) with
      | nil => simp [hdrop] at hpoint
      | cons c r =>
        rw [hdrop] at hpoint
        exact hother r (by rw [hdrop, Option.some.inj hpoint])
    rw [if_neg hpoint]

theorem hexMantissaLength_append (hx : Stopped x) (hu : 2 ≤ u.length) :
    hexMantissaLength (u ++ x) = hexMantissaLength u ∧ hexMantissaLength u ≤ u.length := by
  have hle := digitsLength_le isHex (u.drop 2)
  rw [List.length_drop] at hle
  rw [hexMantissaLength_eq, hexMantissaLength_eq, drop_append_of_le hu,
    digitsLength_append passing_isHex hx]
  generalize digitsLength isHex (u.drop 2) = d at hle
  rw [drop_append_of_le (by omega)]
  simp only [head?_append_of_stopped hx (show '.' ∉ stoppers by decide)]
  split
  · next hpoint =>
    have hlt : 2 + d < u.length := Nat.lt_of_not_le fun hle => by
      rw [List.drop_eq_nil_of_le hle] at hpoint
      cases hpoint
    have hle' := digitsLength_le isHex (u.drop (2 + d + 1))
    rw [List.length_drop] at hle'
    rw [hexPointLength, hexPointLength, drop_append_of_le (n := 2 + d + 1) hlt,
      digitsLength_append passing_isHex hx]
    refine ⟨rfl, ?_⟩
    split <;> omega
  · refine ⟨rfl, ?_⟩
    split <;> omega

theorem hexFloatLength_append (hx : Stopped x) (hu : 2 ≤ u.length) :
    hexFloatLength (u ++ x) = hexFloatLength u := by
  obtain ⟨hmantissa, hle⟩ := hexMantissaLength_append hx hu
  have hle' := exponentLength_le ['e', 'E', 'p', 'P'] (u.drop (hexMantissaLength u))
  rw [List.length_drop] at hle'
  rw [hexFloatLength_eq, hexFloatLength_eq, hmantissa, drop_append_of_le hle,
    exponentLength_append (by decide) hx]
  split
  · rfl
  · split
    · rfl
    · exact withSuffix_append (by decide) hx (by omega)

theorem numberForms_append (hx : Stopped x) (hx' : Stopped x') (hu : u ≠ []) :
    numberForms (u ++ x) = numberForms (u ++ x') := by
  have integer (p : Char → Bool) (hp : Passing p) (n : Nat) (hn : n ≤ u.length) :
      integerLength p (u ++ x) n = integerLength p (u ++ x') n := by
    rw [integerLength_append hp hx hn, integerLength_append hp hx' hn]
  have decimal := integer _ passing_isDigit 0 (Nat.zero_le _)
  have float : decimalFloatLength (u ++ x) = decimalFloatLength (u ++ x') := by
    rw [decimalFloatLength_append hx, decimalFloatLength_append hx']
  obtain ⟨d, u, rfl⟩ := List.exists_cons_of_ne_nil hu
  by_cases hzero : d = '0'
  · subst hzero
    cases u with
    | nil =>
      obtain ⟨c, r, rfl, hc⟩ := hx.exists_cons
      obtain ⟨c', r', rfl, hc'⟩ := hx'.exists_cons
      have plain {b : Char} (hb : b ∈ stoppers) :
          ¬(b = 'x' ∨ b = 'X') ∧ ¬(b = 'o' ∨ b = 'O') ∧ ¬(b = 'b' ∨ b = 'B') := by
        revert b
        decide
      have octal := integer _ passing_isOctal 1 (Nat.le_refl _)
      obtain ⟨h₁, h₂, h₃⟩ := plain hc
      obtain ⟨h₁', h₂', h₃'⟩ := plain hc'
      simp only [List.cons_append, List.nil_append] at decimal float octal ⊢
      simp only [numberForms, if_neg h₁, if_neg h₂, if_neg h₃, if_neg h₁', if_neg h₂', if_neg h₃', decimal,
        float, octal]
    | cons c u =>
      have hlen : 2 ≤ ('0' :: c :: u).length := by simp
      have hex := integer _ passing_isHex 2 hlen
      have octal := integer _ passing_isOctal 2 hlen
      have octal' := integer _ passing_isOctal 1 (by simp)
      have binary := integer _ passing_isBinary 2 hlen
      have hexFloat : hexFloatLength ('0' :: c :: u ++ x) = hexFloatLength ('0' :: c :: u ++ x') := by
        rw [hexFloatLength_append hx hlen, hexFloatLength_append hx' hlen]
      simp only [List.cons_append] at decimal float hex octal octal' binary hexFloat ⊢
      simp only [numberForms, decimal, float, hex, octal, octal', binary, hexFloat]
  · have other (r : List Char) : numberForms (d :: r) =
        [(.decimalInteger, integerLength Char.isDigit (d :: r) 0),
          (.decimalFloat, decimalFloatLength (d :: r))] := by
      unfold numberForms
      split
      · next heq => exact absurd (List.cons.inj heq).1 hzero
      · rfl
    simp only [List.cons_append] at decimal float ⊢
    rw [other, other, decimal, float]

end

/-! ## Symbols -/

section
variable {u x x' : List Char} {n k : Nat}

theorem isPrefixOf_append (hx : Stopped x) {symbol : List Char} (h : ∀ c ∈ symbol, c ∉ stoppers) :
    symbol.isPrefixOf (u ++ x) = symbol.isPrefixOf u := by
  obtain ⟨c, r, rfl, hc⟩ := hx.exists_cons
  induction symbol generalizing u with
  | nil => simp
  | cons d symbol ih =>
    obtain ⟨hd, hrest⟩ := List.forall_mem_cons.1 h
    cases u with
    | nil =>
      have hne : d ≠ c := by
        rintro rfl
        exact hd hc
      simp [List.isPrefixOf, hne]
    | cons b u => simp only [List.cons_append, List.isPrefixOf, ih hrest]

theorem symbolLength?_append (hx : Stopped x) (hx' : Stopped x') (hu : u ≠ []) :
    symbolLength? (u ++ x) = symbolLength? (u ++ x') := by
  have hlong : ∀ symbol ∈ longSymbols, ∀ c ∈ symbol, c ∉ stoppers := by decide
  have hfind : (longSymbols.find? fun symbol => symbol.isPrefixOf (u ++ x)) =
      longSymbols.find? fun symbol => symbol.isPrefixOf (u ++ x') := by
    refine List.find?_congr fun symbol hsymbol => ?_
    rw [isPrefixOf_append hx (hlong symbol hsymbol), isPrefixOf_append hx' (hlong symbol hsymbol)]
  obtain ⟨d, u, rfl⟩ := List.exists_cons_of_ne_nil hu
  unfold symbolLength?
  rw [hfind]
  rfl

end

/-! ## Quoted literals and comments

What follows the end of one plays no part in where it ends. -/

section
variable {u x x' : List Char} {n k skip : Nat}

theorem EndsAt.lt {s : List Char} (h : EndsAt n k s) : n < k := by
  obtain ⟨m, rfl, hm⟩ := h
  have := hm.pos
  omega

theorem stringLength?_lt {s : List Char} (h : stringLength? skip n s = some k) : n + skip < k := by
  fun_induction stringLength? skip n s with
  | case1 | case5 => cases h
  | case2 n c r skip ih =>
    have := ih h
    omega
  | case3 =>
    cases h
    exact Nat.lt_succ_self _
  | case4 n r skip _ _ ih | case6 n c r _ _ ih =>
    have := ih h
    omega

/-- A run within a text does not depend on what follows the text. -/
theorem takeWhile_append_of_lt (x' : List Char) {p : Char → Bool} (h : ((u ++ x).takeWhile p).length < u.length) :
    (u ++ x').takeWhile p = u.takeWhile p ∧ (u ++ x).takeWhile p = u.takeWhile p := by
  induction u with
  | nil => cases h
  | cons c u ih =>
    simp only [List.cons_append, List.takeWhile_cons] at h ⊢
    split
    · next hc =>
      rw [if_pos hc, List.length_cons, List.length_cons] at h
      obtain ⟨h₁, h₂⟩ := ih (by omega)
      exact ⟨by rw [h₁], by rw [h₂]⟩
    · exact ⟨rfl, rfl⟩

theorem escapeLength?_append (h : escapeLength? (u ++ x) = some k) (hk : k < u.length) :
    escapeLength? (u ++ x') = some k := by
  unfold escapeLength? at h
  split at h
  · next a b r heq =>
    split at h
    · next hhex =>
      cases h
      match u, hk with
      | c₁ :: c₂ :: c₃ :: _ :: v, _ =>
        simp only [List.cons_append, List.cons.injEq] at heq
        obtain ⟨rfl, rfl, rfl, -⟩ := heq
        simp only [List.cons_append, escapeLength?, hhex, if_true]
    · cases h
  · next r heq =>
    dsimp only at h
    split at h
    · next hex rest hdigits hclose =>
      cases h
      match u, hk with
      | c₁ :: c₂ :: v, hk =>
        simp only [List.cons_append, List.cons.injEq] at heq
        obtain ⟨rfl, rfl, rfl⟩ := heq
        have hlt : ((v ++ x).takeWhile isHex).length < v.length := by
          simp only [List.length_cons] at hk
          omega
        obtain ⟨htail, htail'⟩ := takeWhile_append_of_lt x' hlt
        rw [htail'] at hdigits hclose hlt
        rw [drop_append_of_le (Nat.le_of_lt hlt), List.drop_eq_getElem_cons hlt, List.cons_append] at hclose
        simp only [List.cons_append, escapeLength?]
        rw [htail, drop_append_of_le (Nat.le_of_lt hlt), List.drop_eq_getElem_cons hlt, List.cons_append,
          (List.cons.inj hclose).1, htail', hdigits]
        rfl
    · cases h
  · next a b c d r hbrace heq =>
    split at h
    · next hhex =>
      cases h
      match u, hk with
      | c₁ :: c₂ :: c₃ :: c₄ :: c₅ :: _ :: v, _ =>
        simp only [List.cons_append, List.cons.injEq] at heq
        obtain ⟨rfl, rfl, rfl, rfl, rfl, -⟩ := heq
        simp [escapeLength?, hhex]
    · cases h
  · next c r _ _ _ heq =>
    split at h
    · cases h
    · next hplain =>
      match u, hk with
      | c₁ :: v, hk =>
        simp only [List.cons_append, List.cons.injEq] at heq
        obtain ⟨rfl, rfl⟩ := heq
        have hform (r : List Char) : escapeLength? (c₁ :: r) =
            if isOctal c₁ then some (1 + ((r.take 2).takeWhile isOctal).length) else some 1 := by
          unfold escapeLength?
          split <;> simp_all
        rw [List.cons_append, hform, ← h]
        split
        · next hoctal =>
          rw [if_pos hoctal, Option.some.injEq] at h
          match v with
          | [] => simp at hk; omega
          | [a] =>
            have hother : isOctal a = false := by
              refine Bool.eq_false_iff.2 fun ha => ?_
              rw [← h, List.cons_append, List.take_succ_cons, List.takeWhile_cons, if_pos ha] at hk
              simp only [List.length_cons, List.length_nil] at hk
              omega
            simp [hother]
          | a :: b :: v => rfl
        · rfl
  · cases h

theorem stringLength?_append (h : stringLength? skip n (u ++ x) = some k) (hk : k ≤ n + u.length) :
    stringLength? skip n (u ++ x') = some k := by
  induction u generalizing skip n with
  | nil =>
    have := (stringLength?_endsAt h).lt
    simp at hk
    omega
  | cons c u ih =>
    rw [List.length_cons] at hk
    rw [List.cons_append] at h ⊢
    unfold stringLength? at h ⊢
    split
    · exact ih h (by omega)
    · simp only at h
      split
      · next hquote => rwa [if_pos hquote] at h
      · next hquote =>
        rw [if_neg hquote] at h
        split
        · next hback =>
          rw [if_pos hback] at h
          split at h
          · next j hescape =>
            have hlt := stringLength?_lt h
            rw [escapeLength?_append hescape (by omega)]
            exact ih h (by omega)
          · cases h
        · next hback =>
          rw [if_neg hback] at h
          exact ih h (by omega)

theorem textBlockLength?_le {s : List Char} (h : textBlockLength? n s = some k) : n + 3 ≤ k := by
  fun_induction textBlockLength? n s with
  | case1 => exact Nat.le_of_eq (Option.some.inj h)
  | case2 n c r ih | case3 n c r _ _ ih =>
    have := ih h
    omega
  | case4 => cases h

theorem textBlockLength?_append (h : textBlockLength? n (u ++ x) = some k) (hk : k ≤ n + u.length) :
    textBlockLength? n (u ++ x') = some k := by
  have hlen : 3 ≤ u.length := by
    have := textBlockLength?_le h
    omega
  fun_induction textBlockLength? n u with
  | case1 n r => exact h
  | case2 n c r ih =>
    simp only [List.cons_append, textBlockLength?] at h ⊢
    have hle := textBlockLength?_le h
    simp only [List.length_cons] at hk
    exact ih h (by omega) (by omega)
  | case3 n c r hquotes hback ih =>
    obtain ⟨a, r, rfl⟩ := List.exists_cons_of_length_pos (l := r) (by simp at hlen; omega)
    obtain ⟨b, r, rfl⟩ := List.exists_cons_of_length_pos (l := r) (by simp at hlen; omega)
    have hstep (y : List Char) : textBlockLength? n (c :: a :: b :: r ++ y) =
        textBlockLength? (n + 1) (a :: b :: r ++ y) := by
      conv_lhs => unfold textBlockLength?
      split
      · next heq =>
        simp only [List.cons_append, List.cons.injEq] at heq
        obtain ⟨rfl, rfl, rfl, -⟩ := heq
        exact (hquotes _ rfl rfl).elim
      · next heq =>
        simp only [List.cons_append, List.cons.injEq] at heq
        obtain ⟨rfl, rfl, -⟩ := heq
        exact (hback _ _ rfl rfl).elim
      · next heq =>
        simp only [List.cons_append, List.cons.injEq] at heq
        obtain ⟨rfl, rfl⟩ := heq
        rfl
      · next heq => cases heq
    rw [hstep] at h ⊢
    have hle := textBlockLength?_le h
    simp only [List.length_cons] at hk
    exact ih h (by simp only [List.length_cons]; omega) (by simp only [List.length_cons]; omega)
  | case4 => cases hlen

theorem characterLength?_append (h : characterLength? n (u ++ x) = some k) (hk : k ≤ n + u.length) :
    characterLength? n (u ++ x') = some k := by
  fun_induction characterLength? n u with
  | case1 => simp [characterLength?] at h
  | case2 n r hn => simpa only [List.cons_append, characterLength?, if_neg hn] using h
  | case3 n c r ih =>
    simp only [List.cons_append, characterLength?] at h ⊢
    exact ih h (by simp only [List.length_cons] at hk; omega)
  | case4 n c r hquote hback hstop =>
    rcases hstop with rfl | rfl
    · simp [characterLength?] at h
    · -- a backslash at the end escapes a character behind it
      cases r with
      | cons a r => exact (hback a r rfl rfl).elim
      | nil =>
        cases x with
        | nil => simp [characterLength?] at h
        | cons d x =>
          simp only [List.cons_append, List.nil_append, characterLength?] at h
          have := (characterLength?_endsAt h).lt
          simp at hk
          omega
  | case5 n c r hquote hback hstop ih =>
    have hstep (y : List Char) : characterLength? n (c :: (r ++ y)) = characterLength? (n + 1) (r ++ y) := by
      conv_lhs => unfold characterLength?
      split
      · next heq => exact (hquote (List.cons.inj heq).1).elim
      · next heq => exact (hstop (.inr (List.cons.inj heq).1)).elim
      · next heq =>
        obtain ⟨rfl, rfl⟩ := List.cons.inj heq
        exact if_neg hstop
      · next heq => cases heq
    rw [List.cons_append, hstep] at h ⊢
    exact ih h (by simp only [List.length_cons] at hk; omega)
  | case6 =>
    have := (characterLength?_endsAt h).lt
    simp at hk
    omega

theorem blockCommentLength?_le {s : List Char} (h : blockCommentLength? n s = some k) : n + 2 ≤ k := by
  fun_induction blockCommentLength? n s with
  | case1 => exact Nat.le_of_eq (Option.some.inj h)
  | case2 n c r _ ih =>
    have := ih h
    omega
  | case3 => cases h

theorem blockCommentLength?_append (h : blockCommentLength? n (u ++ x) = some k) (hk : k ≤ n + u.length) :
    blockCommentLength? n (u ++ x') = some k := by
  have hlen : 2 ≤ u.length := by
    have := blockCommentLength?_le h
    omega
  fun_induction blockCommentLength? n u with
  | case1 => exact h
  | case2 n c r hclose ih =>
    obtain ⟨a, r, rfl⟩ := List.exists_cons_of_length_pos (l := r) (by simp at hlen; omega)
    have hstep (y : List Char) : blockCommentLength? n (c :: a :: r ++ y) =
        blockCommentLength? (n + 1) (a :: r ++ y) := by
      conv_lhs => unfold blockCommentLength?
      split
      · next heq =>
        simp only [List.cons_append, List.cons.injEq] at heq
        obtain ⟨rfl, rfl, -⟩ := heq
        exact (hclose _ rfl rfl).elim
      · next heq =>
        simp only [List.cons_append, List.cons.injEq] at heq
        obtain ⟨rfl, rfl⟩ := heq
        rfl
      · next heq => cases heq
    rw [hstep] at h ⊢
    have hle := blockCommentLength?_le h
    simp only [List.length_cons] at hk
    exact ih h (by simp only [List.length_cons]; omega) (by simp only [List.length_cons]; omega)
  | case3 => cases hlen

end

/-! ## Tokens -/

theorem isPrefixOf_eq_false {p s : List Char} (h : ∀ r, s ≠ p ++ r) : p.isPrefixOf s = false := by
  refine Bool.eq_false_iff.2 fun hp => ?_
  obtain ⟨r, hr⟩ := List.isPrefixOf_iff_prefix.1 hp
  exact h r hr.symm

/-- The scanner tells the forms of tokens apart by what a text begins with. -/
theorem scan?_eq {s : List Char} (hs : s ≠ []) : scan? s =
    if ['/', '/'].isPrefixOf s then
      some (.comment .lineComment, 2 + ((s.drop 2).takeWhile (· != '\n')).length)
    else if ['/', '*'].isPrefixOf s then
      (blockCommentLength? 2 (s.drop 2)).map fun n => (.comment .blockComment, n)
    else if ['"', '"', '"'].isPrefixOf s then
      (textBlockLength? 3 (s.drop 3)).map fun n => (.literal .stringLiteral, n)
    else if ['"'].isPrefixOf s then
      (stringLength? 0 1 (s.drop 1)).map fun n => (.literal .stringLiteral, n)
    else if ['\''].isPrefixOf s then
      (characterLength? 1 (s.drop 1)).map fun n => (.literal .characterLiteral, n)
    else if ['@'].isPrefixOf s then
      some (.symbol, if ['i', 'n', 't', 'e', 'r', 'f', 'a', 'c', 'e'].isPrefixOf (s.drop 1) then 10 else 1)
    else if s.head?.any isWordStart then some (.word, (s.takeWhile isWordContinue).length)
    else
      match longest (numberForms s) with
      | some (kind, n) => some (.literal kind, n)
      | none => (symbolLength? s).map fun n => (.symbol, n) := by
  unfold scan?
  split
  · rfl
  · rfl
  · rfl
  · next r hblock =>
    have hfalse : ['"', '"', '"'].isPrefixOf ('"' :: r) = false :=
      isPrefixOf_eq_false fun r' heq => hblock r' (List.cons.inj heq).2
    simp [hfalse]
  · rfl
  · next r => split <;> simp [*]
  · next c r h₁ h₂ h₃ h₄ h₅ h₆ =>
    have other {d : Char} {p : List Char} (h : ∀ r', c = d → r = p ++ r' → False) :
        (d :: p).isPrefixOf (c :: r) = false :=
      isPrefixOf_eq_false fun r' heq => h r' (List.cons.inj heq).1 (List.cons.inj heq).2
    have f₁ : ['/', '/'].isPrefixOf (c :: r) = false := other h₁
    have f₂ : ['/', '*'].isPrefixOf (c :: r) = false := other h₂
    have f₃ : ['"', '"', '"'].isPrefixOf (c :: r) = false := other h₃
    have f₄ : ['"'].isPrefixOf (c :: r) = false := other fun _ hc _ => h₄ hc
    have f₅ : ['\''].isPrefixOf (c :: r) = false := other fun _ hc _ => h₅ hc
    have f₆ : ['@'].isPrefixOf (c :: r) = false := other fun _ hc _ => h₆ hc
    simp only [f₁, f₂, f₃, f₄, f₅, f₆, Bool.false_eq_true, if_false, List.head?_cons, Option.any_some]
    rfl
  · exact absurd rfl hs

section
variable {u x x' : List Char} {n k : Nat} {lexeme : Lexeme}

/-- A run that ends in front of a character goes no further in front of other texts with this character. -/
theorem takeWhile_append_of_head? {p : Char → Bool} (hhead : x.head? = x'.head?)
    (hx : x ≠ []) (h : ((u ++ x).takeWhile p).length ≤ u.length) :
    ((u ++ x').takeWhile p).length = ((u ++ x).takeWhile p).length := by
  induction u with
  | nil =>
    obtain ⟨c, r, rfl⟩ := List.exists_cons_of_ne_nil hx
    cases x' with
    | nil => cases hhead
    | cons c' r' =>
      cases hhead
      cases hc : p c with
      | true => simp [hc] at h
      | false => simp [hc]
  | cons c u ih =>
    simp only [List.cons_append, List.takeWhile_cons] at h ⊢
    split
    · next hc =>
      rw [if_pos hc, List.length_cons, List.length_cons] at h
      simp [ih (by omega)]
    · rfl

/-- A token in front of a stopper stays the same when what follows it changes. Behind a line comment this
may be any other text only if the comment ends earlier. -/
theorem scan?_append (hu : u ≠ []) (hx : Stopped x) (hx' : Stopped x')
    (h : scan? (u ++ x) = some (lexeme, n)) (hn : n ≤ u.length)
    (hline : lexeme = .comment .lineComment → n < u.length ∨ x.head? = x'.head?) :
    scan? (u ++ x') = some (lexeme, n) := by
  have front {p : List Char} (hp : ∀ c ∈ p, c ∉ stoppers) :
      p.isPrefixOf (u ++ x) = p.isPrefixOf u ∧ p.isPrefixOf (u ++ x') = p.isPrefixOf u :=
    ⟨isPrefixOf_append hx hp, isPrefixOf_append hx' hp⟩
  have back {p : List Char} (hp : p.isPrefixOf u = true) (y : List Char) :
      (u ++ y).drop p.length = u.drop p.length ++ y ∧ p.length ≤ u.length :=
    have hle := (List.isPrefixOf_iff_prefix.1 hp).length_le
    ⟨drop_append_of_le hle, hle⟩
  have quoted {p : List Char} (hp : p.isPrefixOf u = true) {length? : List Char → Option Nat} {l : Lexeme}
      (hlength : ∀ {v : List Char} {k : Nat}, length? (v ++ x) = some k → k ≤ p.length + v.length →
        length? (v ++ x') = some k)
      (h : (length? ((u ++ x).drop p.length)).map (fun n => (l, n)) = some (lexeme, n)) :
      (length? ((u ++ x').drop p.length)).map (fun n => (l, n)) = some (lexeme, n) := by
    obtain ⟨k, hk, heq⟩ := Option.map_eq_some_iff.1 h
    cases heq
    obtain ⟨hdrop, hle⟩ := back hp x
    rw [hdrop] at hk
    rw [(back hp x').1, hlength hk (by rw [List.length_drop]; omega)]
    rfl
  have hhead (y : List Char) : (u ++ y).head? = u.head? := by
    cases u with
    | nil => exact absurd rfl hu
    | cons c u => rfl
  obtain ⟨f₁, f₁'⟩ := front (p := ['/', '/']) (by decide)
  obtain ⟨f₂, f₂'⟩ := front (p := ['/', '*']) (by decide)
  obtain ⟨f₃, f₃'⟩ := front (p := ['"', '"', '"']) (by decide)
  obtain ⟨f₄, f₄'⟩ := front (p := ['"']) (by decide)
  obtain ⟨f₅, f₅'⟩ := front (p := ['\'']) (by decide)
  obtain ⟨f₆, f₆'⟩ := front (p := ['@']) (by decide)
  rw [scan?_eq (List.append_ne_nil_of_left_ne_nil hu x), f₁, f₂, f₃, f₄, f₅, f₆, hhead] at h
  rw [scan?_eq (List.append_ne_nil_of_left_ne_nil hu x'), f₁', f₂', f₃', f₄', f₅', f₆', hhead]
  split at h
  · next hp =>
    cases h
    have hlen : 2 ≤ u.length := (back hp x).2
    rw [show (u ++ x).drop 2 = u.drop 2 ++ x from (back hp x).1] at hn hline ⊢
    rw [if_pos hp, show (u ++ x').drop 2 = u.drop 2 ++ x' from (back hp x').1]
    rcases hline rfl with hlt | hheads
    · obtain ⟨htake, htake'⟩ := takeWhile_append_of_lt x' (u := u.drop 2) (x := x)
        (p := (· != '\n')) (by rw [List.length_drop]; omega)
      rw [htake, htake']
    · obtain ⟨c, r, rfl, -⟩ := hx.exists_cons
      rw [takeWhile_append_of_head? hheads (List.cons_ne_nil c r) (by rw [List.length_drop]; omega)]
  rename_i h₁
  rw [if_neg h₁]
  split at h
  · next hp =>
    rw [if_pos hp]
    exact quoted hp blockCommentLength?_append h
  rename_i h₂
  rw [if_neg h₂]
  split at h
  · next hp =>
    rw [if_pos hp]
    exact quoted hp textBlockLength?_append h
  rename_i h₃
  rw [if_neg h₃]
  split at h
  · next hp =>
    rw [if_pos hp]
    exact quoted hp stringLength?_append h
  rename_i h₄
  rw [if_neg h₄]
  split at h
  · next hp =>
    rw [if_pos hp]
    exact quoted hp characterLength?_append h
  rename_i h₅
  rw [if_neg h₅]
  split at h
  · next hp =>
    have hkeyword : ∀ c ∈ ['i', 'n', 't', 'e', 'r', 'f', 'a', 'c', 'e'], c ∉ stoppers := by decide
    rw [if_pos hp, ← h, show (u ++ x).drop 1 = u.drop 1 ++ x from (back hp x).1,
      show (u ++ x').drop 1 = u.drop 1 ++ x' from (back hp x').1, isPrefixOf_append hx hkeyword,
      isPrefixOf_append hx' hkeyword]
  rename_i h₆
  rw [if_neg h₆]
  rw [takeWhile_append_of_stopped passing_isWordContinue hx, numberForms_append hx hx' hu,
    symbolLength?_append hx hx' hu] at h
  rwa [takeWhile_append_of_stopped passing_isWordContinue hx']

/-- No token of more characters ends in a semicolon, line comments apart. -/
theorem lexeme_of_semicolon (hu : u ≠ []) (h : scan? (u ++ ';' :: x) = some (lexeme, u.length + 1)) :
    lexeme = .comment .lineComment := by
  have hx : Stopped (';' :: x) := .cons (by decide)
  have hx' : Stopped [' '] := .cons (by decide)
  have hlast (c : Char) (y : List Char) : (u ++ c :: y)[u.length + 1 - 1]? = some c := by simp
  have quoted {p : List Char} (hp : p.isPrefixOf (u ++ ';' :: x) = true) {length? : List Char → Option Nat} {l : Lexeme}
      (hends : ∀ {s : List Char} {k : Nat}, length? s = some k → EndsAt p.length k s)
      (h : (length? ((u ++ ';' :: x).drop p.length)).map (fun n => (l, n)) = some (lexeme, u.length + 1)) : False := by
    obtain ⟨k, hk, heq⟩ := Option.map_eq_some_iff.1 h
    cases heq
    obtain ⟨s, hs⟩ := List.isPrefixOf_iff_prefix.1 hp
    rw [← hs, List.drop_left] at hk
    obtain ⟨c, -, hc, hclosing⟩ := (hends hk).endsIn
    rw [hs, hlast] at hc
    cases hc
    exact absurd hclosing (by decide)
  have visible (h : EndsIn Inked (u ++ [' ']) (u.length + 1)) : False := by
    obtain ⟨c, -, hc, hinked⟩ := h
    rw [hlast] at hc
    cases hc
    exact absurd hinked (by decide)
  rw [scan?_eq (List.append_ne_nil_of_left_ne_nil hu _)] at h
  split at h
  · exact (congrArg Prod.fst (Option.some.inj h)).symm
  split at h
  · next hp => exact (quoted hp blockCommentLength?_endsAt h).elim
  split at h
  · next hp => exact (quoted hp textBlockLength?_endsAt h).elim
  split at h
  · next hp => exact (quoted hp stringLength?_endsAt h).elim
  split at h
  · next hp => exact (quoted hp characterLength?_endsAt h).elim
  obtain ⟨d, u, rfl⟩ := List.exists_cons_of_ne_nil hu
  split at h
  · have hkeyword : ∀ c ∈ ['i', 'n', 't', 'e', 'r', 'f', 'a', 'c', 'e'], c ∉ stoppers := by decide
    rw [List.cons_append, List.drop_succ_cons, List.drop_zero, isPrefixOf_append hx hkeyword] at h
    split at h
    · next hprefix =>
      have hle := (List.isPrefixOf_iff_prefix.1 hprefix).length_le
      have hlength := congrArg Prod.snd (Option.some.inj h)
      simp only [List.length_cons, List.length_nil] at hle hlength
      omega
    · have hlength := congrArg Prod.snd (Option.some.inj h)
      simp at hlength
  split at h
  · rw [takeWhile_append_of_stopped passing_isWordContinue hx] at h
    have hlength := congrArg Prod.snd (Option.some.inj h)
    have hle := (List.takeWhile_prefix isWordContinue (l := d :: u)).length_le
    simp only at hlength
    omega
  rw [numberForms_append hx hx' hu, symbolLength?_append hx hx' hu] at h
  split at h
  · next hlongest =>
    cases h
    obtain ⟨hform, hpos⟩ := longest_mem hlongest
    exact (visible ((numberForms_endsIn hform).resolve_left hpos)).elim
  · obtain ⟨k, hk, heq⟩ := Option.map_eq_some_iff.1 h
    cases heq
    exact (visible (symbolLength?_endsIn hk)).elim

/-- A mark is a token of its own. -/
theorem scan?_mark {c : Char} (hc : c ∈ [';', '(', '[', '\x7b', ')', ']', '\x7d']) (r : List Char) :
    scan? (c :: r) = some (.symbol, 1) := by
  simp only [List.mem_cons, List.not_mem_nil, or_false] at hc
  rcases hc with rfl | rfl | rfl | rfl | rfl | rfl | rfl <;> rfl

end

end Testwright.Java.Token
