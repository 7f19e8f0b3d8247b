import Mathlib.Data.List.TakeWhile
import Mathlib.Tactic.IntervalCases
import Testwright.Json.Reader
import Testwright.Json.Writer
import Testwright.Proofs.Text.Cutting

/-!
# Written strings and numbers are read back

What follows the quotation mark of a written string is read as the string (`stringBody?_quoted`), and a
written integer of 64 bits as the integer (`numberAt?_toString`). What is read as a number does not depend on
what stands behind, unless it goes on there (`numberAt?_append`).
-/

namespace Testwright.Json

open Text (Past takeWhile_run dropWhile_run)

variable {s r rest : List Char} {fuel : Nat} {v : Json}

/-! ## Strings -/

/-- A character is written as itself or as an escape sequence that stands for it. -/
theorem escape_cases (c : Char) :
    (escape c = [c] ∧ c ≠ '"' ∧ c ≠ '\\' ∧ ¬c.toNat < 0x20) ∨
      ∃ sequence, escape c = '\\' :: sequence ∧ ∀ r, escape? (sequence ++ r) = some (c, r) := by
  by_cases hcontrol : c.toNat < 0x20
  · right
    have hc : c = Char.ofNat c.toNat := (Char.ofNat_toNat c).symm
    generalize c.toNat = n at hcontrol hc
    subst hc
    interval_cases n <;> exact ⟨_, rfl, fun r => rfl⟩
  by_cases hquote : c = '"'
  · subst hquote
    exact .inr ⟨_, rfl, fun r => rfl⟩
  by_cases hback : c = '\\'
  · subst hback
    exact .inr ⟨_, rfl, fun r => rfl⟩
  · have hplain {d : Char} (hd : d.toNat < 0x20) : c ≠ d := fun h => hcontrol (h ▸ hd)
    refine .inl ⟨?_, hquote, hback, hcontrol⟩
    rw [escape, if_neg hquote, if_neg hback, if_neg (hplain (by decide)), if_neg (hplain (by decide)),
      if_neg (hplain (by decide)), if_neg (hplain (by decide)), if_neg (hplain (by decide)),
      if_neg hcontrol]

theorem stringBody?_escape {text done : List Char} (hfuel : (text.flatMap escape).length < fuel) :
    stringBody? done fuel (text.flatMap escape ++ '"' :: rest) =
      some (.ofList (done.reverse ++ text), rest) := by
  induction text generalizing done fuel with
  | nil =>
    obtain ⟨fuel, rfl⟩ := Nat.exists_eq_add_one_of_ne_zero (Nat.ne_zero_of_lt hfuel)
    rw [List.flatMap_nil, List.nil_append, stringBody?, List.append_nil]
  | cons c text ih =>
    obtain ⟨fuel, rfl⟩ := Nat.exists_eq_add_one_of_ne_zero (Nat.ne_zero_of_lt hfuel)
    have hstep (h : (text.flatMap escape).length < fuel) :
        stringBody? (c :: done) fuel (text.flatMap escape ++ '"' :: rest) =
          some (.ofList (done.reverse ++ c :: text), rest) := by
      rw [ih h, List.reverse_cons, List.append_assoc, List.singleton_append]
    rw [List.flatMap_cons, List.length_append] at hfuel
    rw [List.flatMap_cons, List.append_assoc]
    rcases escape_cases c with ⟨hself, hquote, hback, hcontrol⟩ | ⟨sequence, hself, hread⟩
    · rw [hself, List.length_singleton] at hfuel
      rw [hself, List.singleton_append, stringBody?, if_neg hcontrol, hstep (by omega)]
      · rintro rfl
        exact hquote rfl
      · rintro rfl
        exact hback rfl
    · rw [hself, List.length_cons] at hfuel
      rw [hself, List.cons_append, stringBody?, hread]
      exact hstep (by omega)

theorem toList_quoted (text : String) :
    (quoted text).toList = '"' :: (text.toList.flatMap escape ++ ['"']) := by
  rw [quoted, String.toList_ofList, List.cons_append]

/-- What follows the quotation mark of a written string is read up to its end. -/
theorem stringBody?_quoted (text : String) (rest : List Char) :
    stringBody? [] ((text.toList.flatMap escape ++ '"' :: rest).length + 1)
      (text.toList.flatMap escape ++ '"' :: rest) = some (text, rest) := by
  rw [stringBody?_escape (by rw [List.length_append]; omega), List.reverse_nil, List.nil_append,
    String.ofList_toList]

/-! ## Numbers -/

/-- A text does not begin with a character that would continue a number. -/
def Ends (s : List Char) : Prop := Past (fun c => c.isDigit || c == '.' || c == 'e' || c == 'E') s

theorem past_append {p : Char → Bool} (hr : Past p r) (hrest : Past p rest) : Past p (r ++ rest) := by
  cases r with
  | nil => exact hrest
  | cons c r => exact hr

theorem Ends.of_cons {c : Char} (h : Ends (c :: rest)) :
    c.isDigit = false ∧ c ≠ '.' ∧ c ≠ 'e' ∧ c ≠ 'E' := by
  have hc := h c rfl
  simp only [Bool.or_eq_false_iff, beq_eq_false_iff_ne] at hc
  exact ⟨hc.1.1.1, hc.1.1.2, hc.1.2, hc.2⟩

theorem Ends.past_digit (h : Ends rest) : Past Char.isDigit rest := by
  cases rest with
  | nil => nofun
  | cons c rest =>
    intro d hd
    cases hd
    exact h.of_cons.1

theorem digits?_eq_some_iff {ds : List Char} : digits? s = some (ds, r) ↔
    s = ds ++ r ∧ ds ≠ [] ∧ (∀ c ∈ ds, c.isDigit = true) ∧ Past Char.isDigit r := by
  rw [digits?, digits, List.span_eq_takeWhile_dropWhile]
  constructor
  · intro h
    split at h
    · cases h
    · next hne heq =>
      cases heq
      cases h
      exact ⟨(List.takeWhile_append_dropWhile).symm, hne, fun c hc => List.mem_takeWhile_imp hc,
        Text.past_dropWhile s⟩
  · rintro ⟨rfl, hne, hds, hr⟩
    rw [takeWhile_run hds hr, dropWhile_run hds hr]
    cases ds with
    | nil => exact absurd rfl hne
    | cons c ds => rfl

theorem digits?_append {ds : List Char} (h : digits? s = some (ds, r)) (hrest : Ends rest) :
    digits? (s ++ rest) = some (ds, r ++ rest) := by
  obtain ⟨rfl, hne, hds, hr⟩ := digits?_eq_some_iff.1 h
  exact digits?_eq_some_iff.2 ⟨List.append_assoc .., hne, hds, past_append hr hrest.past_digit⟩

theorem whole?_append {ds : List Char} (h : whole? s = some (ds, r)) (hrest : Ends rest) :
    whole? (s ++ rest) = some (ds, r ++ rest) := by
  unfold whole? at h
  split at h
  · next c t =>
    rw [List.cons_append, List.cons_append, whole?]
    split at h
    · cases h
    · next hc =>
      cases h
      exact if_neg hc
  · next hzero =>
    have hdigits := digits?_append h hrest
    unfold whole?
    split
    · next c t heq =>
      -- The text is a zero alone, and the character behind it is the first of `rest`.
      cases s with
      | nil => cases h
      | cons d s =>
      obtain rfl := (List.cons.inj heq).1
      cases s with
      | cons d s => exact (hzero d s rfl).elim
      | nil =>
        cases h
        obtain rfl := (List.cons.inj heq).2
        exact if_neg (Bool.eq_false_iff.1 hrest.of_cons.1)
    · exact hdigits

theorem fraction?_append {f : Option (List Char)} (h : fraction? s = some (f, r)) (hrest : Ends rest) :
    fraction? (s ++ rest) = some (f, r ++ rest) := by
  unfold fraction? at h
  split at h
  · obtain ⟨⟨ds, r⟩, hds, heq⟩ := Option.map_eq_some_iff.1 h
    cases heq
    rw [List.cons_append, fraction?, digits?_append hds hrest, Option.map_some]
  · next hpoint =>
    cases h
    unfold fraction?
    split
    · next t heq =>
      cases s with
      | nil =>
        rw [List.nil_append] at heq
        subst heq
        exact absurd rfl hrest.of_cons.2.1
      | cons c s => exact (hpoint s (congrArg (· :: s) (List.cons.inj heq).1)).elim
    · rfl

theorem exponentSign_append (h : s ≠ []) :
    exponentSign (s ++ rest) = ((exponentSign s).1, (exponentSign s).2 ++ rest) := by
  obtain ⟨d, s, rfl⟩ := List.exists_cons_of_ne_nil h
  unfold exponentSign
  split
  · next heq =>
    cases heq
    rfl
  · next heq =>
    cases heq
    rfl
  · next hplus hminus =>
    split
    · next heq =>
      cases heq
      exact (hplus _ rfl).elim
    · next heq =>
      cases heq
      exact (hminus _ rfl).elim
    · rfl

theorem sign_append (h : s ≠ []) : sign (s ++ rest) = ((sign s).1, (sign s).2 ++ rest) := by
  obtain ⟨d, s, rfl⟩ := List.exists_cons_of_ne_nil h
  unfold sign
  split
  · next heq =>
    cases heq
    rfl
  · next hminus =>
    split
    · next heq =>
      cases heq
      exact (hminus _ rfl).elim
    · rfl

theorem exponent?_append {e : Option Int} (h : exponent? s = some (e, r)) (hrest : Ends rest) :
    exponent? (s ++ rest) = some (e, r ++ rest) := by
  cases s with
  | nil =>
    cases h
    cases rest with
    | nil => rfl
    | cons c rest => exact if_neg (not_or.2 hrest.of_cons.2.2)
  | cons c s =>
    rw [exponent?] at h
    rw [List.cons_append, exponent?]
    split at h
    · next he =>
      rw [if_pos he]
      have hne : s ≠ [] := by
        rintro rfl
        cases h
      rw [exponentSign_append hne]
      cases hsign : exponentSign s with
      | mk negative t =>
      rw [hsign] at h
      obtain ⟨⟨ds, r⟩, hds, heq⟩ := Option.map_eq_some_iff.1 h
      cases heq
      exact congrArg (Option.map _) (digits?_append hds hrest)
    · next he =>
      cases h
      exact if_neg he

/-- What is read as a number does not depend on what stands behind, unless it goes on there. -/
theorem numberAt?_append (h : numberAt? s = some (v, r)) (hrest : Ends rest) :
    numberAt? (s ++ rest) = some (v, r ++ rest) := by
  have hne : s ≠ [] := by
    rintro rfl
    cases h
  simp only [numberAt?, Option.bind_eq_bind, Option.bind_eq_some_iff, Option.map_eq_some_iff] at h ⊢
  obtain ⟨⟨ds, s⟩, hwhole, ⟨f, s⟩, hfraction, ⟨e, s⟩, hexponent, v, hvalue, heq⟩ := h
  cases heq
  rw [sign_append hne]
  exact ⟨_, whole?_append hwhole hrest, _, fraction?_append hfraction hrest, _,
    exponent?_append hexponent hrest, _, hvalue, rfl⟩

theorem extend_of_lt {ds : List Char} {n : Nat} (h : Nat.ofDigitChars 10 ds n < 0x10000000000000000) :
    extend n ds = (Nat.ofDigitChars 10 ds n, []) := by
  induction ds generalizing n with
  | nil => rfl
  | cons c ds ih =>
    rw [Nat.ofDigitChars_cons, Nat.mul_comm] at h ⊢
    have hle (m : Nat) : m ≤ Nat.ofDigitChars 10 ds m := by
      rw [Nat.ofDigitChars_eq_ofDigitChars_zero]
      exact Nat.le_add_right_of_le (Nat.le_mul_of_pos_left m (Nat.pow_pos (by decide)))
    exact (if_pos (Nat.lt_of_le_of_lt (hle _) h)).trans (ih h)

/-- No zero leads the digits of a positive number. -/
theorem eq_zero_of_head?_toDigits {n : Nat} (h : (Nat.toDigits 10 n).head? = some '0') : n = 0 := by
  induction n using Nat.strong_induction_on with
  | _ n ih =>
  rw [Nat.toDigits_eq_if (by decide)] at h
  split at h
  · exact Nat.digitChar_eq_zero.1 (Option.some.inj h)
  · rw [List.head?_append, Option.or_of_isSome (by simp [Nat.toDigits_ne_nil])] at h
    have := ih (n / 10) (by omega) h
    omega

theorem whole?_toDigits (n : Nat) : whole? (Nat.toDigits 10 n) = some (Nat.toDigits 10 n, []) := by
  have hdigits : digits? (Nat.toDigits 10 n) = some (Nat.toDigits 10 n, []) :=
    digits?_eq_some_iff.2 ⟨(List.append_nil _).symm, Nat.toDigits_ne_nil,
      fun c hc => Nat.isDigit_of_mem_toDigits (by decide) (by decide) hc, nofun⟩
  unfold whole?
  split
  · next heq =>
    obtain rfl := eq_zero_of_head?_toDigits (congrArg List.head? heq)
    cases heq
  · exact hdigits

theorem numberAt?_of_sign {negative : Bool} {n : Nat} (h : sign s = (negative, Nat.toDigits 10 n)) :
    numberAt? s = (numeral? negative (Nat.toDigits 10 n) none none).map fun v => (v, []) := by
  simp [numberAt?, h, whole?_toDigits, fraction?, exponent?]

theorem extend_toDigits {n : Nat} (h : n < 0x10000000000000000) :
    extend 0 (Nat.toDigits 10 n) = (n, []) := by
  rw [extend_of_lt] <;> rw [Nat.ofDigitChars_toDigits (by decide) (by decide)]
  exact h

theorem numberAt?_toString {i : Int} (hlow : -0x8000000000000000 ≤ i) (hhigh : i < 0x10000000000000000) :
    numberAt? (toString i).toList = some (.int i, []) := by
  rw [Int.toString_eq_repr]
  cases i with
  | ofNat n =>
    have hsign : sign (Nat.toDigits 10 n) = (false, Nat.toDigits 10 n) := by
      unfold sign
      split
      · next heq =>
        have hminus : '-' ∈ Nat.toDigits 10 n := heq ▸ List.mem_cons_self
        cases Nat.isDigit_of_mem_toDigits (by decide) (by decide) hminus
      · rfl
    rw [Int.repr, Nat.repr_eq_ofList_toDigits, String.toList_ofList, numberAt?_of_sign hsign, numeral?,
      extend_toDigits (Int.ofNat_lt.1 hhigh)]
    rfl
  | negSucc n =>
    have hn : n + 1 ≤ 0x8000000000000000 := by omega
    have hsign : sign ('-' :: Nat.toDigits 10 (n + 1)) = (true, Nat.toDigits 10 (n + 1)) := rfl
    have htext : (Int.repr (.negSucc n)).toList = '-' :: Nat.toDigits 10 (n + 1) := by
      rw [Int.repr, Nat.repr_eq_ofList_toDigits, String.toList_append]
      exact congrArg ('-' :: ·) String.toList_ofList
    rw [htext, numberAt?_of_sign hsign, numeral?, extend_toDigits (by omega)]
    simp [hn, Int.negSucc_eq]

/-- A number begins with its sign or a digit. -/
theorem numberAt?_head (h : numberAt? s = some (v, r)) :
    ∃ c t, s = c :: t ∧ (c = '-' ∨ c.isDigit = true) := by
  simp only [numberAt?, Option.bind_eq_bind, Option.bind_eq_some_iff] at h
  obtain ⟨⟨ds, t⟩, hwhole, -⟩ := h
  unfold sign at hwhole
  split at hwhole
  · next t => exact ⟨'-', t, rfl, .inl rfl⟩
  · unfold whole? at hwhole
    split at hwhole
    · next heq => exact ⟨'0', _, heq, .inr rfl⟩
    · obtain ⟨rfl, hne, hds, -⟩ := digits?_eq_some_iff.1 hwhole
      obtain ⟨c, ds, rfl⟩ := List.exists_cons_of_ne_nil hne
      exact ⟨c, ds ++ t, rfl, .inr (hds c List.mem_cons_self)⟩

end Testwright.Json
