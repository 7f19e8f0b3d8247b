import Mathlib.Algebra.Ring.Nat
import Mathlib.Data.List.TakeDrop
import Testwright.Proofs.Text.Cutting
import Testwright.Time.Timestamp

/-!
# Written points in time are read back

The written form of a valid point in time is read as that point (`parse?_text`).
-/

namespace Testwright.Timestamp

open Binary64 (padded)
open Option (bind_eq_some_iff)
open Text (Past takeWhile_run dropWhile_run)

variable {rest : List Char} {n width : Nat}

/-! ## Padded numbers -/

theorem toList_padded : (padded 10 width n).toList =
    List.replicate (width - (Nat.toDigits 10 n).length) '0' ++ Nat.toDigits 10 n :=
  String.toList_ofList

theorem isDigit_of_mem_padded {c : Char} (h : c ∈ (padded 10 width n).toList) : c.isDigit = true := by
  rw [toList_padded, List.mem_append] at h
  rcases h with h | h
  · rw [List.eq_of_mem_replicate h]
    rfl
  · exact Nat.isDigit_of_mem_toDigits (by decide) (by decide) h

theorem length_padded (hwidth : 0 < width) (hn : n < 10 ^ width) :
    (padded 10 width n).toList.length = width := by
  have hle := (Nat.length_toDigits_le_iff (by decide) hwidth).2 hn
  rw [toList_padded, List.length_append, List.length_replicate]
  omega

theorem padded_ne_nil : (padded 10 width n).toList ≠ [] := by
  rw [toList_padded]
  exact List.append_ne_nil_of_right_ne_nil _ Nat.toDigits_ne_nil

theorem digitsValue_eq (ds : List Char) : digitsValue ds = Nat.ofDigitChars 10 ds 0 := by
  simp only [digitsValue, Nat.ofDigitChars, Nat.mul_comm]

theorem digitsValue_padded : digitsValue (padded 10 width n).toList = n := by
  rw [digitsValue_eq, toList_padded, Nat.ofDigitChars_append, Nat.ofDigitChars_replicate_zero,
    Nat.mul_zero, Nat.ofDigitChars_toDigits (by decide) (by decide)]

theorem number?_padded {k : Nat} (hlength : (padded 10 width n).toList.length ≤ k)
    (hrest : Past Char.isDigit rest) :
    number? k ((padded 10 width n).toList ++ rest) = some (n, rest) := by
  rw [number?, takeWhile_run (fun c hc => isDigit_of_mem_padded hc) hrest, List.take_of_length_le hlength]
  split
  · next hnil => exact absurd hnil padded_ne_nil
  · rw [digitsValue_padded, List.drop_left]

/-! ## Parts of a point in time -/

theorem past_digit_cons {c : Char} (hc : c.isDigit = false) : Past Char.isDigit (c :: rest) := by
  intro d hd
  cases hd
  exact hc

theorem isBlank_of_isDigit {c : Char} (h : c.isDigit = true) : Text.isBlank c = false := by
  have hlow : 48 ≤ c.toNat ∧ c.toNat ≤ 57 := by
    simpa [Char.isDigit, UInt32.le_iff_toNat_le] using h
  simp only [Text.isBlank, Bool.or_eq_false_iff, Bool.and_eq_false_iff, decide_eq_false_iff_not,
    beq_eq_false_iff_ne]
  omega

theorem exists_padded_eq_cons (width n : Nat) (rest : List Char) :
    ∃ c ds, (padded 10 width n).toList ++ rest = c :: ds ∧ c.isDigit = true := by
  obtain ⟨c, ds, hds⟩ := List.exists_cons_of_ne_nil (@padded_ne_nil n width)
  exact ⟨c, ds ++ rest, by rw [hds, List.cons_append], isDigit_of_mem_padded (hds ▸ List.mem_cons_self)⟩

theorem trimStart_padded : Text.trimStart ((padded 10 width n).toList ++ rest) =
    (padded 10 width n).toList ++ rest := by
  obtain ⟨c, ds, hds, hc⟩ := exists_padded_eq_cons width n rest
  rw [hds]
  exact List.dropWhile_cons_of_neg (Bool.eq_false_iff.1 (isBlank_of_isDigit hc))

theorem spacedNumber?_padded (hn : n < 100) (hrest : Past Char.isDigit rest) :
    spacedNumber? 2 ((padded 10 2 n).toList ++ rest) = some (n, rest) := by
  rw [spacedNumber?, trimStart_padded,
    number?_padded (Nat.le_of_eq (length_padded (by decide) hn)) hrest]

theorem spacedChar?_cons {c : Char} (hc : Text.isBlank c = false) :
    spacedChar? c (c :: rest) = some rest := by
  rw [spacedChar?, Text.trimStart, List.dropWhile_cons_of_neg (Bool.eq_false_iff.1 hc),
    Text.dropPrefix?_eq_some, List.singleton_append]

theorem year?_yearText {year : Int} (hrest : Past Char.isDigit rest) :
    year? ((yearText year).toList ++ rest) = some (year, rest) := by
  -- Behind a sign any number of digits is read.
  have hlength : (padded 10 4 year.natAbs).toList.length ≤
      ((padded 10 4 year.natAbs).toList ++ rest).length := by
    rw [List.length_append]
    exact Nat.le_add_right ..
  have hsigned := number?_padded hlength hrest
  rw [yearText]
  split
  · next hplain =>
    have hlength : (padded 10 4 year.toNat).toList.length ≤ 4 :=
      Nat.le_of_eq (length_padded (by decide) (by omega))
    rw [year?, trimStart_padded]
    split
    · next heq =>
      obtain ⟨c, ds, hds, hc⟩ := exists_padded_eq_cons 4 year.toNat rest
      cases hds.symm.trans heq
      cases hc
    · next heq =>
      obtain ⟨c, ds, hds, hc⟩ := exists_padded_eq_cons 4 year.toNat rest
      cases hds.symm.trans heq
      cases hc
    · rw [number?_padded hlength hrest, Option.map_some]
      simp only [Int.toNat_of_nonneg hplain.1]
  · next hplain =>
    rw [String.toList_append, List.append_assoc]
    split
    · next hneg =>
      have hsign : "-".toList = ['-'] := rfl
      rw [hsign, List.singleton_append]
      have hopen : Text.trimStart ('-' :: ((padded 10 4 year.natAbs).toList ++ rest)) =
          '-' :: ((padded 10 4 year.natAbs).toList ++ rest) := rfl
      rw [year?, hopen]
      simp only [hsigned, Option.map_some, Int.ofNat_natAbs_of_nonpos (Int.le_of_lt hneg), Int.neg_neg]
    · next hneg =>
      have hsign : "+".toList = ['+'] := rfl
      rw [hsign, List.singleton_append]
      have hopen : Text.trimStart ('+' :: ((padded 10 4 year.natAbs).toList ++ rest)) =
          '+' :: ((padded 10 4 year.natAbs).toList ++ rest) := rfl
      rw [year?, hopen]
      simp only [hsigned, Option.map_some, Int.natAbs_of_nonneg (Int.not_lt.1 hneg)]

/-- Of the nine digits of the nanoseconds the trailing zeros may be left out. -/
theorem fraction?_padded {places nanos : Nat} (hpos : 0 < places) (hplaces : places ≤ 9)
    (hn : n < 10 ^ places) (h : n * 10 ^ (9 - places) = nanos) :
    fraction? (("." ++ padded 10 places n).toList ++ ['Z']) = some (nanos, ['Z']) := by
  have hlength : (padded 10 places n).toList.length = places := length_padded hpos hn
  have htext : ("." ++ padded 10 places n).toList ++ ['Z'] =
      '.' :: ((padded 10 places n).toList ++ ['Z']) := by
    rw [String.toList_append]
    rfl
  rw [htext, fraction?, takeWhile_run (fun c hc => isDigit_of_mem_padded hc) (past_digit_cons rfl)]
  split
  · next hnil => exact absurd hnil padded_ne_nil
  · rw [List.take_of_length_le (hlength.trans_le hplaces), List.drop_left]
    change some (digitsValue _ * 10 ^ (9 - (padded 10 places n).toList.length), _) = _
    rw [digitsValue_padded, hlength, h]

theorem fraction?_fractionText {nanos : Nat} (h : nanos < 1000000000) :
    fraction? ((fractionText nanos).toList ++ ['Z']) = some (nanos, ['Z']) := by
  rw [fractionText]
  split
  · next hzero =>
    rw [hzero]
    rfl
  · split
    · next hmillis =>
      exact fraction?_padded (by decide) (by decide) (by omega)
        (Nat.div_mul_cancel (Nat.dvd_of_mod_eq_zero hmillis))
    · split
      · next hmicros =>
        exact fraction?_padded (by decide) (by decide) (by omega)
          (Nat.div_mul_cancel (Nat.dvd_of_mod_eq_zero hmicros))
      · exact fraction?_padded (by decide) (by decide) h (Nat.mul_one nanos)

theorem toList_text (t : Timestamp) : t.text.toList =
    (yearText t.year).toList ++ '-' :: ((padded 10 2 t.month).toList ++
      '-' :: ((padded 10 2 t.day).toList ++ 'T' :: ((padded 10 2 t.hour).toList ++
        ':' :: ((padded 10 2 t.minute).toList ++ ':' :: ((padded 10 2 t.second).toList ++
          ((fractionText t.nanos).toList ++ ['Z'])))))) := by
  have hdash : "-".toList = ['-'] := rfl
  have hT : "T".toList = ['T'] := rfl
  have hcolon : ":".toList = [':'] := rfl
  have hZ : "Z".toList = ['Z'] := rfl
  simp only [text, String.toList_append, List.append_assoc, hdash, hT, hcolon, hZ, List.cons_append,
    List.nil_append]

theorem past_digit_fractionText (nanos : Nat) :
    Past Char.isDigit ((fractionText nanos).toList ++ ['Z']) := by
  rw [fractionText]
  split_ifs
  · exact past_digit_cons rfl
  all_goals
    rw [String.toList_append]
    exact past_digit_cons rfl

/-- The written form of a valid point in time is read as that point. -/
theorem parse?_text {t : Timestamp} (h : t.isValid = true) : parse? t.text = some t := by
  have hvalid := h
  simp only [isValid, Bool.and_eq_true, decide_eq_true_eq] at h
  obtain ⟨⟨⟨⟨⟨⟨⟨⟨⟨-, -⟩, -⟩, hmonth⟩, -⟩, hday⟩, hhour⟩, hminute⟩, hsecond⟩, hnanos⟩ := h
  have hdays : daysIn t.year t.month ≤ 31 := by
    unfold daysIn
    split_ifs <;> decide
  have hdash {r : List Char} : Past Char.isDigit ('-' :: r) := past_digit_cons rfl
  have hcolon {r : List Char} : Past Char.isDigit (':' :: r) := past_digit_cons rfl
  have hT {r : List Char} : Past Char.isDigit ('T' :: r) := past_digit_cons rfl
  rw [parse?, toList_text]
  refine bind_eq_some_iff.2 ⟨(_, _), year?_yearText hdash, ?_⟩
  refine bind_eq_some_iff.2 ⟨_, spacedChar?_cons rfl, ?_⟩
  refine bind_eq_some_iff.2 ⟨(_, _), spacedNumber?_padded (by omega) hdash, ?_⟩
  refine bind_eq_some_iff.2 ⟨_, spacedChar?_cons rfl, ?_⟩
  refine bind_eq_some_iff.2 ⟨(_, _), spacedNumber?_padded (by omega) hT, ?_⟩
  refine (if_pos (.inl rfl)).trans (bind_eq_some_iff.2 ⟨_, rfl, ?_⟩)
  refine bind_eq_some_iff.2 ⟨(_, _), spacedNumber?_padded (by omega) hcolon, ?_⟩
  refine bind_eq_some_iff.2 ⟨_, spacedChar?_cons rfl, ?_⟩
  refine bind_eq_some_iff.2 ⟨(_, _), spacedNumber?_padded (by omega) hcolon, ?_⟩
  refine bind_eq_some_iff.2 ⟨_, spacedChar?_cons rfl, ?_⟩
  refine bind_eq_some_iff.2 ⟨(_, _), spacedNumber?_padded (by omega) (past_digit_fractionText t.nanos), ?_⟩
  refine bind_eq_some_iff.2 ⟨(_, _), fraction?_fractionText hnanos, ?_⟩
  refine bind_eq_some_iff.2 ⟨(0, []), rfl, ?_⟩
  refine if_pos ?_
  rw [Bool.and_eq_true, Bool.and_eq_true]
  exact ⟨⟨rfl, hvalid⟩, rfl⟩

end Testwright.Timestamp
