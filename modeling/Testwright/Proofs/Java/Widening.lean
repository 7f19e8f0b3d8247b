import Testwright.Java.Prune
import Testwright.Proofs.Java.Lexing

/-!
# Widening to whole lines

`lineSpan` widens a range by blanks only, those behind it up to the end of the line
(`around_lineSpan`). So parts of a text that do not overlap do not overlap when they are widened
either (`Around.apart`), as far as they begin and end like tokens.
-/

namespace Testwright.Java.Prune

variable {source : List Char}

/-- A part of a text is widened only by blanks next to it, those behind up to the end of the line. -/
structure Around (source : List Char) (start stop start' stop' : Nat) : Prop where
  nonempty : start' < stop'
  inside : stop' ≤ source.length
  front : ∀ i, start' ≤ i → i < start → source[i]? = some ' ' ∨ source[i]? = some '\t'
  rear : ∀ i, stop ≤ i → i < stop' → ∃ c, source[i]? = some c ∧ Token.isSpace c = true
  lineEnd : stop < stop' → stop' = source.length ∨ source[stop' - 1]? = some '\n'

/-- A part of a part is widened by nothing. -/
theorem Around.of_le {start stop start' stop' : Nat} (hstart : start ≤ start')
    (hlt : start' < stop') (hstop : stop' ≤ stop) (hinside : stop' ≤ source.length) :
    Around source start stop start' stop' :=
  ⟨hlt, hinside, fun _ _ _ => by omega, fun _ _ _ => by omega, fun _ => by omega⟩

theorem getElem?_of_lt_takeWhile {p : Char → Bool} {s : List Char} {i : Nat}
    (h : i < (s.takeWhile p).length) : ∃ c, s[i]? = some c ∧ p c = true := by
  have hprefix : s.takeWhile p <+: s := List.takeWhile_prefix p
  exact ⟨(s.takeWhile p)[i], List.prefix_iff_getElem?.1 hprefix i h,
    List.all_eq_true.1 List.all_takeWhile _ (List.getElem_mem h)⟩

theorem front_of_takeWhile {start i : Nat} (hstart : start ≤ source.length) (hi : i < start)
    (h : start - ((source.take start).reverse.takeWhile fun c => c == ' ' || c == '\t').length ≤ i) :
    source[i]? = some ' ' ∨ source[i]? = some '\t' := by
  have hlt : start - 1 - i <
      ((source.take start).reverse.takeWhile fun c => c == ' ' || c == '\t').length := by omega
  obtain ⟨c, hc, hblank⟩ := getElem?_of_lt_takeWhile hlt
  rw [List.getElem?_reverse (by rw [List.length_take]; omega), List.length_take,
    Nat.min_eq_left hstart, show start - 1 - (start - 1 - i) = i by omega,
    List.getElem?_take_of_lt hi] at hc
  rw [hc]
  simpa using hblank

theorem rear_of_takeWhile {stop i : Nat} (hi : stop ≤ i)
    (h : i < stop + ((source.drop stop).takeWhile fun c => c == ' ' || c == '\t' || c == '\r').length) :
    ∃ c, source[i]? = some c ∧ Token.isSpace c = true := by
  have hlt : i - stop <
      ((source.drop stop).takeWhile fun c => c == ' ' || c == '\t' || c == '\r').length := by omega
  obtain ⟨c, hc, hblank⟩ := getElem?_of_lt_takeWhile hlt
  rw [List.getElem?_drop, Nat.add_sub_cancel' hi] at hc
  refine ⟨c, hc, ?_⟩
  simp only [Bool.or_eq_true, beq_iff_eq] at hblank
  rcases hblank with (rfl | rfl) | rfl <;> rfl

/-- A range is widened in front by blanks, and behind by blanks and up to the end of the text or past
the end of the line, or it is not widened at all. -/
theorem lineSpan_cases (source : List Char) (start stop : Nat) : ∃ indent trail,
    indent = ((source.take start).reverse.takeWhile fun c => c == ' ' || c == '\t').length ∧
    trail = ((source.drop stop).takeWhile fun c => c == ' ' || c == '\t' || c == '\r').length ∧
    (lineSpan source start stop = (start, stop) ∨
      source.drop (stop + trail) = [] ∧
        lineSpan source start stop = (start - indent, stop + trail) ∨
      (source.drop (stop + trail)).head? = some '\n' ∧
        lineSpan source start stop = (start - indent, stop + trail + 1)) := by
  refine ⟨_, _, rfl, rfl, ?_⟩
  rw [← List.drop_drop]
  unfold lineSpan
  dsimp only
  split
  · next hrest =>
    rw [hrest]
    split <;> split
    all_goals first
      | exact .inl rfl
      | exact .inr (.inl ⟨rfl, rfl⟩)
  · next c r hrest =>
    rw [hrest]
    split <;> split
    all_goals first
      | exact .inl rfl
      | next hline => exact .inr (.inr ⟨by simp_all, rfl⟩)

theorem around_lineSpan {start stop : Nat} (hlt : start < stop) (hstop : stop ≤ source.length) :
    Around source start stop (lineSpan source start stop).1 (lineSpan source start stop).2 := by
  obtain ⟨indent, trail, hindent, htrail, hspan⟩ := lineSpan_cases source start stop
  have hfront : ∀ i, start - indent ≤ i → i < start →
      source[i]? = some ' ' ∨ source[i]? = some '\t' := fun i h hi =>
    front_of_takeWhile (by omega) hi (hindent ▸ h)
  have hrear : ∀ i, stop ≤ i → i < stop + trail →
      ∃ c, source[i]? = some c ∧ Token.isSpace c = true := fun i hi h =>
    rear_of_takeWhile hi (htrail ▸ h)
  rcases hspan with hspan | ⟨hend, hspan⟩ | ⟨hline, hspan⟩
  · rw [hspan]
    exact .of_le (Nat.le_refl _) hlt (Nat.le_refl _) hstop
  · have htrail_le := (List.takeWhile_prefix (fun c => c == ' ' || c == '\t' || c == '\r')
      (l := source.drop stop)).length_le
    rw [← htrail, List.length_drop] at htrail_le
    rw [List.drop_eq_nil_iff] at hend
    rw [hspan]
    have hlt' : start - indent < stop + trail := by omega
    have hlen : stop + trail = source.length := by omega
    exact ⟨hlt', Nat.le_of_eq hlen, hfront, hrear, fun _ => .inl hlen⟩
  · have hend : source[stop + trail]? = some '\n' := by
      rw [List.head?_eq_getElem?, List.getElem?_drop] at hline
      exact hline
    rw [hspan]
    have hlt' : start - indent < stop + trail + 1 := by omega
    refine ⟨hlt', (List.getElem?_eq_some_iff.1 hend).1, hfront, fun i hi h => ?_, fun _ => .inr hend⟩
    rcases Nat.lt_or_eq_of_le (Nat.lt_succ_iff.1 h) with h | rfl
    · exact hrear i hi h
    · exact ⟨'\n', hend, rfl⟩

namespace Around

variable {a b a' b' c d c' d' : Nat}

theorem not_solid_of_front (h : Around source a b a' b') {i : Nat} (hi : a' ≤ i) (hi' : i < a) :
    ¬∃ c, source[i]? = some c ∧ Token.Solid c := by
  rintro ⟨c, hc, hsolid⟩
  rcases h.front i hi hi' with hblank | hblank <;>
  · rw [hblank] at hc
    cases hc
    cases hsolid

theorem not_solid_of_rear (h : Around source a b a' b') {i : Nat} (hi : b ≤ i) (hi' : i < b') :
    ¬∃ c, source[i]? = some c ∧ Token.Solid c := by
  rintro ⟨c, hc, hsolid⟩
  obtain ⟨c', hc', hblank⟩ := h.rear i hi hi'
  rw [hc'] at hc
  cases hc
  cases hsolid.symm.trans hblank

/-- Widening reaches no part in front. -/
theorem le_start (h : Around source c d c' d') (hab : Firm source a b) (hcd : Firm source c d)
    (hle : b ≤ c) : b ≤ c' := by
  refine Nat.le_of_not_lt fun hlt => ?_
  have hpos := hab.nonempty
  rcases hab.last with hsolid | hend | hline
  · exact h.not_solid_of_front (by omega) (by omega) hsolid
  · have := hcd.nonempty
    have := hcd.inside
    omega
  · rcases Nat.lt_or_eq_of_le hle with hbefore | rfl
    · rcases h.front b (Nat.le_of_lt hlt) hbefore with hblank | hblank <;>
      · rw [hblank] at hline
        cases hline
    · obtain ⟨x, hx, hsolid⟩ := hcd.first
      rw [hline] at hx
      cases hx
      cases hsolid

/-- Widening reaches no part behind. -/
theorem stop_le (h : Around source a b a' b') (hcd : Firm source c d) (hle : b ≤ c) : b' ≤ c :=
  Nat.le_of_not_lt fun hlt => h.not_solid_of_rear hle hlt hcd.first

/-- Two parts that do not overlap are apart also when both are widened: only the first can take in
the end of a line, and the second takes in no more than blanks of its own line. -/
theorem apart (h : Around source a b a' b') (h' : Around source c d c' d') (hab : Firm source a b)
    (hcd : Firm source c d) (hle : b ≤ c) : b' ≤ c' := by
  refine Nat.le_of_not_lt fun hlt => ?_
  have hfront := h'.le_start hab hcd hle
  have hrear := h.stop_le hcd hle
  rcases h.lineEnd (by omega) with hend | hline
  · have := hcd.nonempty
    have := hcd.inside
    omega
  · rcases h'.front (b' - 1) (by omega) (by omega) with hblank | hblank <;>
    · rw [hblank] at hline
      cases hline

/-- Widening stays strictly inside a part that is strictly larger and ends in a solid character. -/
theorem inside_of_lt (h : Around source a b a' b') (hcd : Firm source c d)
    (hsolid : SolidBefore source d) (hstart : c < a) (hstop : b < d) : c < a' ∧ b' < d := by
  refine ⟨Nat.lt_of_not_le fun hle => h.not_solid_of_front hle hstart hcd.first, ?_⟩
  have hlt : b' ≤ d - 1 :=
    Nat.le_of_not_lt fun hlt => h.not_solid_of_rear (by omega) hlt hsolid
  omega

end Around

end Testwright.Java.Prune
