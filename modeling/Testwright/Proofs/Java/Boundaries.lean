import Testwright.Proofs.Java.Edits
import Testwright.Proofs.Java.Widening
import Testwright.Proofs.Text.Cutting

/-!
# Where tokens begin

Between the tokens of a text there is white space only (`Scanned.covers`), and a token begins with a
character that is no blank of any kind (`Scanned.inked`). So the first visible character behind a
boundary of tokens begins one (`Scanned.token_at`), and a word that stands there with a blank behind it
is a token (`Scanned.word_at`).
-/

namespace Testwright.Java

namespace Token

variable {source s r : List Char} {c : Char} {pos fuel n : Nat} {lexeme : Lexeme} {ts : List Token}

theorem isWordContinue_of_isWordStart (h : isWordStart c = true) : isWordContinue c = true := by
  simp only [isWordStart, Bool.or_eq_true, beq_iff_eq] at h
  rcases h with (rfl | rfl) | h
  · rfl
  · rfl
  · simp only [isWordContinue, Bool.or_eq_true]
    right
    unfold Text.isIdentStart at h
    unfold Text.isIdentContinue
    split at h
    · next hlt => simp [hlt, Char.isAlphanum, h]
    · next hlt => simp [hlt, h]

/-- A word reaches as far as its characters do. -/
theorem scan?_of_isWordStart (h : isWordStart c = true) :
    scan? (c :: r) = some (.word, ((c :: r).takeWhile isWordContinue).length) := by
  have ne {d : Char} (hd : isWordStart d = false) : c ≠ d := by
    rintro rfl
    rw [hd] at h
    cases h
  have hslash : c ≠ '/' := ne (by decide)
  have hquote : c ≠ '"' := ne (by decide)
  have happ : c ≠ '\'' := ne (by decide)
  have hat : c ≠ '@' := ne (by decide)
  unfold scan?
  split
  · next heq => exact absurd (List.cons.inj heq).1 hslash
  · next heq => exact absurd (List.cons.inj heq).1 hslash
  · next heq => exact absurd (List.cons.inj heq).1 hquote
  · next heq => exact absurd (List.cons.inj heq).1 hquote
  · next heq => exact absurd (List.cons.inj heq).1 happ
  · next heq => exact absurd (List.cons.inj heq).1 hat
  · next heq =>
    cases heq
    rw [if_pos h]
  · next heq => cases heq

theorem symbolLength?_of_not_ascii (h : 128 ≤ c.toNat) : symbolLength? (c :: r) = none := by
  have long_ascii : ∀ symbol ∈ longSymbols, symbol.head?.all (·.toNat < 128) = true := by
    decide
  have short_ascii : shortSymbols.all (·.toNat < 128) = true := by decide
  unfold symbolLength?
  split
  · next symbol hfind =>
    have hprefix := List.find?_some hfind
    obtain ⟨t, ht⟩ := List.isPrefixOf_iff_prefix.1 hprefix
    have hmem := List.mem_of_find?_eq_some hfind
    cases symbol with
    | nil => exact absurd hmem (by decide)
    | cons d symbol =>
      have hd : d.toNat < 128 := by simpa using long_ascii _ hmem
      rw [(List.cons.inj ht).1] at hd
      omega
  · have hshort : c ∉ shortSymbols := by
      intro hmem
      have hc : c.toNat < 128 := by simpa using List.all_eq_true.1 short_ascii c hmem
      omega
    exact if_neg hshort

theorem digitsLength_eq_zero {p : Char → Bool} (h : p c = false) : digitsLength p (c :: r) = 0 := by
  rw [digitsLength, digitRun, h, if_neg Bool.false_ne_true, if_neg fun hand => absurd hand.2 (Nat.lt_irrefl 0)]

theorem longest_of_not_ascii (h : 128 ≤ c.toNat) : longest (numberForms (c :: r)) = none := by
  have ne {d : Char} (hd : d.toNat < 128) : c ≠ d := by
    rintro rfl
    omega
  have hdigit : c.isDigit = false := by
    rw [Bool.eq_false_iff]
    intro hdigit
    simp only [Char.isDigit, Bool.and_eq_true, decide_eq_true_eq] at hdigit
    have hle : c.toNat ≤ '9'.toNat := hdigit.2
    have : '9'.toNat = 57 := rfl
    omega
  have hzero : c ≠ '0' := ne (by decide)
  have hpoint : c ≠ '.' := ne (by decide)
  have hforms : numberForms (c :: r) = [(.decimalInteger, integerLength Char.isDigit (c :: r) 0),
      (.decimalFloat, decimalFloatLength (c :: r))] := by
    unfold numberForms
    split
    · next heq => exact absurd (List.cons.inj heq).1 hzero
    · rfl
  have hinteger : integerLength Char.isDigit (c :: r) 0 = 0 := by
    rw [integerLength, List.drop_zero, digitsLength_eq_zero hdigit]
    rfl
  have hfloat : decimalFloatLength (c :: r) = 0 := by
    unfold decimalFloatLength
    simp only [digitsLength_eq_zero hdigit, List.drop_zero]
    split
    · next heq => exact absurd (List.cons.inj heq).1 hpoint
    · rfl
  rw [hforms, hinteger, hfloat]
  rfl

/-- Only words begin with a character that is not in ASCII. -/
theorem first_of_scan? (h : scan? (c :: r) = some (lexeme, n)) :
    isWordStart c = true ∨ c.toNat < 128 := by
  refine Decidable.or_iff_not_imp_left.2 fun hword => Nat.lt_of_not_le fun hc => ?_
  have ne {d : Char} (hd : d.toNat < 128) : c ≠ d := by
    rintro rfl
    omega
  unfold scan? at h
  split at h
  · next heq => exact ne (by decide) (List.cons.inj heq).1
  · next heq => exact ne (by decide) (List.cons.inj heq).1
  · next heq => exact ne (by decide) (List.cons.inj heq).1
  · next heq => exact ne (by decide) (List.cons.inj heq).1
  · next heq => exact ne (by decide) (List.cons.inj heq).1
  · next heq => exact ne (by decide) (List.cons.inj heq).1
  · next heq =>
    cases heq
    rw [if_neg hword, longest_of_not_ascii hc, symbolLength?_of_not_ascii hc] at h
    cases h
  · next heq => cases heq

/-! ## Texts and their tokens -/

/-- Each token is what the scanner finds at its place. -/
theorem tokensFrom?_scan (h : tokensFrom? pos s fuel = some ts) (hs : source.drop pos = s) :
    ∀ t ∈ ts, scan? (source.drop t.start) = some (t.lexeme, t.stop - t.start) ∧
      t.text = .ofList (Tree.slice source t.start t.stop) := by
  induction fuel generalizing pos s ts with
  | zero => cases h
  | succ fuel ih =>
    unfold tokensFrom? at h
    simp only at h
    split at h
    · cases h
      exact fun t ht => absurd ht List.not_mem_nil
    · next c r hdrop =>
      split at h
      · cases h
      · next lexeme n hscan =>
        obtain ⟨rest, hrest, rfl⟩ := Option.map_eq_some_iff.1 h
        have hplace : source.drop (pos + (s.takeWhile isSpace).length) = c :: r := by
          rw [← List.drop_drop, hs, hdrop]
        refine List.forall_mem_cons.2 ⟨⟨?_, ?_⟩, ih hrest ?_⟩
        · rw [hplace, Nat.add_sub_cancel_left]
          exact hscan
        · rw [Tree.slice, hplace, Nat.add_sub_cancel_left]
        · rw [← List.drop_drop, hplace]

/-- Every character is white space or lies in a token. -/
theorem tokensFrom?_covers (h : tokensFrom? pos s fuel = some ts) (hs : source.drop pos = s) {i : Nat}
    (hpos : pos ≤ i) (hc : source[i]? = some c) (hsolid : Solid c) :
    ∃ t ∈ ts, t.start ≤ i ∧ i < t.stop := by
  induction fuel generalizing pos s ts with
  | zero => cases h
  | succ fuel ih =>
    unfold tokensFrom? at h
    simp only at h
    have hspace : pos + (s.takeWhile isSpace).length ≤ i := by
      refine Nat.le_of_not_lt fun hlt => ?_
      have hlt' : i - pos < (s.takeWhile isSpace).length := by omega
      obtain ⟨d, hd, hspace⟩ := Prune.getElem?_of_lt_takeWhile hlt'
      rw [← hs, List.getElem?_drop, Nat.add_sub_cancel' hpos, hc] at hd
      cases hd
      rw [hsolid] at hspace
      cases hspace
    split at h
    · next hnil =>
      have hlength := List.drop_eq_nil_iff.1 hnil
      have hlt := (List.getElem?_eq_some_iff.1 hc).1
      rw [← hs, List.length_drop] at hlength
      rw [← hs] at hspace
      omega
    · next d r hdrop =>
      split at h
      · cases h
      · next lexeme n hscan =>
        obtain ⟨rest, hrest, rfl⟩ := Option.map_eq_some_iff.1 h
        have hplace : source.drop (pos + (s.takeWhile isSpace).length) = d :: r := by
          rw [← List.drop_drop, hs, hdrop]
        by_cases hlt : i < pos + (s.takeWhile isSpace).length + n
        · exact ⟨_, List.mem_cons_self, hspace, hlt⟩
        · obtain ⟨t, ht, hi⟩ := ih hrest (by rw [← List.drop_drop, hplace]) (Nat.le_of_not_lt hlt)
          exact ⟨t, List.mem_cons_of_mem _ ht, hi⟩

/-- A word is the run of word characters at its place. -/
theorem word_of_scan? (h : scan? (c :: r) = some (.word, n)) :
    n = ((c :: r).takeWhile isWordContinue).length := by
  cases hc : isWordStart c with
  | true =>
    rw [scan?_of_isWordStart hc] at h
    cases h
    rfl
  | false =>
    unfold scan? at h
    split at h
    · cases h
    · cases hfound : blockCommentLength? 2 _ <;> rw [hfound] at h <;> cases h
    · cases hfound : textBlockLength? 3 _ <;> rw [hfound] at h <;> cases h
    · cases hfound : stringLength? 0 1 _ <;> rw [hfound] at h <;> cases h
    · cases hfound : characterLength? 1 _ <;> rw [hfound] at h <;> cases h
    · split at h <;> cases h
    · next heq =>
      cases heq
      rw [hc, if_neg Bool.false_ne_true] at h
      split at h
      · cases h
      · cases hfound : symbolLength? (c :: r) <;> rw [hfound] at h <;> cases h
    · cases h

end Token

open Token

/-! ## Blanks -/

/-- There are only blanks between two positions. -/
structure Bare (source : List Char) (j q : Nat) : Prop where
  le : j ≤ q
  blank : ∀ k c, j ≤ k → k < q → source[k]? = some c → Text.isBlank c = true

namespace Bare

variable {source gap rest : List Char} {i j q : Nat}

theorem refl (source : List Char) (i : Nat) : Bare source i i :=
  ⟨Nat.le_refl i, fun _ _ hle hlt => absurd hlt (Nat.not_lt_of_le hle)⟩

theorem mono (h : Bare source j q) (hji : j ≤ i) (hiq : i ≤ q) : Bare source i q :=
  ⟨hiq, fun k c hk => h.blank k c (Nat.le_trans hji hk)⟩

theorem of_drop (hgap : ∀ c ∈ gap, Text.isBlank c = true) (hdrop : source.drop j = gap ++ rest) :
    Bare source j (j + gap.length) := by
  refine ⟨Nat.le_add_right j _, fun k c hk hlt hc => hgap c ?_⟩
  rw [← Nat.add_sub_cancel' hk, ← List.getElem?_drop, hdrop,
    List.getElem?_append_left (by omega)] at hc
  exact List.mem_of_getElem? hc

theorem slice (h : Bare source j q) : ∀ c ∈ Tree.slice source j q, Text.isBlank c = true := by
  intro c hc
  obtain ⟨n, hn⟩ := List.getElem?_of_mem hc
  have hlt : n < q - j := by
    have hlength := (List.getElem?_eq_some_iff.1 hn).1
    rw [Tree.slice, List.length_take] at hlength
    omega
  rw [Tree.slice, List.getElem?_take_of_lt hlt, List.getElem?_drop] at hn
  exact h.blank (j + n) c (Nat.le_add_right j n) (by omega) hn

theorem trimStart (h : Bare source j q) (hpast : Text.Past Text.isBlank (source.drop q)) :
    Text.trimStart (source.drop j) = source.drop q := by
  rw [Text.trimStart, ← Edit.slice_append_drop h.le]
  exact Text.dropWhile_run h.slice hpast

end Bare

/-- The first visible character behind a position. -/
theorem exists_bare (source : List Char) (j : Nat) :
    ∃ q, Bare source j q ∧ source.drop q = Text.trimStart (source.drop j) := by
  refine ⟨j + ((source.drop j).takeWhile Text.isBlank).length, ?_, ?_⟩
  · exact .of_drop (List.all_eq_true.1 List.all_takeWhile) List.takeWhile_append_dropWhile.symm
  · rw [← List.drop_drop, drop_length_takeWhile, Text.trimStart]

/-! ## Tokens and their places -/

/-- What a text and its tokens have to do with each other. -/
structure Scanned (source : List Char) (ts : List Token) : Prop where
  placed : Placed source ts
  scan : ∀ t ∈ ts, scan? (source.drop t.start) = some (t.lexeme, t.stop - t.start)
  text : ∀ t ∈ ts, t.text = .ofList (Tree.slice source t.start t.stop)
  covers : ∀ i c, source[i]? = some c → Solid c → c ≠ '\uFEFF' → ∃ t ∈ ts, t.start ≤ i ∧ i < t.stop

theorem tokens?_scanned {source : List Char} {ts : List Token} (h : tokens? source = some ts) :
    Scanned source ts := by
  have hplaced := tokens?_placed h
  unfold tokens? at h
  split at h
  · next r =>
    have hbehind : ('\uFEFF' :: r).drop 1 = r := rfl
    have hscan := tokensFrom?_scan h hbehind
    refine ⟨hplaced, fun t ht => (hscan t ht).1, fun t ht => (hscan t ht).2, fun i c hc hsolid hmark => ?_⟩
    cases i with
    | zero => exact absurd (Option.some.inj hc).symm hmark
    | succ i => exact tokensFrom?_covers h hbehind (Nat.le_add_left 1 i) hc hsolid
  · have hscan := tokensFrom?_scan h List.drop_zero
    refine ⟨hplaced, fun t ht => (hscan t ht).1, fun t ht => (hscan t ht).2, fun i c hc hsolid _ => ?_⟩
    exact tokensFrom?_covers h List.drop_zero (Nat.zero_le i) hc hsolid

namespace Scanned

variable {source : List Char} {ts : List Token} {t u : Token} {c : Char}

theorem nonempty (h : Scanned source ts) (ht : t ∈ ts) : t.start < t.stop :=
  (h.placed.firm t ht).nonempty

/-- Two tokens that overlap are one. -/
theorem eq_of_overlap (h : Scanned source ts) (ht : t ∈ ts) (hu : u ∈ ts) (hlt : t.start < u.stop)
    (hlt' : u.start < t.stop) : t = u := by
  refine Decidable.byContradiction fun hne => ?_
  rcases related_of_pairwise h.placed.ordered ht hu hne with hbefore | hbefore
  · omega
  · omega

theorem exists_first (h : Scanned source ts) (ht : t ∈ ts) :
    ∃ c r, source.drop t.start = c :: r ∧ source[t.start]? = some c ∧ Solid c := by
  obtain ⟨c, hc, hsolid⟩ := (h.placed.firm t ht).first
  obtain ⟨hlt, hget⟩ := List.getElem?_eq_some_iff.1 hc
  exact ⟨c, _, by rw [List.drop_eq_getElem_cons hlt, hget], hc, hsolid⟩

/-- A token begins with a visible character. -/
theorem inked (h : Scanned source ts) (ht : t ∈ ts) : ∃ c, source[t.start]? = some c ∧ Inked c := by
  obtain ⟨c, r, hdrop, hc, hsolid⟩ := h.exists_first ht
  refine ⟨c, hc, ?_⟩
  have hscan := h.scan t ht
  rw [hdrop] at hscan
  rcases first_of_scan? hscan with hword | hascii
  · exact inked_of_isWordContinue (isWordContinue_of_isWordStart hword)
  · refine Bool.eq_false_iff.2 fun hblank => ?_
    -- the blanks of ASCII are the white space between tokens
    have hall : (blanks.all fun n => !(n < 128) || isSpace (Char.ofNat n)) = true := by decide
    have hspace := List.all_eq_true.1 hall _ (mem_blanks hblank)
    rw [Char.ofNat_toNat, decide_eq_true hascii, show isSpace c = false from hsolid] at hspace
    cases hspace

/-- No token begins among blanks. -/
theorem not_bare (h : Scanned source ts) (ht : t ∈ ts) {j q : Nat} (hle : j ≤ t.start)
    (hlt : t.start < q) : ¬Bare source j q := by
  intro hbare
  obtain ⟨c, hc, hinked⟩ := h.inked ht
  have hblank := hbare.blank t.start c hle hlt hc
  rw [show Text.isBlank c = false from hinked] at hblank
  cases hblank

/-- A word behind a place that lies in no token, with blanks in front of it, begins one. -/
theorem token_at (h : Scanned source ts) {j q : Nat} (hj : ∀ t ∈ ts, ¬(t.start < j ∧ j < t.stop))
    (hbare : Bare source j q) (hfirst : ∃ c ∈ (source.drop q).head?, isWordStart c = true) :
    ∃ t ∈ ts, t.start = q := by
  obtain ⟨c, hc, hword⟩ := hfirst
  rw [Option.mem_def, List.head?_drop] at hc
  have hsolid := (inked_of_isWordContinue (isWordContinue_of_isWordStart hword)).solid
  have hmark : c ≠ '\uFEFF' := by
    rintro rfl
    exact absurd hword (by decide +kernel)
  obtain ⟨t, ht, hstart, hstop⟩ := h.covers q c hc hsolid hmark
  refine ⟨t, ht, Nat.le_antisymm hstart (Nat.le_of_not_lt fun hlt => ?_)⟩
  rcases Nat.lt_or_ge t.start j with hbefore | hafter
  · exact hj t ht ⟨hbefore, Nat.lt_of_le_of_lt hbare.le hstop⟩
  · exact h.not_bare ht hafter hlt hbare

/-- A token that begins with a whole word is that word. -/
theorem word_at (h : Scanned source ts) (ht : t ∈ ts) {word r : List Char}
    (hdrop : source.drop t.start = word ++ r) (hfirst : ∃ c ∈ word.head?, isWordStart c = true)
    (hword : ∀ c ∈ word, isWordContinue c = true) (hr : Text.Past isWordContinue r) :
    t.stop = t.start + word.length ∧ t.text = .ofList word := by
  have hscan := h.scan t ht
  have hnonempty := h.nonempty ht
  obtain ⟨c, hc, hstart⟩ := hfirst
  cases word with
  | nil => cases hc
  | cons d word =>
    cases hc
    rw [hdrop, List.cons_append, scan?_of_isWordStart hstart, ← List.cons_append,
      Text.takeWhile_run hword hr] at hscan
    have hlength : (c :: word).length = t.stop - t.start := congrArg Prod.snd (Option.some.inj hscan)
    refine ⟨by omega, ?_⟩
    rw [h.text t ht, Tree.slice, hdrop, ← hlength, List.take_left]

/-- Behind a word stands white space or a character of ASCII that is not one of words. -/
theorem behind_word (h : Scanned source ts) (ht : t ∈ ts) (hword : t.lexeme = .word)
    (hc : source[t.stop]? = some c) :
    isWordContinue c = false ∧ (isSpace c = true ∨ c = '\uFEFF' ∨ c.toNat < 128) := by
  have hnonempty := h.nonempty ht
  obtain ⟨d, r, hdrop, -⟩ := h.exists_first ht
  have hscan := h.scan t ht
  rw [hdrop, hword] at hscan
  have hlength := word_of_scan? hscan
  have hout : isWordContinue c = false := by
    have hget : (d :: r)[t.stop - t.start]? = some c := by
      rw [← hdrop, List.getElem?_drop, Nat.add_sub_cancel' (Nat.le_of_lt hnonempty)]
      exact hc
    have hpast := Text.past_dropWhile (p := isWordContinue) (d :: r)
    apply hpast
    rw [Option.mem_def, ← drop_length_takeWhile, ← hlength, List.head?_drop]
    exact hget
  refine ⟨hout, ?_⟩
  refine Decidable.or_iff_not_imp_left.2 fun hspace => Decidable.or_iff_not_imp_left.2 fun hmark => ?_
  obtain ⟨u, hu, hstart, hstop⟩ := h.covers t.stop c hc (Bool.eq_false_iff.2 hspace) hmark
  have hu_start : u.start = t.stop := by
    refine Nat.le_antisymm hstart (Nat.le_of_not_lt fun hlt => ?_)
    have heq := h.eq_of_overlap ht hu (by omega) hlt
    rw [heq] at hstop
    exact absurd hstop (Nat.lt_irrefl _)
  obtain ⟨e, r', hdrop', he, -⟩ := h.exists_first hu
  rw [hu_start, hc] at he
  cases he
  have hscan' := h.scan u hu
  rw [hdrop'] at hscan'
  refine (first_of_scan? hscan').resolve_left fun hfirst => ?_
  rw [isWordContinue_of_isWordStart hfirst] at hout
  cases hout

end Scanned

end Testwright.Java
