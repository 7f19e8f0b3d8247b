import Testwright.Java.Tree

/-!
# Where tokens lie

The tokens of a text follow one another within it (`tokens?_placed`). None is empty or begins with
white space, and none ends with white space either, except that a line comment may: it ends where
its line ends.

The proofs follow the scanner: each form of token is shown to end in a visible character, and
`scan?_closed` gathers the forms.
-/

namespace Testwright.Java.Token

/-! ## Matches that end in a given kind of character -/

/-- A match of `n` characters at the beginning of a text is not empty and its last character has a
property. -/
def EndsIn (q : Char → Prop) (s : List Char) (n : Nat) : Prop :=
  ∃ c, 0 < n ∧ s[n - 1]? = some c ∧ q c

section
variable {q : Char → Prop} {p : Char → Bool} {s r : List Char} {m n : Nat}

theorem EndsIn.pos (h : EndsIn q s n) : 0 < n := h.choose_spec.1

theorem EndsIn.le_length (h : EndsIn q s n) : n ≤ s.length := by
  obtain ⟨c, hn, hc, -⟩ := h
  have := (List.getElem?_eq_some_iff.1 hc).1
  omega

theorem EndsIn.of_drop (h : EndsIn q (s.drop m) n) : EndsIn q s (m + n) := by
  obtain ⟨c, hn, hc, hq⟩ := h
  rw [List.getElem?_drop] at hc
  exact ⟨c, by omega, by rwa [Nat.add_sub_assoc hn], hq⟩

theorem EndsIn.mono {q' : Char → Prop} (h : EndsIn q s n) (hq : ∀ c, q c → q' c) :
    EndsIn q' s n :=
  let ⟨c, hn, hc, h⟩ := h
  ⟨c, hn, hc, hq c h⟩

theorem EndsIn.of_getElem? {c : Char} (hc : s[n]? = some c) (hq : q c) : EndsIn q s (n + 1) :=
  ⟨c, Nat.succ_pos n, hc, hq⟩

theorem EndsIn.of_drop_eq_cons {c : Char} (h : s.drop n = c :: r) (hq : q c) :
    EndsIn q s (n + 1) := by
  refine .of_getElem? ?_ hq
  rw [← Nat.add_zero n, ← List.getElem?_drop, h]
  rfl

/-- A match may be a given text. -/
theorem EndsIn.of_front {front : List Char} (h : ∃ c ∈ front.getLast?, q c) :
    EndsIn q (front ++ s) front.length := by
  obtain ⟨c, hlast, hc⟩ := h
  have hpos : 0 < front.length := List.length_pos_of_mem (List.mem_of_getLast? hlast)
  rw [Option.mem_def, List.getLast?_eq_getElem?] at hlast
  exact ⟨c, hpos, by rwa [List.getElem?_append_left (by omega)], hc⟩

/-- The longest run of characters of a class ends in one of them. -/
theorem takeWhile_endsIn (hq : ∀ c, p c = true → q c) :
    (s.takeWhile p).length = 0 ∨ EndsIn q s (s.takeWhile p).length := by
  cases hlast : (s.takeWhile p).getLast? with
  | none => simp_all
  | some c =>
    have hc : p c = true := List.all_eq_true.1 List.all_takeWhile c (List.mem_of_getLast? hlast)
    have := EndsIn.of_front (s := s.dropWhile p) ⟨c, hlast, hq c hc⟩
    rw [List.takeWhile_append_dropWhile] at this
    exact .inr this

theorem digitRun_endsIn (hq : ∀ c, p c = true → q c) (n pending : Nat) :
    digitRun p n pending s = n ∨
      ∃ k, digitRun p n pending s = n + pending + k ∧ EndsIn q s k := by
  induction s generalizing n pending with
  | nil => exact .inl rfl
  | cons c r ih =>
    unfold digitRun
    split
    · next hc =>
      refine .inr ?_
      rcases ih (n + pending + 1) 0 with heq | ⟨k, heq, hk⟩
      · exact ⟨1, heq, .of_getElem? rfl (hq c hc)⟩
      · exact ⟨1 + k, by rw [heq]; omega, .of_drop (m := 1) hk⟩
    · split
      · rcases ih n (pending + 1) with heq | ⟨k, heq, hk⟩
        · exact .inl heq
        · exact .inr ⟨1 + k, by rw [heq]; omega, .of_drop (m := 1) hk⟩
      · exact .inl rfl

theorem digitsLength_endsIn (hq : ∀ c, p c = true → q c) :
    digitsLength p s = 0 ∨ EndsIn q s (digitsLength p s) := by
  rcases digitRun_endsIn (s := s) hq 0 0 with heq | ⟨k, heq, hk⟩
  · exact .inl heq
  · exact .inr (by simpa [digitsLength, heq] using hk)

theorem withSuffix_endsIn {set : List Char} (h : EndsIn q s n) (hq : ∀ c ∈ set, q c) :
    EndsIn q s (withSuffix set s n) := by
  unfold withSuffix
  split
  · next c r hdrop =>
    split
    · next hc => exact .of_drop_eq_cons hdrop (hq c hc)
    · exact h
  · exact h

end

/-! ## Solid and visible characters -/

/-- A character is no white space. -/
def Solid (c : Char) : Prop := isSpace c = false

instance : DecidablePred Solid := fun c => inferInstanceAs (Decidable (isSpace c = false))

/-- A character is no blank of any kind. -/
def Inked (c : Char) : Prop := Text.isBlank c = false

instance : DecidablePred Inked := fun c => inferInstanceAs (Decidable (Text.isBlank c = false))

theorem isBlank_of_isSpace {c : Char} (h : isSpace c = true) : Text.isBlank c = true := by
  simp only [isSpace, Bool.or_eq_true, Bool.and_eq_true, beq_iff_eq, decide_eq_true_eq] at h
  rcases h with rfl | h
  · rfl
  · simp [Text.isBlank, h]

theorem Inked.solid {c : Char} (h : Inked c) : Solid c :=
  Bool.eq_false_iff.2 fun hspace => Bool.noConfusion (h.symm.trans (isBlank_of_isSpace hspace))

theorem inked_of_all {l : List Char} (h : (l.all fun c => !Text.isBlank c) = true) : ∀ c ∈ l, Inked c :=
  fun c hc => by simpa [Inked] using List.all_eq_true.1 h c hc

theorem inked_of_lt {c : Char} (h : 32 < c.toNat) (h' : c.toNat < 128) : Inked c := by
  simp only [Inked, Text.isBlank, Bool.or_eq_false_iff, Bool.and_eq_false_iff, beq_eq_false_iff_ne,
    decide_eq_false_iff_not]
  omega

theorem inked_of_le (a b : Char) {c : Char} (h : a ≤ c ∧ c ≤ b) (ha : 32 < a.toNat)
    (hb : b.toNat < 128) : Inked c :=
  inked_of_lt (Nat.lt_of_lt_of_le ha h.1) (Nat.lt_of_le_of_lt h.2 hb)

theorem inked_of_isDigit {c : Char} (h : c.isDigit = true) : Inked c := by
  simp only [Char.isDigit, Bool.and_eq_true, decide_eq_true_eq] at h
  exact inked_of_le '0' '9' h (by decide) (by decide)

theorem inked_of_isHex {c : Char} (h : isHex c = true) : Inked c := by
  simp only [isHex, Bool.or_eq_true, Bool.and_eq_true, decide_eq_true_eq] at h
  rcases h with (h | h) | h
  · exact inked_of_isDigit h
  · exact inked_of_le 'a' 'f' h (by decide) (by decide)
  · exact inked_of_le 'A' 'F' h (by decide) (by decide)

theorem inked_of_isOctal {c : Char} (h : isOctal c = true) : Inked c := by
  simp only [isOctal, Bool.and_eq_true, decide_eq_true_eq] at h
  exact inked_of_le '0' '7' h (by decide) (by decide)

theorem inked_of_isBinary {c : Char} (h : isBinary c = true) : Inked c := by
  simp only [isBinary, Bool.or_eq_true, beq_iff_eq] at h
  rcases h with rfl | rfl <;> rfl

/-- The code points of blanks. -/
def blanks : List Nat :=
  [9, 10, 11, 12, 13, 0x20, 0x85, 0xA0, 0x1680] ++ List.range' 0x2000 11 ++
    [0x2028, 0x2029, 0x202F, 0x205F, 0x3000]

theorem mem_blanks {c : Char} (h : Text.isBlank c = true) : c.toNat ∈ blanks := by
  simp only [Text.isBlank, Bool.or_eq_true, Bool.and_eq_true, beq_iff_eq, decide_eq_true_eq] at h
  simp only [blanks, List.mem_append, List.mem_cons, List.not_mem_nil, or_false, List.mem_range'_1]
  omega

theorem inked_of_isWordContinue {c : Char} (h : isWordContinue c = true) : Inked c := by
  refine Bool.eq_false_iff.2 fun hblank => ?_
  have hall : (blanks.all fun n => !isWordContinue (Char.ofNat n)) = true := by decide +kernel
  have hnot := List.all_eq_true.1 hall _ (mem_blanks hblank)
  rw [Char.ofNat_toNat, h] at hnot
  cases hnot

/-! ## Numbers -/

section
variable {p : Char → Bool} {s : List Char} {n : Nat}

theorem integerLength_endsIn (hp : ∀ c, p c = true → Inked c) :
    integerLength p s n = 0 ∨ EndsIn Inked s (integerLength p s n) := by
  unfold integerLength
  rcases digitsLength_endsIn (s := s.drop n) hp with h | h
  · simp [h]
  · split
    · exact .inl rfl
    · next hd =>
      exact .inr (withSuffix_endsIn h.of_drop (inked_of_all rfl))

/-- Digits after some characters, where no digits are no match at all. -/
theorem digits_after_endsIn (m : Nat) :
    (match digitsLength Char.isDigit (s.drop m) with | 0 => 0 | d => m + d) = 0 ∨
      EndsIn Inked s (match digitsLength Char.isDigit (s.drop m) with | 0 => 0 | d => m + d) := by
  have digits := digitsLength_endsIn (q := Inked) (s := s.drop m) fun _ h => inked_of_isDigit h
  split
  · exact .inl rfl
  · next hd =>
    exact .inr (digits.resolve_left hd).of_drop

theorem exponentLength_endsIn (marks s : List Char) : exponentLength marks s = 0 ∨
    EndsIn Inked s (exponentLength marks s) := by
  unfold exponentLength
  split
  · next c r =>
    have after (sign : Nat) := digits_after_endsIn (s := c :: r) (1 + sign)
    simp only [Nat.add_comm 1, List.drop_succ_cons] at after ⊢
    split
    · exact after _
    · exact .inl rfl
  · exact .inl rfl

theorem floatSuffixes_inked : ∀ c ∈ floatSuffixes, Inked c := inked_of_all rfl

/-- A match may be followed by an exponent. -/
theorem EndsIn.add_exponent (marks : List Char) (h : EndsIn Inked s n) :
    EndsIn Inked s (n + exponentLength marks (s.drop n)) := by
  rcases exponentLength_endsIn marks (s.drop n) with hzero | hexp
  · rwa [hzero]
  · exact hexp.of_drop

/-- A fraction ends in its last digit or in the point. -/
theorem fraction_endsIn {r : List Char} (hp : ∀ c, p c = true → Inked c)
    (hdrop : s.drop n = '.' :: r) : EndsIn Inked s (n + 1 + digitsLength p r) := by
  have hr : s.drop (n + 1) = r := by rw [← List.drop_drop, hdrop]; rfl
  rcases digitsLength_endsIn (s := r) hp with hzero | hdigits
  · rw [hzero]
    exact .of_drop_eq_cons hdrop (by decide)
  · exact .of_drop (hr ▸ hdigits)

theorem decimalFloatLength_endsIn : decimalFloatLength s = 0 ∨
    EndsIn Inked s (decimalFloatLength s) := by
  have digits := digitsLength_endsIn (q := Inked) (s := s) fun _ h => inked_of_isDigit h
  unfold decimalFloatLength
  generalize digitsLength Char.isDigit s = d at *
  simp only
  split
  · next r hdrop =>
    split
    · exact .inl rfl
    · exact .inr (withSuffix_endsIn
        ((fraction_endsIn (fun _ h => inked_of_isDigit h) hdrop).add_exponent _) floatSuffixes_inked)
  · split
    · exact .inl rfl
    · next hd =>
      have := withSuffix_endsIn ((digits.resolve_left hd).add_exponent ['e', 'E', 'p', 'P'])
        floatSuffixes_inked
      split
      · exact .inl rfl
      · exact .inr this

/-- The length of a hexadecimal floating-point literal without its exponent. -/
def hexMantissaLength (s : List Char) : Nat :=
  let r := s.drop 2
  let d := digitsLength isHex r
  match r.drop d with
  | '.' :: r' =>
    let f := digitsLength isHex r'
    if d = 0 ∧ f = 0 then 0 else 2 + d + 1 + f
  | _ => if d = 0 then 0 else 2 + d

theorem hexMantissaLength_endsIn : hexMantissaLength s = 0 ∨
    EndsIn Inked s (hexMantissaLength s) := by
  have digits := digitsLength_endsIn (q := Inked) (s := s.drop 2) fun _ h => inked_of_isHex h
  simp only [hexMantissaLength]
  generalize digitsLength isHex (s.drop 2) = d at *
  rw [List.drop_drop]
  split
  · next r hdrop =>
    split
    · exact .inl rfl
    · exact .inr (fraction_endsIn (fun _ h => inked_of_isHex h) hdrop)
  · split
    · exact .inl rfl
    · next hd => exact .inr (digits.resolve_left hd).of_drop

theorem hexFloatLength_eq : hexFloatLength s =
    if hexMantissaLength s = 0 then 0
    else match exponentLength ['e', 'E', 'p', 'P'] (s.drop (hexMantissaLength s)) with
      | 0 => hexMantissaLength s
      | e => withSuffix floatSuffixes s (hexMantissaLength s + e) := rfl

theorem hexFloatLength_endsIn : hexFloatLength s = 0 ∨ EndsIn Inked s (hexFloatLength s) := by
  rw [hexFloatLength_eq]
  split
  · exact .inl rfl
  · next hn =>
    have mantissa := hexMantissaLength_endsIn.resolve_left hn
    split
    · exact .inr mantissa
    · exact .inr (withSuffix_endsIn (mantissa.add_exponent _) floatSuffixes_inked)

theorem numberForms_endsIn {form : Kind × Nat} (h : form ∈ numberForms s) :
    form.2 = 0 ∨ EndsIn Inked s form.2 := by
  have decimal := integerLength_endsIn (s := s) (n := 0) fun _ h => inked_of_isDigit h
  have hex := integerLength_endsIn (s := s) (n := 2) fun _ h => inked_of_isHex h
  have octal (n : Nat) := integerLength_endsIn (s := s) (n := n) fun _ h => inked_of_isOctal h
  have binary := integerLength_endsIn (s := s) (n := 2) fun _ h => inked_of_isBinary h
  have float := decimalFloatLength_endsIn (s := s)
  have hexFloat := hexFloatLength_endsIn (s := s)
  unfold numberForms at h
  split at h
  · simp only [List.append_assoc, List.mem_append, List.mem_cons, List.not_mem_nil, or_false] at h
    rcases h with rfl | h | rfl
    · exact decimal
    · split at h
      · rcases List.mem_cons.1 h with rfl | h
        · exact hex
        · rw [List.mem_singleton.1 h]
          exact hexFloat
      · split at h
        · rw [List.mem_singleton.1 h]
          exact octal 2
        · split at h
          · rw [List.mem_singleton.1 h]
            exact binary
          · rw [List.mem_singleton.1 h]
            exact octal 1
    · exact float
  · simp only [List.mem_cons, List.not_mem_nil, or_false] at h
    rcases h with rfl | rfl
    · exact decimal
    · exact float

theorem longest_mem {forms : List (Kind × Nat)} {form : Kind × Nat} (h : longest forms = some form) :
    form ∈ forms ∧ form.2 ≠ 0 := by
  induction forms generalizing form with
  | nil => cases h
  | cons m rest ih =>
    unfold longest at h
    split at h
    · next best hbest =>
      split at h
      · cases h
        exact ⟨List.mem_cons_of_mem _ (ih hbest).1, (ih hbest).2⟩
      · split at h
        · cases h
        · next hm =>
          cases h
          exact ⟨List.mem_cons_self, hm⟩
    · split at h
      · cases h
      · next hm =>
        cases h
        exact ⟨List.mem_cons_self, hm⟩

end

/-! ## Quoted literals, comments and symbols -/

section
variable {s r : List Char} {n k skip : Nat}

/-- The characters in which quoted literals and block comments end. -/
def closing : List Char := ['"', '\'', '/']

/-- A match counted from `n` on ends in a closing character `k - n` characters on. -/
def EndsAt (n k : Nat) (s : List Char) : Prop := ∃ m, k = n + m ∧ EndsIn (· ∈ closing) s m

theorem EndsAt.behind (front : List Char) (h : EndsAt (n + front.length) k s) :
    EndsAt n k (front ++ s) := by
  obtain ⟨m, rfl, hm⟩ := h
  exact ⟨front.length + m, Nat.add_assoc .., .of_drop (by simpa using hm)⟩

theorem EndsAt.of_front (front : List Char) (h : ∃ c ∈ front.getLast?, c ∈ closing) :
    EndsAt n (n + front.length) (front ++ s) :=
  ⟨front.length, rfl, .of_front h⟩

theorem stringLength?_endsAt (h : stringLength? skip n s = some k) : EndsAt n k s := by
  fun_induction stringLength? skip n s with
  | case1 | case5 => cases h
  | case2 n c r skip ih | case6 n c r _ _ ih => exact .behind [c] (ih h)
  | case3 =>
    cases h
    exact .of_front ['"'] ⟨_, rfl, by decide⟩
  | case4 n r skip _ _ ih => exact .behind ['\\'] (ih h)

theorem textBlockLength?_endsAt (h : textBlockLength? n s = some k) : EndsAt n k s := by
  fun_induction textBlockLength? n s with
  | case1 =>
    cases h
    exact .of_front ['"', '"', '"'] ⟨_, rfl, by decide⟩
  | case2 n c r ih => exact .behind ['\\', c] (ih h)
  | case3 n c r _ _ ih => exact .behind [c] (ih h)
  | case4 => cases h

theorem characterLength?_endsAt (h : characterLength? n s = some k) : EndsAt n k s := by
  fun_induction characterLength? n s with
  | case1 | case4 | case6 => cases h
  | case2 =>
    cases h
    exact .of_front ['\''] ⟨_, rfl, by decide⟩
  | case3 n c r ih => exact .behind ['\\', c] (ih h)
  | case5 n c r _ _ _ ih => exact .behind [c] (ih h)

theorem blockCommentLength?_endsAt (h : blockCommentLength? n s = some k) : EndsAt n k s := by
  fun_induction blockCommentLength? n s with
  | case1 =>
    cases h
    exact .of_front ['*', '/'] ⟨_, rfl, by decide⟩
  | case2 n c r _ ih => exact .behind [c] (ih h)
  | case3 => cases h

theorem longSymbols_inked : ∀ symbol ∈ longSymbols, ∃ c ∈ symbol.getLast?, Inked c := by
  intro symbol hsymbol
  have hall : (longSymbols.all fun s => s.getLast?.any fun c => !Text.isBlank c) = true := by decide
  obtain ⟨c, hc, hsolid⟩ := (Option.any_eq_true _ _).1 (List.all_eq_true.1 hall symbol hsymbol)
  exact ⟨c, hc, by simpa [Inked] using hsolid⟩

theorem shortSymbols_inked : ∀ c ∈ shortSymbols, Inked c := inked_of_all rfl

theorem symbolLength?_endsIn (h : symbolLength? s = some k) : EndsIn Inked s k := by
  unfold symbolLength? at h
  split at h
  · next symbol hfind =>
    cases h
    have hprefix := List.find?_some hfind
    obtain ⟨r, rfl⟩ := List.isPrefixOf_iff_prefix.1 hprefix
    exact .of_front (longSymbols_inked symbol (List.mem_of_find?_eq_some hfind))
  · split at h
    · next c r _ =>
      split at h
      · next hc =>
        cases h
        exact .of_getElem? rfl (shortSymbols_inked c hc)
      · cases h
    · cases h

end

/-! ## Tokens -/

/-- A token of `n` characters at the beginning of a text ends properly: in a visible character or, if
it is a line comment, at the end of a line. -/
def Closed (lexeme : Lexeme) (s : List Char) (n : Nat) : Prop :=
  EndsIn Inked s n ∨
    lexeme = .comment .lineComment ∧ n ≤ s.length ∧ (s[n]? = none ∨ s[n]? = some '\n')

theorem Closed.le_length {lexeme : Lexeme} {s : List Char} {n : Nat} (h : Closed lexeme s n) :
    n ≤ s.length :=
  h.elim EndsIn.le_length fun h => h.2.1

theorem EndsAt.endsIn {s front : List Char} {n : Nat} (h : EndsAt front.length n s) :
    EndsIn (· ∈ closing) (front ++ s) n := by
  obtain ⟨m, rfl, hm⟩ := h
  exact .of_drop (by simpa using hm)

theorem EndsAt.closed {lexeme : Lexeme} {s front : List Char} {n : Nat}
    (h : EndsAt front.length n s) : Closed lexeme (front ++ s) n :=
  .inl (h.endsIn.mono (inked_of_all rfl))

/-- A line comment ends where its line ends. -/
theorem closed_lineComment (r : List Char) :
    Closed (.comment .lineComment) ('/' :: '/' :: r) (2 + (r.takeWhile (· != '\n')).length) := by
  have hsplit := List.takeWhile_append_dropWhile (p := (· != '\n')) (l := r)
  have hend := List.head?_dropWhile_not (· != '\n') r
  refine .inr ⟨rfl, ?_, ?_⟩
  · have := (List.takeWhile_prefix (· != '\n') (l := r)).length_le
    rw [Nat.add_comm]
    exact Nat.add_le_add_right this 2
  · rw [Nat.add_comm, List.getElem?_cons_succ, List.getElem?_cons_succ]
    conv =>
      enter [1, 1, 1]
      rw [← hsplit]
    conv =>
      enter [2, 1, 1]
      rw [← hsplit]
    rw [List.getElem?_append_right (Nat.le_refl _), Nat.sub_self, ← List.head?_eq_getElem?]
    split at hend
    · next c hc => exact .inr (by simpa [hc] using hend)
    · next hc => exact .inl hc

/-- What the scanner finds is empty or ends properly. -/
theorem scan?_closed {s : List Char} {lexeme : Lexeme} {n : Nat}
    (h : scan? s = some (lexeme, n)) : n = 0 ∨ Closed lexeme s n := by
  have quoted (front : List Char) {r : List Char} {found : Option Nat} {l : Lexeme}
      (hfound : ∀ {k}, found = some k → EndsAt front.length k r)
      (h : found.map (fun n => (l, n)) = some (lexeme, n)) :
      n = 0 ∨ Closed lexeme (front ++ r) n := by
    obtain ⟨k, hk, heq⟩ := Option.map_eq_some_iff.1 h
    cases heq
    exact .inr (hfound hk).closed
  unfold scan? at h
  split at h
  · next r =>
    cases h
    exact .inr (closed_lineComment r)
  · exact quoted ['/', '*'] blockCommentLength?_endsAt h
  · exact quoted ['"', '"', '"'] textBlockLength?_endsAt h
  · exact quoted ['"'] stringLength?_endsAt h
  · exact quoted ['\''] characterLength?_endsAt h
  · next r =>
    split at h
    · next hprefix =>
      cases h
      obtain ⟨rest, rfl⟩ := List.isPrefixOf_iff_prefix.1 hprefix
      exact .inr (.inl (.of_getElem? rfl (show Inked 'e' by decide)))
    · cases h
      exact .inr (.inl (.of_getElem? rfl (show Inked '@' by decide)))
  · split at h
    · cases h
      exact (takeWhile_endsIn fun _ h => inked_of_isWordContinue h).imp_right .inl
    · split at h
      · next hlongest =>
        cases h
        have hform := longest_mem hlongest
        exact .inr (.inl ((numberForms_endsIn hform.1).resolve_left hform.2))
      · obtain ⟨k, hk, heq⟩ := Option.map_eq_some_iff.1 h
        cases heq
        exact .inr (.inl (symbolLength?_endsIn hk))
  · cases h

end Token

open Token

/-- The character in front of a position is solid. -/
def SolidBefore (source : List Char) (i : Nat) : Prop := ∃ c, source[i - 1]? = some c ∧ Solid c

/-- A part of a text is not empty, begins with a solid character, and ends in one or at the end of a
line. -/
structure Firm (source : List Char) (start stop : Nat) : Prop where
  nonempty : start < stop
  inside : stop ≤ source.length
  first : ∃ c, source[start]? = some c ∧ Solid c
  last : SolidBefore source stop ∨ stop = source.length ∨ source[stop]? = some '\n'

/-- From the beginning of one firm part to the end of another. -/
theorem Firm.hull {source : List Char} {a b c d : Nat} (h : Firm source a b)
    (h' : Firm source c d) (hlt : a < d) : Firm source a d :=
  ⟨hlt, h'.inside, h.first, h'.last⟩

/-- Some tokens follow one another in a text, and all but comments end in a solid character. -/
structure Placed (source : List Char) (ts : List Token) : Prop where
  firm : ∀ t ∈ ts, Firm source t.start t.stop
  solid : ∀ t ∈ ts, t.isComment = false → SolidBefore source t.stop
  ordered : ts.Pairwise fun a b => a.stop ≤ b.start

namespace Token

variable {source front s : List Char} {c : Char} {r : List Char} {pos n fuel : Nat}
  {lexeme : Lexeme} {ts : List Token}

theorem getElem?_behind (hs : source = front ++ s) (i : Nat) :
    source[front.length + i]? = s[i]? := by
  rw [hs, List.getElem?_append_right (Nat.le_add_right ..), Nat.add_sub_cancel_left]

theorem solidBefore_of_endsIn (h : EndsIn Inked s n) (hs : source = front ++ s) :
    SolidBefore source (front.length + n) := by
  obtain ⟨d, hn, hd, hinked⟩ := h
  refine ⟨d, ?_, hinked.solid⟩
  rwa [Nat.add_sub_assoc hn, getElem?_behind hs]

theorem firm_of_closed (hc : Solid c) (h : Closed lexeme (c :: r) n) (hn : 0 < n)
    (hs : source = front ++ c :: r) : Firm source front.length (front.length + n) := by
  have hlen : source.length = front.length + (c :: r).length := by rw [hs, List.length_append]
  refine ⟨Nat.lt_add_of_pos_right hn, ?_, ⟨c, getElem?_behind hs 0, hc⟩, ?_⟩
  · have := h.le_length
    omega
  · rcases h with hends | ⟨-, hle, hend⟩
    · exact .inl (solidBefore_of_endsIn hends hs)
    · rcases hend with hend | hend
      · have := List.getElem?_eq_none_iff.1 hend
        exact .inr (.inl (by omega))
      · exact .inr (.inr (by rwa [getElem?_behind hs]))

/-- A text at which the scanner finds an empty token has no tokens. -/
theorem tokensFrom?_of_empty (hc : Solid c) (h : scan? (c :: r) = some (lexeme, 0)) :
    tokensFrom? pos (c :: r) fuel = none := by
  induction fuel generalizing pos with
  | zero => rfl
  | succ fuel ih =>
    have hspace : (c :: r).takeWhile isSpace = [] := by simp [show isSpace c = false from hc]
    simp only [tokensFrom?, hspace, List.length_nil, List.drop_zero, h]
    rw [ih]
    rfl

theorem drop_length_takeWhile {p : Char → Bool} : s.drop (s.takeWhile p).length = s.dropWhile p := by
  conv =>
    enter [1, 2]
    rw [← List.takeWhile_append_dropWhile (p := p) (l := s)]
  exact List.drop_left

theorem tokensFrom?_placed (front : List Char) (h : tokensFrom? pos s fuel = some ts)
    (hs : source = front ++ s) (hpos : front.length = pos) : Placed source ts ∧ ∀ t ∈ ts, pos ≤ t.start := by
  induction fuel generalizing pos s front ts with
  | zero => cases h
  | succ fuel ih =>
    unfold tokensFrom? at h
    simp only at h
    split at h
    · cases h
      exact ⟨⟨nofun, nofun, .nil⟩, nofun⟩
    · next c r hdrop =>
      split at h
      · cases h
      · next lexeme n hscan =>
        obtain ⟨rest, hrest, rfl⟩ := Option.map_eq_some_iff.1 h
        have hc : Solid c := by
          have := List.head?_dropWhile_not isSpace s
          rwa [← drop_length_takeWhile, hdrop] at this
        -- an empty lexeme would leave the scanner where it is until its fuel is spent
        have hn : 0 < n := by
          refine Nat.pos_of_ne_zero fun hzero => ?_
          subst hzero
          rw [List.drop_zero, tokensFrom?_of_empty hc hscan] at hrest
          cases hrest
        let space := s.takeWhile isSpace
        have hsource : source = (front ++ space) ++ c :: r := by
          rw [← hdrop, drop_length_takeWhile, List.append_assoc, List.takeWhile_append_dropWhile, hs]
        have hstart : (front ++ space).length = pos + space.length := by
          rw [List.length_append, hpos]
        have hclosed := (scan?_closed hscan).resolve_left (Nat.ne_of_gt hn)
        have hfirm := firm_of_closed hc hclosed hn hsource
        have hsolid : Token.isComment ⟨lexeme, .ofList ((c :: r).take n), pos + space.length,
            pos + space.length + n⟩ = false → SolidBefore source (pos + space.length + n) := by
          intro hcode
          rcases hclosed with hends | ⟨rfl, -⟩
          · exact hstart ▸ solidBefore_of_endsIn hends hsource
          · cases hcode
        obtain ⟨hplaced, hafter⟩ := ih (front ++ space ++ (c :: r).take n) hrest
          (by rw [hsource, List.append_assoc _ (List.take ..), List.take_append_drop])
          (by rw [List.length_append, List.length_take, hstart, Nat.min_eq_left hclosed.le_length])
        rw [hstart] at hfirm
        refine ⟨⟨List.forall_mem_cons.2 ⟨hfirm, hplaced.firm⟩,
          List.forall_mem_cons.2 ⟨hsolid, hplaced.solid⟩,
          List.pairwise_cons.2 ⟨hafter, hplaced.ordered⟩⟩, ?_⟩
        · simp only [List.mem_cons, forall_eq_or_imp]
          exact ⟨Nat.le_add_right .., fun t ht => by have := hafter t ht; omega⟩

end Token

/-- The tokens of a text follow one another in it. -/
theorem tokens?_placed {source : List Char} {ts : List Token} (h : tokens? source = some ts) :
    Placed source ts := by
  unfold tokens? at h
  split at h
  · next r => exact (Token.tokensFrom?_placed ['\uFEFF'] h rfl rfl).1
  · exact (Token.tokensFrom?_placed [] h rfl rfl).1

/-! ## What a token is -/

/-- Whether a kind is that of comments. -/
def Kind.isComment (k : Kind) : Bool := k == .lineComment || k == .blockComment

/-- The class of the tokens for which the nodes of a kind stand, if there is only one. -/
def Kind.lexeme? : Kind → Option Lexeme
  | .identifier => some .word
  | .lineComment => some (.comment .lineComment)
  | .blockComment => some (.comment .blockComment)
  | _ => none

theorem Kind.lexeme?_of_isComment {k : Kind} (h : k.isComment = true) : k.lexeme? = some (.comment k) := by
  simp only [isComment, Bool.or_eq_true, beq_iff_eq] at h
  rcases h with rfl | rfl <;> rfl

/-- The kinds of literals that are one token. -/
def literalKinds : List Kind :=
  [.decimalInteger, .hexInteger, .octalInteger, .binaryInteger, .decimalFloat, .hexFloat,
    .characterLiteral, .stringLiteral]

/-- The class of a token fits its characters. -/
def Lexeme.Suits (text : List Char) : Lexeme → Prop
  | .word => ∀ c ∈ text, isWordContinue c = true
  | .literal kind => kind ∈ literalKinds
  | .symbol => True
  | .comment kind => kind.isComment = true

namespace Token

variable {source s : List Char} {pos n fuel : Nat} {lexeme : Lexeme} {ts : List Token}

theorem numberForms_kind {form : Kind × Nat} (h : form ∈ numberForms s) : form.1 ∈ literalKinds := by
  unfold numberForms at h
  split at h
  · simp only [List.append_assoc, List.mem_append, List.mem_cons, List.not_mem_nil, or_false] at h
    rcases h with rfl | h | rfl
    · simp [literalKinds]
    · repeat' split at h
      all_goals simp only [List.mem_cons, List.not_mem_nil, or_false] at h
      · rcases h with rfl | rfl <;> simp [literalKinds]
      all_goals
        rw [h]
        simp [literalKinds]
    · simp [literalKinds]
  · simp only [List.mem_cons, List.not_mem_nil, or_false] at h
    rcases h with rfl | rfl <;> simp [literalKinds]

/-- What the scanner finds is what its class says. -/
theorem scan?_suits (h : scan? s = some (lexeme, n)) : lexeme.Suits (s.take n) := by
  have found (l : Lexeme) (hl : l.Suits (s.take n)) {found : Option Nat}
      (h : found.map (fun n => (l, n)) = some (lexeme, n)) : lexeme.Suits (s.take n) := by
    obtain ⟨k, -, heq⟩ := Option.map_eq_some_iff.1 h
    cases heq
    exact hl
  have string : Lexeme.Suits (s.take n) (.literal .stringLiteral) := by
    simp [Lexeme.Suits, literalKinds]
  unfold scan? at h
  split at h
  · cases h
    rfl
  · exact found (.comment .blockComment) rfl h
  · exact found _ string h
  · exact found _ string h
  · exact found (.literal .characterLiteral) (by simp [Lexeme.Suits, literalKinds]) h
  · split at h <;> cases h <;> trivial
  · next c r _ _ _ _ _ _ =>
    split at h
    · cases h
      have hprefix := List.takeWhile_prefix (l := c :: r) isWordContinue
      rw [Lexeme.Suits, ← List.prefix_iff_eq_take.1 hprefix]
      exact List.all_eq_true.1 List.all_takeWhile
    · split at h
      · next hlongest =>
        cases h
        exact numberForms_kind (longest_mem hlongest).1
      · exact found .symbol trivial h
  · cases h

/-- Tokens suit the characters at their place. -/
theorem tokensFrom?_suits (h : tokensFrom? pos s fuel = some ts) (hs : source.drop pos = s) :
    ∀ t ∈ ts, t.lexeme.Suits (Tree.slice source t.start t.stop) := by
  induction fuel generalizing pos s ts with
  | zero => cases h
  | succ fuel ih =>
    unfold tokensFrom? at h
    simp only at h
    split at h
    · cases h
      nofun
    · next c r hdrop =>
      split at h
      · cases h
      · next lexeme n hscan =>
        obtain ⟨rest, hrest, rfl⟩ := Option.map_eq_some_iff.1 h
        have hplace : source.drop (pos + (s.takeWhile isSpace).length) = c :: r := by
          rw [← List.drop_drop, hs, hdrop]
        refine List.forall_mem_cons.2 ⟨?_, ih hrest ?_⟩
        · rw [Tree.slice, hplace, Nat.add_sub_cancel_left]
          exact scan?_suits hscan
        · rw [← List.drop_drop, hplace]

end Token

theorem tokens?_suits {source : List Char} {ts : List Token} (h : tokens? source = some ts) :
    ∀ t ∈ ts, t.lexeme.Suits (Tree.slice source t.start t.stop) := by
  unfold tokens? at h
  split at h
  · exact Token.tokensFrom?_suits h rfl
  · exact Token.tokensFrom?_suits h rfl

end Testwright.Java
