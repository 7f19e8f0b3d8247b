import Testwright.Java.Sanitize

/-!
# Scrubbed text, cut into pieces again

What scrubbing leaves of a piece is read as the same piece again, although what stood behind it may
be gone (`first_append`): `Alike` collects what a text behind a piece must keep so that the piece ends
where it did, and scrubbing keeps it (`alike_scrubFrom`). So the pieces of a scrubbed text are, one
after another, what remains of the pieces of the text (`pieces_scrubFrom`).

A `Spot` is a piece with the text before and behind it. The tokens of a scrubbed text, its comments and
its literals are then told from the spots of the text (`rescanned_scrub`).
-/

namespace Testwright.Java.Scrub

/-! ## Where pieces end -/

/-- A text is at its end or at that of a line. -/
def AtLineEnd (t : List Char) : Prop := t = [] ∨ t.head? = some '\n'

/-- What a text behind a piece keeps of another one, so that the piece ends before it all the same. -/
structure Alike (t t' : List Char) : Prop where
  nil : t = [] → t' = []
  newline : t.head? = some '\n' → t'.head? = some '\n'
  symbol : ∀ c ∈ ['"', '/', '*'], t'.head? = some c → t.head? = some c
  start : ∀ c ∈ t'.head?, isNameStart c = true → ∃ d ∈ t.head?, isNameStart d = true
  name : nameLength t = 0 → nameLength t' = 0

attribute [local simp] quotedLength textBlockLength nameLength blockLength

section
variable {t t' w : List Char} {quote c : Char}

theorem ne_of_not_escape {r : List Char} (h : c = '\\' → r = [] → False)
    (h' : ∀ d r', c = '\\' → r = d :: r' → False) : c ≠ '\\' := by
  intro hc
  cases r with
  | nil => exact h hc rfl
  | cons d r => exact h' d r hc rfl

theorem quotedLength_cons (hc : c ≠ '\\') (t : List Char) : quotedLength quote (c :: t) =
    if c = '\n' then 0 else if c = quote then 1 else 1 + quotedLength quote t := by
  cases t <;> simp [hc]

/-- A literal that is not closed ends with its line or with the text. -/
theorem atLineEnd_of_quotedLength (h : quotedLength quote t = 0) : AtLineEnd t := by
  unfold quotedLength at h
  split at h
  · exact .inl rfl
  · cases h
  · omega
  · split at h
    · next hc => exact .inr (congrArg some hc)
    · split at h <;> omega

theorem quotedLength_of_alike (h : Alike t t') (hlength : quotedLength quote t = 0) :
    quotedLength quote t' = 0 := by
  rcases atLineEnd_of_quotedLength hlength with rfl | hline
  · rw [h.nil rfl]
    rfl
  · cases t' with
    | nil => rfl
    | cons d r =>
      cases Option.some.inj (h.newline hline)
      simp

/-- A literal ends where it did. -/
theorem quotedLength_append (h : Alike t t') (hlength : quotedLength quote (w ++ t) = w.length) :
    quotedLength quote (w ++ t') = w.length := by
  induction w using quotedLength.induct quote with
  | case1 => exact quotedLength_of_alike h hlength
  | case2 =>
    cases t with
    | nil =>
      rw [h.nil rfl]
      rfl
    | cons d r =>
      simp only [List.cons_append, List.nil_append, quotedLength, List.length_singleton] at hlength
      omega
  | case3 d w ih =>
    simp only [List.cons_append, quotedLength, List.length_cons] at hlength ⊢
    rw [ih (by omega)]
    omega
  | case4 w hescape hescape' =>
    rw [List.cons_append, quotedLength_cons (ne_of_not_escape hescape hescape')] at hlength
    simp at hlength
  | case5 w hescape hescape' hline =>
    rw [List.cons_append, quotedLength_cons (ne_of_not_escape hescape hescape')] at hlength ⊢
    rwa [if_neg hline, if_pos rfl] at hlength ⊢
  | case6 c w hescape hescape' hline hquote ih =>
    rw [List.cons_append, quotedLength_cons (ne_of_not_escape hescape hescape'), if_neg hline,
      if_neg hquote, List.length_cons] at hlength ⊢
    rw [ih (by omega)]
    omega

theorem textBlockLength_cons (hc : c ≠ '\\') (hquotes : ∀ r, c = '"' → t ≠ '"' :: '"' :: r) :
    textBlockLength (c :: t) = 1 + textBlockLength t := by
  rw [textBlockLength]
  · exact fun h _ => hc h
  · exact fun _ _ h _ => hc h
  · exact fun r h h' => hquotes r h h'

/-- A text block that does not end with the text is closed, so its end is its own. -/
theorem textBlockLength_of_closed (ht : t ≠ []) (hlength : textBlockLength (w ++ t) = w.length) :
    3 ≤ w.length ∧ w.getLast? = some '"' ∧ ∀ t', textBlockLength (w ++ t') = w.length := by
  induction w using textBlockLength.induct with
  | case1 =>
    cases t with
    | nil => exact absurd rfl ht
    | cons d r =>
      unfold textBlockLength at hlength
      split at hlength <;> simp_all
  | case2 =>
    cases t with
    | nil => exact absurd rfl ht
    | cons d r =>
      simp only [List.cons_append, List.nil_append, textBlockLength, List.length_singleton] at hlength
      omega
  | case3 d w ih =>
    simp only [List.cons_append, textBlockLength, List.length_cons] at hlength ⊢
    obtain ⟨hle, hlast, hall⟩ := ih (by omega)
    refine ⟨by omega, by simp [List.getLast?_cons, hlast], fun t' => ?_⟩
    rw [hall]
    omega
  | case4 w =>
    simp only [List.cons_append, textBlockLength, List.length_cons] at hlength ⊢
    cases List.eq_nil_of_length_eq_zero (by omega : w.length = 0)
    exact ⟨by omega, rfl, fun _ => rfl⟩
  | case5 c w hescape hescape' hquotes ih =>
    have hc := ne_of_not_escape hescape hescape'
    -- three quotes in front could only be those of `c :: w`
    have hopen : ∀ r, c = '"' → w ++ t ≠ '"' :: '"' :: r := by
      rintro r rfl heq
      rw [List.cons_append, heq] at hlength
      match w, hlength with
      | [a, b], _ => exact hquotes [] rfl (by simp_all)
    rw [List.cons_append, textBlockLength_cons hc hopen, List.length_cons] at hlength
    obtain ⟨hle, hlast, hall⟩ := ih (by omega)
    refine ⟨Nat.le_succ_of_le hle, by simp [List.getLast?_cons, hlast], fun t' => ?_⟩
    rw [List.cons_append, textBlockLength_cons hc, hall, List.length_cons]
    · omega
    · rintro r rfl heq
      match w, hle with
      | a :: b :: w, _ => exact hquotes w rfl (by simp_all)

/-- A text block ends where it did. -/
theorem textBlockLength_append (h : Alike t t') (hlength : textBlockLength (w ++ t) = w.length) :
    textBlockLength (w ++ t') = w.length := by
  by_cases ht : t = []
  · rw [h.nil ht]
    rwa [ht] at hlength
  · exact (textBlockLength_of_closed ht hlength).2.2 t'

theorem isNameContinue_of_isNameStart (h : isNameStart c = true) : isNameContinue c = true := by
  simp [isNameContinue, h]

theorem nameLength_cons (hc : isNameContinue c = true) (t : List Char) :
    nameLength (c :: t) = 1 + nameLength t := by
  have hpoint : c ≠ '.' := by
    rintro rfl
    exact absurd hc (by decide)
  cases t <;> simp [hc, hpoint]

/-- Identifiers end where they did, and there is no end of a line in them. -/
theorem nameLength_append (hlength : nameLength (w ++ t) = w.length) :
    nameLength t = 0 ∧ (∀ d ∈ w, d ≠ '\n') ∧
      ∀ t', nameLength t' = 0 → nameLength (w ++ t') = w.length := by
  induction w using nameLength.induct with
  | case1 => exact ⟨hlength, by simp, fun t' ht' => ht'⟩
  | case2 c w hc ih =>
    simp only [List.cons_append, nameLength, hc, if_true] at hlength ih ⊢
    obtain ⟨ht, hline, hall⟩ := ih (by simpa [Nat.add_comm] using hlength)
    refine ⟨ht, List.forall_mem_cons.2 ⟨by decide, hline⟩, fun t' ht' => ?_⟩
    rw [hall t' ht']
    exact Nat.add_comm ..
  | case3 c w hc =>
    simp [hc] at hlength
  | case4 c w _ hc ih =>
    rw [List.cons_append, nameLength_cons hc, List.length_cons] at hlength
    obtain ⟨ht, hline, hall⟩ := ih (by omega)
    refine ⟨ht, List.forall_mem_cons.2 ⟨?_, hline⟩, fun t' ht' => ?_⟩
    · rintro rfl
      exact absurd hc (by decide)
    · rw [List.cons_append, nameLength_cons hc, hall t' ht']
      exact Nat.add_comm ..
  | case5 c w hpoint hc =>
    rw [List.cons_append, nameLength] at hlength
    · simp [hc] at hlength
    · rintro d r rfl heq
      -- a point alone is no part of a name, whatever stands behind it
      cases w with
      | cons d w => exact hpoint d w rfl rfl
      | nil =>
        rw [heq, nameLength] at hlength
        split at hlength
        · next hd =>
          rw [nameLength_cons (isNameContinue_of_isNameStart hd), List.length_singleton] at hlength
          omega
        · cases hlength

/-- A line comment ends with its line or with the text. -/
theorem atLineEnd_of_takeWhile (hlength : ((w ++ t).takeWhile (· != '\n')).length = w.length) :
    AtLineEnd t := by
  induction w with
  | nil =>
    cases t with
    | nil => exact .inl rfl
    | cons d r =>
      refine .inr (congrArg some (Decidable.byContradiction fun hd => ?_))
      simp [hd] at hlength
  | cons c w ih =>
    rw [List.cons_append, List.takeWhile_cons] at hlength
    split at hlength
    · exact ih (Nat.succ.inj hlength)
    · cases hlength

/-- A line comment ends where it did. -/
theorem takeWhile_append (h : Alike t t')
    (hlength : ((w ++ t).takeWhile (· != '\n')).length = w.length) :
    ((w ++ t').takeWhile (· != '\n')).length = w.length := by
  induction w with
  | nil =>
    rcases atLineEnd_of_takeWhile hlength with rfl | hline
    · rw [h.nil rfl]
      rfl
    · obtain ⟨r, rfl⟩ := List.head?_eq_some_iff.1 (h.newline hline)
      rfl
  | cons c w ih =>
    rw [List.cons_append, List.takeWhile_cons] at hlength ⊢
    split at hlength
    · next hc => rw [if_pos hc, List.length_cons, ih (Nat.succ.inj hlength), List.length_cons]
    · cases hlength

/-! ## Ends of lines -/

theorem getLast?_of_quotedLength (hlength : quotedLength quote (w ++ t) = w.length) :
    AtLineEnd t ∨ w.getLast? = some quote := by
  induction w using quotedLength.induct quote with
  | case1 => exact .inl (atLineEnd_of_quotedLength hlength)
  | case2 =>
    cases t with
    | nil => exact .inl (.inl rfl)
    | cons d r =>
      simp only [List.cons_append, List.nil_append, quotedLength, List.length_singleton] at hlength
      omega
  | case3 d w ih =>
    simp only [List.cons_append, quotedLength, List.length_cons] at hlength
    exact (ih (by omega)).imp_right fun hlast => by simp [List.getLast?_cons, hlast]
  | case4 w hescape hescape' =>
    rw [List.cons_append, quotedLength_cons (ne_of_not_escape hescape hescape')] at hlength
    simp at hlength
  | case5 w hescape hescape' hline =>
    rw [List.cons_append, quotedLength_cons (ne_of_not_escape hescape hescape'), if_neg hline,
      if_pos rfl] at hlength
    cases List.eq_nil_of_length_eq_zero (Nat.succ.inj hlength).symm
    exact .inr rfl
  | case6 c w hescape hescape' hline hquote ih =>
    rw [List.cons_append, quotedLength_cons (ne_of_not_escape hescape hescape'), if_neg hline,
      if_neg hquote, List.length_cons] at hlength
    exact (ih (by omega)).imp_right fun hlast => by simp [List.getLast?_cons, hlast]

/-- A block comment that does not end with the text is closed. -/
theorem getLast?_of_blockLength (ht : t ≠ []) (hlength : blockLength (w ++ t) = w.length) :
    w.getLast? = some '/' := by
  induction w using blockLength.induct with
  | case1 =>
    cases t with
    | nil => exact absurd rfl ht
    | cons d r =>
      unfold blockLength at hlength
      split at hlength <;> simp_all
  | case2 w =>
    simp only [List.cons_append, blockLength, List.length_cons] at hlength
    cases List.eq_nil_of_length_eq_zero (by omega : w.length = 0)
    rfl
  | case3 c w hclose ih =>
    rw [List.cons_append, blockLength] at hlength
    · rw [List.length_cons] at hlength
      simp [List.getLast?_cons, ih (by omega)]
    · rintro r rfl heq
      rw [heq] at hlength
      simp only [blockLength, List.length_cons] at hlength
      match w, hlength with
      | [a], _ => exact hclose [] rfl (by simp_all)

/-! ## The first piece -/

theorem first_string {r : List Char} (h : ∀ r', r ≠ '"' :: '"' :: r') :
    first '"' r = (.literal, 1 + quotedLength '"' r) := by
  unfold first
  rw [if_pos rfl]
  split
  · next r' => exact absurd rfl (h r')
  · rfl

theorem first_slash {r : List Char} (hblock : r.head? ≠ some '*') (hline : r.head? ≠ some '/') :
    first '/' r = (.other, 1) := by
  cases r with
  | nil => rfl
  | cons d r =>
    have hblock : d ≠ '*' := fun h => hblock (congrArg some h)
    have hline : d ≠ '/' := fun h => hline (congrArg some h)
    simp [first, hblock, hline]

variable {kind : PieceKind}

/-- A string or text block is read again whole. -/
theorem first_append_of_quote (h : Alike t t')
    (hfirst : first '"' (w ++ t) = (kind, w.length + 1)) :
    first '"' (w ++ t') = (kind, w.length + 1) := by
  by_cases hblock : ∃ w', w = '"' :: '"' :: w'
  · obtain ⟨w, rfl⟩ := hblock
    have hfirst : (PieceKind.literal, 3 + textBlockLength (w ++ t)) = (kind, w.length + 3) := hfirst
    obtain ⟨rfl, hlength⟩ := Prod.mk.inj hfirst
    show (PieceKind.literal, 3 + textBlockLength (w ++ t')) = (_, w.length + 3)
    rw [textBlockLength_append h (by omega), Nat.add_comm]
  · have hopen : ∀ r, w ++ t ≠ '"' :: '"' :: r := by
      intro r heq
      rw [heq] at hfirst
      have hlength : 3 + textBlockLength r = w.length + 1 := congrArg Prod.snd hfirst
      match w with
      | a :: b :: w => exact hblock ⟨w, by simp_all⟩
      | [_] | [] => simp at hlength; omega
    rw [first_string hopen] at hfirst
    obtain ⟨rfl, hlength⟩ := Prod.mk.inj hfirst
    have hopen' : ∀ r, w ++ t' ≠ '"' :: '"' :: r := by
      intro r heq
      match w with
      | a :: b :: w => exact hblock ⟨w, by simp_all⟩
      | [a] =>
        obtain ⟨rfl, hrest⟩ := List.cons.inj heq
        have hhead : t'.head? = some '"' := congrArg List.head? hrest
        obtain ⟨r', rfl⟩ := List.head?_eq_some_iff.1 (h.symbol '"' (by simp) hhead)
        exact hopen r' rfl
      | [] =>
        have hhead : t'.head? = some '"' := congrArg List.head? heq
        obtain ⟨r', rfl⟩ := List.head?_eq_some_iff.1 (h.symbol '"' (by simp) hhead)
        simp at hlength
    rw [first_string hopen', quotedLength_append h (by omega), Nat.add_comm]

/-- A line comment or a slash alone is read again whole. -/
theorem first_append_of_slash (h : Alike t t')
    (hfirst : first '/' (w ++ t) = (kind, w.length + 1)) (hkind : kind ≠ .blockComment) :
    first '/' (w ++ t') = (kind, w.length + 1) := by
  cases w with
  | nil =>
    have hblock : t.head? ≠ some '*' := by
      intro heq
      obtain ⟨r, rfl⟩ := List.head?_eq_some_iff.1 heq
      exact hkind (congrArg Prod.fst hfirst).symm
    have hline : t.head? ≠ some '/' := by
      intro heq
      obtain ⟨r, rfl⟩ := List.head?_eq_some_iff.1 heq
      have hlength : 2 + (r.takeWhile (· != '\n')).length = 1 := congrArg Prod.snd hfirst
      omega
    rw [List.nil_append, first_slash hblock hline] at hfirst
    rw [List.nil_append, first_slash (fun h' => hblock (h.symbol '*' (by simp) h'))
      fun h' => hline (h.symbol '/' (by simp) h'), hfirst]
  | cons d w =>
    by_cases hblock : d = '*'
    · subst hblock
      exact absurd (congrArg Prod.fst hfirst).symm hkind
    · by_cases hline : d = '/'
      · subst hline
        have hfirst : (PieceKind.lineComment, 2 + ((w ++ t).takeWhile (· != '\n')).length) =
            (kind, w.length + 2) := hfirst
        obtain ⟨rfl, hlength⟩ := Prod.mk.inj hfirst
        show (PieceKind.lineComment, 2 + ((w ++ t').takeWhile (· != '\n')).length) = (_, w.length + 2)
        rw [takeWhile_append h (by omega), Nat.add_comm]
      · have hlength := congrArg Prod.snd hfirst
        rw [List.cons_append, first_slash (by simpa using hblock) (by simpa using hline)] at hlength
        simp at hlength

/-- A piece that is no block comment is read again whole, if what stands behind it is alike. -/
theorem first_append (h : Alike t t') (hfirst : first c (w ++ t) = (kind, w.length + 1))
    (hkind : kind ≠ .blockComment) : first c (w ++ t') = (kind, w.length + 1) := by
  by_cases hquote : c = '"'
  · subst hquote
    exact first_append_of_quote h hfirst
  by_cases hslash : c = '/'
  · subst hslash
    exact first_append_of_slash h hfirst hkind
  unfold first at hfirst ⊢
  rw [if_neg hquote, if_neg hslash] at hfirst ⊢
  split at hfirst
  · next hapostrophe =>
    obtain ⟨rfl, hlength⟩ := Prod.mk.inj hfirst
    rw [if_pos hapostrophe, quotedLength_append h (by omega), Nat.add_comm]
  · next hapostrophe =>
    rw [if_neg hapostrophe]
    split at hfirst
    · next hname =>
      obtain ⟨rfl, hlength⟩ := Prod.mk.inj hfirst
      obtain ⟨hstop, -, hall⟩ := nameLength_append (w := w) (t := t) (by omega)
      rw [if_pos hname, hall t' (h.name hstop), Nat.add_comm]
    · next hname => rw [if_neg hname, hfirst]

end

/-! ## Cutting one piece off -/

section
variable {c : Char} {r s t : List Char}

theorem quotedLength_le (quote : Char) (s : List Char) : quotedLength quote s ≤ s.length := by
  fun_induction quotedLength quote s <;> simp <;> omega

theorem textBlockLength_le (s : List Char) : textBlockLength s ≤ s.length := by
  fun_induction textBlockLength s <;> simp <;> omega

theorem blockLength_le (s : List Char) : blockLength s ≤ s.length := by
  fun_induction blockLength s <;> simp <;> omega

theorem nameLength_le (s : List Char) : nameLength s ≤ s.length := by
  fun_induction nameLength s <;> simp_all <;> omega

theorem first_le (c : Char) (r : List Char) : (first c r).2 ≤ r.length + 1 := by
  have htakeWhile (s : List Char) : (s.takeWhile (· != '\n')).length ≤ s.length :=
    (List.takeWhile_prefix _).length_le
  unfold first
  split
  · split
    · next r =>
      have := textBlockLength_le r
      simp only [List.length_cons]
      omega
    · have := quotedLength_le '"' r
      simp only
      omega
  · split
    · have := quotedLength_le '\'' r
      simp only
      omega
    · split
      · split
        · next r =>
          have := blockLength_le r
          simp only [List.length_cons]
          omega
        · next r =>
          have := htakeWhile r
          simp only [List.length_cons]
          omega
        · simp
      · split
        · have := nameLength_le r
          simp only
          omega
        · simp

theorem piecesFrom_eq {n m : Nat} (h : s.length ≤ n) (h' : s.length ≤ m) :
    piecesFrom n s = piecesFrom m s := by
  induction n generalizing s m with
  | zero =>
    cases List.eq_nil_of_length_eq_zero (Nat.le_zero.1 h)
    cases m <;> rfl
  | succ n ih =>
    cases s with
    | nil => cases m <;> rfl
    | cons c r =>
      cases m with
      | zero => simp at h'
      | succ m =>
        have hpos := first_pos c r
        simp only [List.length_cons] at h h'
        simp only [piecesFrom]
        rw [ih (m := m)] <;> simp only [List.length_drop, List.length_cons] <;> omega

theorem pieces_append {w : List Char} {kind : PieceKind}
    (h : first c (w ++ t) = (kind, w.length + 1)) :
    pieces (c :: (w ++ t)) = ⟨kind, c :: w⟩ :: pieces t := by
  rw [pieces, List.length_cons, piecesFrom, h]
  simp only [List.take_succ_cons, List.take_left, List.drop_succ_cons, List.drop_left]
  rw [pieces, piecesFrom_eq (m := t.length)] <;> simp

/-- The first piece of a text, with the text behind it. -/
theorem exists_first (c : Char) (r : List Char) : ∃ kind w t, r = w ++ t ∧
    first c (w ++ t) = (kind, w.length + 1) := by
  have hpos := first_pos c r
  have hle := first_le c r
  refine ⟨(first c r).1, r.take ((first c r).2 - 1), r.drop ((first c r).2 - 1), ?_, ?_⟩
  · exact (List.take_append_drop ..).symm
  · rw [List.take_append_drop, List.length_take]
    exact Prod.ext rfl (by simp only; omega)

end

/-- Induction on a text by its first piece. -/
theorem induction_pieces {motive : List Char → Prop} (nil : motive [])
    (append : ∀ c w t kind, first c (w ++ t) = (kind, w.length + 1) → motive t →
      motive (c :: (w ++ t))) (s : List Char) : motive s := by
  generalize hn : s.length = n
  induction n using Nat.strongRecOn generalizing s with
  | ind n ih =>
    cases s with
    | nil => exact nil
    | cons c r =>
      obtain ⟨kind, w, t, rfl, hfirst⟩ := exists_first c r
      simp only [List.length_cons, List.length_append] at hn
      exact append c w t kind hfirst (ih t.length (by omega) t rfl)

/-! ## Spots -/

/-- A piece with the text before and behind it. -/
structure Spot where
  front : List Char
  piece : Piece
  rear : List Char

/-- The spots of some pieces behind a text. -/
def spotsFrom (front : List Char) : List Piece → List Spot
  | [] => []
  | p :: rest => ⟨front, p, rest.flatMap Piece.text⟩ :: spotsFrom (front ++ p.text) rest

/-- The pieces of a text, each with the text around it. -/
def spots (s : List Char) : List Spot := spotsFrom [] (pieces s)

namespace Piece

def isComment (p : Piece) : Bool := p.kind == .blockComment || p.kind == .lineComment

/-- A literal, a name or a character that is not blank. -/
def isToken (p : Piece) : Bool := !p.isComment && !(p.kind == .other && p.text.all Text.isBlank)

end Piece

namespace Spot

/-- Whether a piece begins in the first column. -/
def startsLine (x : Spot) : Bool := x.front.getLast?.all (· == '\n')

/-- A line comment that begins in the first column. -/
def isHeading (x : Spot) : Bool := x.piece.kind == .lineComment && x.startsLine

/-- A synthetic class where it stands as a type. -/
def isSyntheticType (x : Spot) : Bool :=
  x.piece.kind == .name && isSynthetic x.piece.text && typeMayFollow x.front.getLast? &&
    typeMayPrecede x.rear.head?

/-- The piece, with a synthetic class replaced where it stands as a type. -/
def retyped (x : Spot) : Piece := if x.isSyntheticType then ⟨.name, placeholder⟩ else x.piece

def scrubbed (x : Spot) : List Char := scrubPiece x.front.getLast? x.rear.head? x.piece

/-- The pieces that remain of a piece. -/
def remains (x : Spot) : List Piece :=
  match x.piece.kind with
  | .blockComment => ⟨.other, [' ']⟩ :: (x.piece.text.filter (· == '\n')).map fun c => ⟨.other, [c]⟩
  | .lineComment => if x.startsLine then [x.piece] else []
  | _ => [x.retyped]

end Spot

section
variable {front front' w t t' s : List Char} {c : Char} {kind : PieceKind}

/-- The spot of a piece between two texts. -/
abbrev spot (front : List Char) (kind : PieceKind) (c : Char) (w t : List Char) : Spot :=
  ⟨front, ⟨kind, c :: w⟩, t⟩

/-- The rest of a text behind `front`, scrubbed. -/
def scrubFrom (front s : List Char) : List Char := scrubPieces front.getLast? (pieces s)

theorem head?_pieces (s : List Char) : ((pieces s).head?.map Piece.text).bind List.head? = s.head? := by
  cases s with
  | nil => rfl
  | cons c r =>
    obtain ⟨kind, w, t, rfl, hfirst⟩ := exists_first c r
    rw [pieces_append hfirst]
    rfl

theorem scrubFrom_append (h : first c (w ++ t) = (kind, w.length + 1)) :
    scrubFrom front (c :: (w ++ t)) =
      (spot front kind c w t).scrubbed ++ scrubFrom (front ++ c :: w) t := by
  rw [scrubFrom, pieces_append h, scrubPieces, head?_pieces, scrubFrom]
  simp [Spot.scrubbed, List.getLast?_append]

theorem spotsFrom_append (h : first c (w ++ t) = (kind, w.length + 1)) :
    spotsFrom front (pieces (c :: (w ++ t))) =
      spot front kind c w t :: spotsFrom (front ++ c :: w) (pieces t) := by
  rw [pieces_append h, spotsFrom, pieces_flatten]

/-! ## What scrubbing leaves behind a piece -/

/-- The first characters of the kinds of pieces. -/
theorem kind_cases (h : first c (w ++ t) = (kind, w.length + 1)) :
    kind = .literal ∧ (c = '"' ∨ c = '\'') ∨
    kind = .blockComment ∧ c = '/' ∨ kind = .lineComment ∧ c = '/' ∨
    kind = .name ∧ isNameStart c = true ∨
    kind = .other ∧ w = [] ∧ isNameStart c = false := by
  unfold first at h
  split at h
  · next hquote =>
    left
    split at h <;> exact ⟨(congrArg Prod.fst h).symm, .inl hquote⟩
  · split at h
    · next hapostrophe =>
      exact .inl ⟨(congrArg Prod.fst h).symm, .inr hapostrophe⟩
    · split at h
      · next hslash =>
        subst hslash
        split at h
        · exact .inr (.inl ⟨(congrArg Prod.fst h).symm, rfl⟩)
        · exact .inr (.inr (.inl ⟨(congrArg Prod.fst h).symm, rfl⟩))
        · have hw := congrArg Prod.snd h
          simp only [Nat.right_eq_add, List.length_eq_zero_iff] at hw
          exact .inr (.inr (.inr (.inr ⟨(congrArg Prod.fst h).symm, hw, by decide⟩)))
      · split at h
        · next hname => exact .inr (.inr (.inr (.inl ⟨(congrArg Prod.fst h).symm, hname⟩)))
        · next hname =>
          have hw := congrArg Prod.snd h
          simp only [Nat.right_eq_add, List.length_eq_zero_iff] at hw
          exact .inr (.inr (.inr (.inr ⟨(congrArg Prod.fst h).symm, hw, by simpa using hname⟩)))

theorem nameLength_of_not_continue (hc : isNameContinue c = false) (hpoint : c ≠ '.')
    (s : List Char) : nameLength (c :: s) = 0 := by
  cases s <;> simp [hc, hpoint]

theorem Alike.cons (h : nameLength (c :: t) = 0 → nameLength (c :: t') = 0) :
    Alike (c :: t) (c :: t') :=
  ⟨nofun, fun h => h, fun _ _ h => h, fun d hd hstart => ⟨d, hd, hstart⟩, h⟩

/-- Texts with the same character in front that is no name are alike if what follows is. -/
theorem Alike.other (h : Alike t t') (hc : isNameStart c = false) : Alike (c :: t) (c :: t') := by
  refine .cons fun hlength => ?_
  by_cases hpoint : c = '.'
  · subst hpoint
    cases t' with
    | nil => rfl
    | cons d r' =>
      rw [nameLength, if_neg]
      -- a name behind the point would be one in the first text too
      intro hd
      obtain ⟨e, he, hstart⟩ := h.start d rfl hd
      obtain ⟨r, rfl⟩ := List.head?_eq_some_iff.1 he
      rw [nameLength, if_pos hstart] at hlength
      omega
  · cases hcontinue : isNameContinue c with
    | true =>
      rw [nameLength_cons hcontinue] at hlength
      omega
    | false => exact nameLength_of_not_continue hcontinue hpoint t'

/-- A text with a blank in front is like one with a slash. -/
theorem alike_blank (hc : c = ' ' ∨ c = '\n') : Alike ('/' :: t) (c :: t') := by
  have hname : isNameStart c = false ∧ nameLength (c :: t') = 0 := by
    rcases hc with rfl | rfl <;>
      exact ⟨by decide, nameLength_of_not_continue (by decide) (by decide) t'⟩
  refine ⟨nofun, nofun, fun d hd heq => ?_, fun d hd hstart => ?_, fun _ => hname.2⟩
  · cases Option.some.inj heq
    rcases hc with rfl | rfl <;> simp at hd
  · cases Option.some.inj hd
    simp [hname.1] at hstart

/-- A text is like one with a name in front if it begins with a name. -/
theorem Alike.name_of_start {d : Char} (hc : isNameStart c = true) (hd : isNameStart d = true) :
    Alike (c :: t) (d :: t') := by
  refine ⟨nofun, fun heq => ?_, fun e he heq => ?_, fun e he _ => ⟨c, rfl, hc⟩, fun hlength => ?_⟩
  · cases Option.some.inj heq
    exact absurd hc (by decide)
  · cases Option.some.inj heq
    simp only [List.mem_cons, List.not_mem_nil, or_false] at he
    rcases he with rfl | rfl | rfl <;> exact absurd hd (by decide)
  · rw [nameLength_cons (isNameContinue_of_isNameStart hc)] at hlength
    omega

theorem first_lineComment (h : first c (w ++ t) = (.lineComment, w.length + 1)) : AtLineEnd t := by
  unfold first at h
  split at h
  · split at h <;> simp at h
  · split at h
    · simp at h
    · split at h
      · split at h
        · simp at h
        · next r heq =>
          have hlength := congrArg Prod.snd h
          cases w with
          | nil =>
            simp only [List.length_nil] at hlength
            omega
          | cons d w =>
            obtain ⟨rfl, rfl⟩ := List.cons.inj heq
            simp only [List.length_cons] at hlength
            exact atLineEnd_of_takeWhile (w := w) (by simp only [List.append_eq] at hlength; omega)
        · simp at h
      · split at h <;> simp at h

theorem first_name (hc : isNameStart c = true) (h : first c (w ++ t) = (kind, w.length + 1)) :
    nameLength t = 0 ∧ ∀ d ∈ w, d ≠ '\n' := by
  have hne : c ≠ '"' ∧ c ≠ '\'' ∧ c ≠ '/' := by
    refine ⟨?_, ?_, ?_⟩ <;> rintro rfl <;> exact absurd hc (by decide)
  unfold first at h
  rw [if_neg hne.1, if_neg hne.2.1, if_neg hne.2.2, if_pos hc] at h
  have hlength := congrArg Prod.snd h
  simp only at hlength
  obtain ⟨hstop, hline, -⟩ := nameLength_append (w := w) (t := t) (by omega)
  exact ⟨hstop, hline⟩

/-- What scrubbing leaves of a text is alike the text. -/
theorem alike_scrubFrom (front s : List Char) : Alike s (scrubFrom front s) := by
  induction s using induction_pieces generalizing front with
  | nil => exact ⟨fun _ => rfl, nofun, nofun, nofun, fun h => h⟩
  | append c w t kind h ih =>
    rw [scrubFrom_append h]
    have ih := ih (front ++ c :: w)
    generalize scrubFrom (front ++ c :: w) t = t' at ih ⊢
    rcases kind_cases h with ⟨rfl, hc⟩ | ⟨rfl, rfl⟩ | ⟨rfl, rfl⟩ | ⟨rfl, hc⟩ | ⟨rfl, rfl, hc⟩
    · refine .cons fun _ => ?_
      rcases hc with rfl | rfl <;> exact nameLength_of_not_continue (by decide) (by decide) _
    · exact alike_blank (.inl rfl)
    · simp only [Spot.scrubbed, scrubPiece]
      split
      · exact .cons fun _ => nameLength_of_not_continue (by decide) (by decide) _
      · rcases first_lineComment h with rfl | hline
        · rw [ih.nil rfl]
          exact ⟨nofun, nofun, nofun, nofun, fun _ => rfl⟩
        · obtain ⟨r, rfl⟩ := List.head?_eq_some_iff.1 (ih.newline hline)
          exact alike_blank (.inr rfl)
    · simp only [Spot.scrubbed, scrubPiece]
      split
      · exact .name_of_start hc (by decide)
      · exact .name_of_start hc hc
    · exact ih.other hc

/-! ## What remains of a piece -/

theorem pieces_blank (hc : c = ' ' ∨ c = '\n') (s : List Char) :
    pieces (c :: s) = ⟨.other, [c]⟩ :: pieces s := by
  refine pieces_append (w := []) ?_
  rcases hc with rfl | rfl <;> rfl

theorem pieces_blanks {blanks : List Char} (h : ∀ c ∈ blanks, c = ' ' ∨ c = '\n') (s : List Char) :
    pieces (blanks ++ s) = (blanks.map fun c => ⟨.other, [c]⟩) ++ pieces s := by
  induction blanks with
  | nil => rfl
  | cons c blanks ih =>
    obtain ⟨hc, hblanks⟩ := List.forall_mem_cons.1 h
    rw [List.cons_append, pieces_blank hc, ih hblanks]
    rfl

theorem pieces_placeholder (h : nameLength s = 0) :
    pieces (placeholder ++ s) = ⟨.name, placeholder⟩ :: pieces s := by
  have hlength : nameLength (['b', 'j', 'e', 'c', 't'] ++ s) = 5 :=
    (nameLength_append (w := ['b', 'j', 'e', 'c', 't']) (t := []) (by decide)).2.2 s h
  refine pieces_append (w := ['b', 'j', 'e', 'c', 't']) ?_
  show (PieceKind.name, 1 + nameLength (['b', 'j', 'e', 'c', 't'] ++ s)) = _
  rw [hlength]
  rfl

theorem startsLine_iff {x : Spot} :
    x.startsLine = true ↔ x.front.getLast? = none ∨ x.front.getLast? = some '\n' := by
  rw [Spot.startsLine]
  cases x.front.getLast? <;> simp

/-- What is left of a piece is cut into what remains of it, if what follows is alike. -/
theorem pieces_scrubbed (h : first c (w ++ t) = (kind, w.length + 1)) (halike : Alike t t') :
    pieces ((spot front kind c w t).scrubbed ++ t') =
      (spot front kind c w t).remains ++ pieces t' := by
  have again (hkind : kind ≠ .blockComment) :
      pieces (c :: w ++ t') = [⟨kind, c :: w⟩] ++ pieces t' :=
    pieces_append (first_append halike h hkind)
  rcases kind_cases h with ⟨rfl, -⟩ | ⟨rfl, -⟩ | ⟨rfl, -⟩ | ⟨rfl, hc⟩ | ⟨rfl, -, -⟩
  · exact again nofun
  · have hblanks : ∀ d ∈ ' ' :: (c :: w).filter (· == '\n'), d = ' ' ∨ d = '\n' := by
      intro d hd
      rcases List.mem_cons.1 hd with rfl | hd
      · exact .inl rfl
      · exact .inr (by simpa using (List.mem_filter.1 hd).2)
    exact pieces_blanks hblanks t'
  · simp only [Spot.scrubbed, scrubPiece, Spot.remains]
    by_cases hstart : (spot front .lineComment c w t).startsLine = true
    · rw [if_pos (startsLine_iff.1 hstart), if_pos hstart]
      exact again nofun
    · rw [if_neg (mt startsLine_iff.2 hstart), if_neg hstart]
      rfl
  · have hstop := (first_name hc h).1
    let x := spot front .name c w t
    have hscrubbed : x.scrubbed = if x.isSyntheticType then placeholder else c :: w := rfl
    have hremains : x.remains = [if x.isSyntheticType then ⟨.name, placeholder⟩ else ⟨.name, c :: w⟩] :=
      rfl
    change pieces (x.scrubbed ++ t') = x.remains ++ pieces t'
    rw [hscrubbed, hremains]
    split
    · exact pieces_placeholder (halike.name hstop)
    · exact again nofun
  · exact again nofun

/-- The pieces of a scrubbed text are what remains of the pieces of the text. -/
theorem pieces_scrubFrom (front s : List Char) :
    pieces (scrubFrom front s) = (spotsFrom front (pieces s)).flatMap Spot.remains := by
  induction s using induction_pieces generalizing front with
  | nil => rfl
  | append c w t kind h ih =>
    rw [scrubFrom_append h, pieces_scrubbed h (alike_scrubFrom _ t), spotsFrom_append h,
      List.flatMap_cons, ih]

/-! ## Where comments begin -/

/-- A literal ends with its quote, unless its line ends there. -/
theorem getLast?_of_literal (hc : c = '"' ∨ c = '\'')
    (h : first c (w ++ t) = (kind, w.length + 1)) : AtLineEnd t ∨ (c :: w).getLast? = some c := by
  have quoted (hlength : quotedLength c (w ++ t) = w.length) :
      AtLineEnd t ∨ (c :: w).getLast? = some c :=
    (getLast?_of_quotedLength hlength).imp_right fun hlast => by simp [List.getLast?_cons, hlast]
  rcases hc with rfl | rfl
  · by_cases hblock : ∃ w', w ++ t = '"' :: '"' :: w'
    · obtain ⟨r, heq⟩ := hblock
      rw [heq] at h
      have hlength : 3 + textBlockLength r = w.length + 1 := congrArg Prod.snd h
      match w with
      | [] | [_] => simp at hlength; omega
      | a :: b :: w =>
        obtain ⟨rfl, rfl, rfl⟩ : a = '"' ∧ b = '"' ∧ w ++ t = r := by simpa using heq
        simp only [List.length_cons] at hlength
        cases t with
        | nil => exact .inl (.inl rfl)
        | cons d t =>
          have hlast := (textBlockLength_of_closed (w := w) (List.cons_ne_nil d t) (by omega)).2.1
          exact .inr (by simp [List.getLast?_cons, hlast])
    · rw [first_string fun r heq => hblock ⟨r, heq⟩] at h
      have hlength := congrArg Prod.snd h
      simp only at hlength
      exact quoted (by omega)
  · have hlength : 1 + quotedLength '\'' (w ++ t) = w.length + 1 := congrArg Prod.snd h
    exact quoted (by omega)

/-- A block comment ends with a slash, unless the text ends there. -/
theorem getLast?_of_blockComment (h : first '/' (w ++ t) = (.blockComment, w.length + 1))
    (ht : t ≠ []) : (('/' : Char) :: w).getLast? = some '/' := by
  cases w with
  | nil => rfl
  | cons d w =>
    by_cases hd : d = '*'
    · subst hd
      have hlength : 2 + blockLength (w ++ t) = w.length + 2 := congrArg Prod.snd h
      have hlast := getLast?_of_blockLength ht (by omega : blockLength (w ++ t) = w.length)
      simp [List.getLast?_cons, hlast]
    · by_cases hd' : d = '/'
      · subst hd'
        cases congrArg Prod.fst h
      · rw [List.cons_append, first_slash (by simpa using hd) (by simpa using hd')] at h
        cases congrArg Prod.fst h

/-- A piece that ends its line is the end of the line alone, unless another end of a line or the end of
the text follows. -/
theorem getLast?_of_first (h : first c (w ++ t) = (kind, w.length + 1))
    (hlast : (c :: w).getLast? = some '\n') : kind = .other ∧ c = '\n' ∧ w = [] ∨ AtLineEnd t := by
  rcases kind_cases h with ⟨rfl, hc⟩ | ⟨rfl, rfl⟩ | ⟨rfl, -⟩ | ⟨rfl, hc⟩ | ⟨rfl, rfl, -⟩
  · refine .inr ((getLast?_of_literal hc h).resolve_right fun hquote => ?_)
    cases Option.some.inj (hquote.symm.trans hlast)
    simp at hc
  · cases t with
    | nil => exact .inr (.inl rfl)
    | cons d t =>
      rw [getLast?_of_blockComment h (List.cons_ne_nil d t)] at hlast
      cases hlast
  · exact .inr (first_lineComment h)
  · rcases List.mem_cons.1 (List.mem_of_getLast? hlast) with rfl | hmem
    · exact absurd hc (by decide)
    · exact absurd rfl ((first_name hc h).2 _ hmem)
  · exact .inl ⟨rfl, Option.some.inj hlast, rfl⟩

/-- Where a line begins in a text, one begins in what scrubbing makes of it, unless the text ends there
or the line. -/
def Lined (front front' t : List Char) : Prop :=
  ¬AtLineEnd t → front.getLast?.all (· == '\n') = true → front'.getLast?.all (· == '\n') = true

theorem Lined.append (h : first c (w ++ t) = (kind, w.length + 1)) :
    Lined (front ++ c :: w) (front' ++ (spot front kind c w t).scrubbed) t := by
  intro hend hstart
  have hlast : (c :: w).getLast? = some '\n' := by
    simpa [List.getLast?_append, List.getLast?_cons] using hstart
  obtain ⟨rfl, rfl, rfl⟩ := (getLast?_of_first h hlast).resolve_right hend
  simp [Spot.scrubbed, scrubPiece]

theorem mem_spotsFrom_append {ps qs : List Piece} {x : Spot} (hx : x ∈ spotsFrom front (ps ++ qs)) :
    (∃ y ∈ spotsFrom front ps, y.front = x.front ∧ y.piece = x.piece) ∨
      x ∈ spotsFrom (front ++ ps.flatMap Piece.text) qs := by
  induction ps generalizing front with
  | nil => exact .inr (by simpa using hx)
  | cons p ps ih =>
    rcases List.mem_cons.1 hx with rfl | hx
    · exact .inl ⟨_, List.mem_cons_self, rfl, rfl⟩
    · rcases ih hx with ⟨y, hy, hyx⟩ | hx
      · exact .inl ⟨y, List.mem_cons_of_mem _ hy, hyx⟩
      · exact .inr (by simpa using hx)

theorem flatMap_text_map (blanks : List Char) :
    (blanks.map fun d => (⟨.other, [d]⟩ : Piece)).flatMap Piece.text = blanks := by
  induction blanks with
  | nil => rfl
  | cons d blanks ih => simp [ih]

theorem text_remains (x : Spot) : x.remains.flatMap Piece.text = x.scrubbed := by
  obtain ⟨front, ⟨kind, text⟩, rear⟩ := x
  let x : Spot := ⟨front, ⟨kind, text⟩, rear⟩
  change x.remains.flatMap Piece.text = x.scrubbed
  cases kind with
  | blockComment =>
    have hremains : x.remains =
        (' ' :: text.filter (· == '\n')).map fun d => (⟨.other, [d]⟩ : Piece) := rfl
    rw [hremains, flatMap_text_map]
    rfl
  | lineComment =>
    have hremains : x.remains = if x.startsLine then [x.piece] else [] := rfl
    have hscrubbed : x.scrubbed = if x.front.getLast? = none ∨ x.front.getLast? = some '\n'
        then text else [] := rfl
    simp only [hremains, hscrubbed, ← startsLine_iff]
    split <;> simp [x]
  | name =>
    have hremains : x.remains = [if x.isSyntheticType then ⟨.name, placeholder⟩ else x.piece] := rfl
    have hscrubbed : x.scrubbed = if x.isSyntheticType then placeholder else text := rfl
    rw [hremains, hscrubbed]
    split <;> simp [x]
  | literal => simp [x, Spot.remains, Spot.retyped, Spot.isSyntheticType, Spot.scrubbed, scrubPiece]
  | other => simp [x, Spot.remains, Spot.retyped, Spot.isSyntheticType, Spot.scrubbed, scrubPiece]

theorem piece_spotsFrom (front : List Char) (ps : List Piece) :
    (spotsFrom front ps).map Spot.piece = ps := by
  induction ps generalizing front with
  | nil => rfl
  | cons p ps ih => exact congrArg (p :: ·) (ih _)

/-- What remains of a comment that is no heading is blank. -/
theorem isToken_of_mem_remains {x : Spot} {p : Piece} (hcomment : x.piece.isComment = true)
    (hheading : x.isHeading = false) (hp : p ∈ x.remains) :
    p.kind = .other ∧ p.isToken = false := by
  obtain ⟨front, ⟨kind, text⟩, rear⟩ := x
  let x : Spot := ⟨front, ⟨kind, text⟩, rear⟩
  change p ∈ x.remains at hp
  cases kind with
  | blockComment =>
    have hp : p ∈ (' ' :: text.filter (· == '\n')).map fun d => (⟨.other, [d]⟩ : Piece) := hp
    obtain ⟨d, hd, rfl⟩ := List.mem_map.1 hp
    refine ⟨rfl, ?_⟩
    rcases List.mem_cons.1 hd with rfl | hd
    · decide
    · cases (by simpa using (List.mem_filter.1 hd).2 : d = '\n')
      decide
  | lineComment =>
    have hremains : x.remains = if x.startsLine then [x.piece] else [] := rfl
    have hstart : x.startsLine = false := hheading
    simp [hremains, hstart] at hp
  | name | literal | other => cases hcomment

theorem remains_of_isHeading {x : Spot} (h : x.isHeading = true) : x.remains = [x.piece] := by
  obtain ⟨hkind, hstart⟩ : x.piece.kind = .lineComment ∧ x.startsLine = true := by
    simpa [Spot.isHeading] using h
  simp [Spot.remains, hkind, hstart]

theorem remains_of_not_comment {x : Spot} (h : x.piece.isComment = false) : x.remains = [x.retyped] := by
  obtain ⟨front, ⟨kind, text⟩, rear⟩ := x
  cases kind <;> first | rfl | cases h

theorem kind_of_isSyntheticType {x : Spot} (h : x.isSyntheticType = true) : x.piece.kind = .name := by
  simp only [Spot.isSyntheticType, Bool.and_eq_true, beq_iff_eq] at h
  exact h.1.1.1

theorem kind_retyped (x : Spot) : x.retyped.kind = x.piece.kind := by
  unfold Spot.retyped
  split
  · next h => exact (kind_of_isSyntheticType h).symm
  · rfl

theorem retyped_of_literal {x : Spot} (h : x.piece.kind = .literal) : x.retyped = x.piece := by
  simp [Spot.retyped, Spot.isSyntheticType, h]

theorem isComment_eq_of_kind {p q : Piece} (h : p.kind = q.kind) : p.isComment = q.isComment := by
  simp [Piece.isComment, h]

/-- The only comment that remains of a piece is the piece, if that is a heading. -/
theorem isHeading_of_mem_remains {x : Spot} {p : Piece} (hp : p ∈ x.remains)
    (hcomment : p.isComment = true) : x.isHeading = true := by
  refine Decidable.byContradiction fun hheading => ?_
  cases hx : x.piece.isComment with
  | true =>
    have hkind := (isToken_of_mem_remains hx (Bool.eq_false_iff.2 hheading) hp).1
    simp [Piece.isComment, hkind] at hcomment
  | false =>
    rw [remains_of_not_comment hx, List.mem_singleton] at hp
    rw [hp, isComment_eq_of_kind (kind_retyped x), hx] at hcomment
    cases hcomment

/-- All comments of a scrubbed text begin in the first column. -/
theorem isHeading_of_scrubFrom {x : Spot} (hlined : Lined front front' s)
    (hx : x ∈ spotsFrom front' (pieces (scrubFrom front s))) (hcomment : x.piece.isComment = true) :
    x.isHeading = true := by
  induction s using induction_pieces generalizing front front' with
  | nil => cases hx
  | append c w t kind h ih =>
    rw [scrubFrom_append h, pieces_scrubbed h (alike_scrubFrom _ t)] at hx
    rcases mem_spotsFrom_append hx with ⟨y, hy, hfront, hpiece⟩ | hx
    · have hremains : x.piece ∈ (spot front kind c w t).remains := by
        rw [← piece_spotsFrom front' (spot front kind c w t).remains, ← hpiece]
        exact List.mem_map_of_mem hy
      have hheading := isHeading_of_mem_remains hremains hcomment
      rw [remains_of_isHeading hheading] at hy
      cases List.mem_singleton.1 hy
      -- the comment begins in the first column behind `front`, hence behind `front'` too
      obtain ⟨rfl, hstart⟩ : kind = .lineComment ∧ front.getLast?.all (· == '\n') = true := by
        simpa [Spot.isHeading, Spot.startsLine] using hheading
      obtain rfl : c = '/' := by simpa using kind_cases h
      have hend : ¬AtLineEnd ('/' :: (w ++ t)) := by simp [AtLineEnd]
      have hstart' := hlined hend hstart
      simp only [Spot.isHeading, Spot.startsLine, ← hpiece, ← hfront, hstart']
      rfl
    · rw [text_remains] at hx
      exact ih (Lined.append h) hx

/-- A choice among what remains of the pieces is a choice among the pieces. -/
theorem filter_flatMap_remains {p : Piece → Bool} {q : Spot → Bool} {f : Spot → Piece} {xs : List Spot}
    (h : ∀ x, x.remains.filter p = if q x then [f x] else []) :
    (xs.flatMap Spot.remains).filter p = (xs.filter q).map f := by
  induction xs with
  | nil => rfl
  | cons x xs ih =>
    rw [List.flatMap_cons, List.filter_append, h, ih, List.filter_cons]
    split <;> rfl

/-- What passes neither blanks nor comments chooses among the pieces, retyped. -/
theorem filter_remains {p : Piece → Bool} (x : Spot)
    (hblank : ∀ q, q.kind = .other → q.isToken = false → p q = false)
    (hcomment : x.piece.isComment = true → p x.piece = false) (hretyped : p x.retyped = p x.piece) :
    x.remains.filter p = if p x.piece then [x.retyped] else [] := by
  cases hx : x.piece.isComment with
  | false =>
    rw [remains_of_not_comment hx, ← hretyped]
    exact List.filter_cons
  | true =>
    rw [hcomment hx, List.filter_eq_nil_iff.2 fun q hq => ?_]
    · rfl
    · cases hheading : x.isHeading with
      | true =>
        rw [remains_of_isHeading hheading, List.mem_singleton] at hq
        rw [hq, hcomment hx]
        exact Bool.false_ne_true
      | false =>
        obtain ⟨hkind, htoken⟩ := isToken_of_mem_remains hx hheading hq
        rw [hblank q hkind htoken]
        exact Bool.false_ne_true

theorem isToken_of_name {p : Piece} (h : p.kind = .name) : p.isToken = true := by
  rw [Piece.isToken, Piece.isComment, h]
  rfl

theorem isToken_retyped (x : Spot) : x.retyped.isToken = x.piece.isToken := by
  unfold Spot.retyped
  split
  · next h => rw [isToken_of_name rfl, isToken_of_name (kind_of_isSyntheticType h)]
  · rfl

theorem filter_isToken_remains (x : Spot) :
    x.remains.filter Piece.isToken = if x.piece.isToken then [x.retyped] else [] :=
  filter_remains x (fun _ _ htoken => htoken) (fun hcomment => by simp [Piece.isToken, hcomment])
    (isToken_retyped x)

theorem filter_literal_remains (x : Spot) : x.remains.filter (fun p => p.kind == .literal) =
    if x.piece.kind == .literal then [x.piece] else [] := by
  rw [filter_remains x (fun q hkind _ => by rw [hkind]; rfl)]
  · split
    · next hliteral => rw [retyped_of_literal (by simpa using hliteral)]
    · rfl
  · intro hcomment
    cases hkind : x.piece.kind <;> simp [Piece.isComment, hkind] at hcomment ⊢
  · rw [kind_retyped]

theorem filter_isComment_remains (x : Spot) :
    x.remains.filter Piece.isComment = if x.isHeading then [x.piece] else [] := by
  cases hheading : x.isHeading with
  | true =>
    have hkind : x.piece.kind = .lineComment := by
      simp only [Spot.isHeading, Bool.and_eq_true, beq_iff_eq] at hheading
      exact hheading.1
    simp [remains_of_isHeading hheading, Piece.isComment, hkind]
  | false =>
    refine List.filter_eq_nil_iff.2 fun p hp hcomment => ?_
    rw [isHeading_of_mem_remains hp hcomment] at hheading
    cases hheading

end

/-! ## The pieces of a scrubbed text -/

/-- What a scrubbed text is made of. -/
structure Rescanned (s out : List Char) : Prop where
  tokens : (pieces out).filter Piece.isToken =
    ((spots s).filter fun x => x.piece.isToken).map Spot.retyped
  comments : (pieces out).filter Piece.isComment =
    ((spots s).filter Spot.isHeading).map Spot.piece
  headings : ∀ x ∈ spots out, x.piece.isComment = true → x.isHeading = true
  literals : (pieces out).filter (fun p => p.kind == .literal) =
    (pieces s).filter fun p => p.kind == .literal

theorem isHeading_of_scrub (s : List Char) :
    ∀ x ∈ spots (scrub s), x.piece.isComment = true → x.isHeading = true := by
  intro x hx hcomment
  have hlined : Lined [] [] s := fun _ hstart => hstart
  exact isHeading_of_scrubFrom hlined hx hcomment

/-- **Scrubbing keeps the tokens of a text.** -/
theorem rescanned_scrub (s : List Char) : Rescanned s (scrub s) := by
  have hpieces : pieces (scrub s) = (spots s).flatMap Spot.remains := pieces_scrubFrom [] s
  refine ⟨?_, ?_, isHeading_of_scrub s, ?_⟩
  · rw [hpieces, filter_flatMap_remains filter_isToken_remains]
  · rw [hpieces, filter_flatMap_remains filter_isComment_remains]
  · rw [hpieces, filter_flatMap_remains filter_literal_remains,
      ← piece_spotsFrom [] (pieces s), List.filter_map]
    rfl

end Testwright.Java.Scrub
