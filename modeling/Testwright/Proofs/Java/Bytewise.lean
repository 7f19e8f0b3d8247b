import Testwright.Java.Cursor
import Testwright.Proofs.Java.Scrubbing
import Testwright.Proofs.Text.Slicing

/-!
# Scans over bytes

What a scan does at a byte depends on characters of ASCII only, and it passes all bytes beyond ASCII
(`Moves.Bytewise`). So an index that an escape has moved into a character goes on to the end of the character, and a
scan over the bytes of a text ends between two characters, behind those that a scan over characters takes
(`scanEnd_eq`). The first piece of a text is therefore cut off its bytes as it is cut off the text (`pieceAt_eq`).
-/

namespace Testwright.Java.Scrub

open Utf8

variable {moves : Moves} {bytes u rest : Bytes} {b : UInt8} {c : Char} {r s t w : List Char} {i n : Nat}

/-! ## Scans over bytes -/

/-- A scan tells characters apart from their bytes. -/
structure Moves.Bytewise (moves : Moves) : Prop where
  beyond : ∀ c r, 0x80 ≤ c.toNat → moves c r = .pass
  ahead : ∀ c r, moves c (units r) = moves c r
  /-- A scan ends behind characters of ASCII. -/
  stop : ∀ c r n, moves c r = .stop n → n ≤ r.length + 1 ∧ ∀ d ∈ (c :: r).take n, d.toNat < 0x80

/-- The number of characters that a scan over characters takes. -/
def scanLength (moves : Moves) : List Char → Nat
  | [] => 0
  | c :: r =>
    match moves c r with
    | .stop count => count
    | .pass => 1 + scanLength moves r
    | .escape =>
      match r with
      | [] => 1
      | _ :: r => 2 + scanLength moves r

theorem scanLength_stop (h : moves c r = .stop n) : scanLength moves (c :: r) = n := by
  rw [scanLength.eq_def]
  simp only [h]

theorem scanLength_pass (h : moves c r = .pass) : scanLength moves (c :: r) = 1 + scanLength moves r := by
  rw [scanLength.eq_def]
  simp only [h]

theorem scanLength_escape {d : Char} (h : moves c (d :: r) = .escape) :
    scanLength moves (c :: d :: r) = 2 + scanLength moves r := by
  rw [scanLength, h]

theorem scanEnd_nil (h : bytes.drop i = []) : scanEnd moves bytes i = bytes.length := by
  rw [scanEnd, dif_neg (Nat.not_lt.2 (List.drop_eq_nil_iff.1 h))]

theorem getElem_of_drop (h : bytes.drop i = b :: rest) : ∃ hlt : i < bytes.length, bytes[i] = b := by
  have hlt : i < bytes.length := by
    refine Nat.lt_of_not_le fun hle => ?_
    rw [List.drop_eq_nil_of_le hle] at h
    cases h
  rw [List.drop_eq_getElem_cons hlt] at h
  exact ⟨hlt, (List.cons.inj h).1⟩

theorem drop_add_of_drop (h : bytes.drop i = u ++ rest) : bytes.drop (i + u.length) = rest := by
  rw [← List.drop_drop, h, List.drop_left]

theorem drop_succ_of_drop (h : bytes.drop i = b :: rest) : bytes.drop (i + 1) = rest := drop_add_of_drop (u := [b]) h

theorem ahead_of_drop (h : bytes.drop i = b :: rest) : ahead bytes i = rest.map unit := by
  rw [ahead, drop_succ_of_drop h]

theorem scanEnd_cons (h : bytes.drop i = b :: rest) : scanEnd moves bytes i =
    match moves (unit b) (rest.map unit) with
    | .stop count => i + count
    | .pass => scanEnd moves bytes (i + 1)
    | .escape => scanEnd moves bytes (i + 2) := by
  obtain ⟨hlt, hb⟩ := getElem_of_drop h
  rewrite [scanEnd, dif_pos hlt, hb, ahead_of_drop h]
  rfl

/-- Bytes beyond ASCII are passed. -/
theorem scanEnd_beyond (hmoves : moves.Bytewise) (hu : ∀ b ∈ u, 0x80 ≤ b.toNat) (h : bytes.drop i = u ++ rest) :
    scanEnd moves bytes i = scanEnd moves bytes (i + u.length) := by
  induction u generalizing i with
  | nil => rfl
  | cons b u ih =>
    obtain ⟨hb, hu⟩ := List.forall_mem_cons.1 hu
    rw [List.cons_append] at h
    rw [scanEnd_cons h, hmoves.beyond _ _ (by rwa [toNat_unit])]
    dsimp only
    rw [ih hu (drop_succ_of_drop h), List.length_cons, Nat.add_assoc, Nat.add_comm 1]

/-- A scan does at a character of ASCII what it does at its byte. -/
theorem scanEnd_ascii (hmoves : moves.Bytewise) (hc : c.toNat < 0x80) (h : bytes.drop i = write (c :: r)) :
    scanEnd moves bytes i =
      match moves c r with
      | .stop count => i + count
      | .pass => scanEnd moves bytes (i + 1)
      | .escape => scanEnd moves bytes (i + 2) := by
  obtain ⟨b, hbytes, hb⟩ := encodeChar_ascii hc
  rw [write_cons, hbytes, List.singleton_append] at h
  rw [scanEnd_cons h, hb, ← units, hmoves.ahead]

theorem drop_write_cons (h : bytes.drop i = write (c :: r)) :
    bytes.drop (i + (String.utf8EncodeChar c).length) = write r :=
  drop_add_of_drop (h.trans write_cons)

theorem add_length_le (hi : i ≤ bytes.length) (h : bytes.drop i = u ++ rest) : i + u.length ≤ bytes.length := by
  have hlength := congrArg List.length h
  rw [List.length_drop, List.length_append] at hlength
  omega

/-- A character that is passed is passed with all of its bytes. -/
theorem scanEnd_pass (hmoves : moves.Bytewise) (h : bytes.drop i = write (c :: r)) (hpass : moves c r = .pass) :
    scanEnd moves bytes i = scanEnd moves bytes (i + (String.utf8EncodeChar c).length) := by
  rcases Nat.lt_or_ge c.toNat 0x80 with hc | hc
  · obtain ⟨b, hbytes, -⟩ := encodeChar_ascii hc
    rw [scanEnd_ascii hmoves hc h, hpass, hbytes]
    rfl
  · exact scanEnd_beyond hmoves (fun b hb => le_of_mem_encodeChar hc hb) (h.trans write_cons)

theorem ascii_of_ne_pass (hmoves : moves.Bytewise) (h : moves c r ≠ .pass) : c.toNat < 0x80 :=
  Nat.lt_of_not_le fun hc => h (hmoves.beyond c r hc)

/-- Of an escaped character the first byte is skipped, and the other ones are passed. -/
theorem scanEnd_escape {d : Char} (hmoves : moves.Bytewise) (h : bytes.drop i = write (c :: d :: r))
    (hescape : moves c (d :: r) = .escape) :
    scanEnd moves bytes i = scanEnd moves bytes (i + (write [c, d]).length) := by
  have hc : c.toNat < 0x80 := ascii_of_ne_pass hmoves (by rw [hescape]; nofun)
  obtain ⟨b, hb, -⟩ := encodeChar_ascii hc
  obtain ⟨lead, tail, hbytes, -, htail⟩ := exists_encodeChar d
  have hdrop : bytes.drop (i + 2) = tail ++ write r := by
    refine drop_add_of_drop (u := [b, lead]) ?_
    rw [h, write_cons, write_cons, hb, hbytes]
    rfl
  have hbeyond : ∀ b ∈ tail, 0x80 ≤ b.toNat := fun b hb => le_of_isContinuation (htail b hb)
  rw [scanEnd_ascii hmoves hc h, hescape]
  dsimp only
  rw [scanEnd_beyond hmoves hbeyond hdrop, write_cons, write_cons, hb, hbytes]
  simp [Nat.add_comm, Nat.add_left_comm]

/-- A scan over the bytes of a text ends behind the characters that a scan over characters takes. -/
theorem scanEnd_eq (hmoves : moves.Bytewise) (hi : i ≤ bytes.length) (h : bytes.drop i = write s) :
    scanEnd moves bytes i = i + (write (s.take (scanLength moves s))).length := by
  fun_induction scanLength moves s generalizing i with
  | case1 =>
    have hle := List.drop_eq_nil_iff.1 h
    rw [scanEnd_nil h]
    exact Nat.le_antisymm hle hi
  | case2 c r count hstop =>
    obtain ⟨hle, hascii⟩ := hmoves.stop c r count hstop
    have hc : c.toNat < 0x80 := ascii_of_ne_pass hmoves (by rw [hstop]; nofun)
    rw [scanEnd_ascii hmoves hc h, hstop, length_write_ascii hascii, List.length_take, List.length_cons,
      Nat.min_eq_left hle]
  | case3 c r hpass ih =>
    have hle := add_length_le hi (h.trans write_cons)
    rw [scanEnd_pass hmoves h hpass, ih hle (drop_write_cons h), Nat.add_comm 1, List.take_succ_cons, write_cons,
      List.length_append, Nat.add_assoc]
  | case4 c hescape =>
    have hc : c.toNat < 0x80 := ascii_of_ne_pass hmoves (by rw [hescape]; nofun)
    obtain ⟨b, hb, -⟩ := encodeChar_ascii hc
    have hlength := congrArg List.length h
    rw [List.length_drop, write_cons, hb] at hlength
    simp at hlength
    rw [scanEnd_ascii hmoves hc h, hescape]
    dsimp only
    rw [scanEnd_nil (List.drop_eq_nil_of_le (by omega)), List.take_succ_cons, write_cons, hb]
    simp
    omega
  | case5 c d r hescape ih =>
    have hwrite : write (c :: d :: r) = write [c, d] ++ write r := by rw [← write_append]; rfl
    have hle := add_length_le hi (h.trans hwrite)
    rw [scanEnd_escape hmoves h hescape, ih hle (drop_add_of_drop (h.trans hwrite)), Nat.add_comm 2,
      Nat.add_assoc, ← List.length_append, ← write_append]
    rfl

/-! ## The moves of all scans -/

theorem isNameStart_of_beyond (hc : 0x80 ≤ c.toNat) : isNameStart c = true := by
  simp [isNameStart, hc]

/-- Moves at texts of ASCII that do not end behind them. -/
structure Rowed (rows : List (List Char × Move)) : Prop where
  nonempty : ∀ row ∈ rows, row.1 ≠ []
  ascii : ∀ row ∈ rows, ∀ c ∈ row.1, c.toNat < 0x80
  stop : ∀ row ∈ rows, ∀ n, row.2 = .stop n → n ≤ row.1.length

/-- A move other than to pass is that of a text which stands there. -/
theorem movesAt_cases (rows : List (List Char × Move)) (c : Char) (r : List Char) :
    movesAt rows c r = .pass ∨ ∃ row ∈ rows, row.1 <+: c :: r ∧ movesAt rows c r = row.2 := by
  induction rows with
  | nil => exact .inl rfl
  | cons row rows ih =>
    obtain ⟨text, move⟩ := row
    rw [movesAt]
    split
    · next hprefix => exact .inr ⟨_, List.mem_cons_self, List.isPrefixOf_iff_prefix.1 hprefix, rfl⟩
    · exact ih.imp_right fun ⟨row, hrow, hmove⟩ => ⟨row, List.mem_cons_of_mem _ hrow, hmove⟩

theorem movesAt_pass {rows : List (List Char × Move)} (h : ∀ row ∈ rows, ¬row.1 <+: c :: r) :
    movesAt rows c r = .pass := by
  rcases movesAt_cases rows c r with hpass | ⟨row, hrow, hprefix, -⟩
  · exact hpass
  · exact absurd hprefix (h row hrow)

theorem Rowed.bytewise {rows : List (List Char × Move)} (h : Rowed rows) : (movesAt rows).Bytewise where
  beyond c r hc := by
    rcases movesAt_cases rows c r with hpass | ⟨row, hrow, hprefix, -⟩
    · exact hpass
    · obtain ⟨d, l, hd⟩ := List.exists_cons_of_ne_nil (h.nonempty row hrow)
      rw [hd, List.cons_prefix_cons] at hprefix
      exact absurd hprefix.1.symm (ne_of_beyond hc (h.ascii row hrow d (by rw [hd]; exact List.mem_cons_self)))
  ahead c r := by
    obtain ⟨hnonempty, hascii, -⟩ := h
    induction rows with
    | nil => rfl
    | cons row rows ih =>
      obtain ⟨hne, hothers⟩ := List.forall_mem_cons.1 hnonempty
      obtain ⟨htext, hlater⟩ := List.forall_mem_cons.1 hascii
      obtain ⟨text, move⟩ := row
      obtain ⟨d, t, rfl⟩ := List.exists_cons_of_ne_nil hne
      rw [movesAt, movesAt, List.isPrefixOf_cons_cons, List.isPrefixOf_cons_cons,
        isPrefixOf_units (List.forall_mem_cons.1 htext).2, ih hothers hlater]
  stop c r n hstop := by
    rcases movesAt_cases rows c r with hpass | ⟨row, hrow, hprefix, hmove⟩
    · cases hpass.symm.trans hstop
    · have hle := h.stop row hrow n (hmove.symm.trans hstop)
      obtain ⟨rest, hrest⟩ := hprefix
      refine ⟨Nat.le_trans hle ?_, fun d hd => ?_⟩
      · rw [← List.length_cons, ← hrest, List.length_append]
        exact Nat.le_add_right ..
      · rw [← hrest, List.take_append_of_le_length hle] at hd
        exact h.ascii row hrow d (List.mem_of_mem_take hd)

theorem any_isNameStart_units (r : List Char) : (units r).head?.any isNameStart = r.head?.any isNameStart := by
  cases r with
  | nil => rfl
  | cons d r =>
    rcases Nat.lt_or_ge d.toNat 0x80 with hd | hd
    · rw [units_ascii hd]
      rfl
    · obtain ⟨e, l, hunits, he⟩ := exists_units_beyond hd r
      rw [hunits]
      exact (isNameStart_of_beyond he).trans (isNameStart_of_beyond hd).symm

theorem bytewise_nameMoves : nameMoves.Bytewise where
  beyond c r hc := nameMoves_of_isNameStart (isNameStart_of_beyond hc) r
  ahead c r := by rw [nameMoves, nameMoves, any_isNameStart_units]
  stop c r n h := by
    unfold nameMoves at h
    split at h <;> cases h
    exact ⟨Nat.zero_le _, fun d hd => absurd hd (by simp)⟩

theorem bytewise_quotedMoves {q : Char} (hq : q.toNat < 0x80) : (quotedMoves q).Bytewise :=
  Rowed.bytewise ⟨by simp, by simp [hq], by simp⟩

theorem bytewise_textBlockMoves : textBlockMoves.Bytewise := Rowed.bytewise ⟨by simp, by simp, by simp⟩

theorem bytewise_blockMoves : blockMoves.Bytewise := Rowed.bytewise ⟨by simp, by simp, by simp⟩

theorem bytewise_lineMoves : lineMoves.Bytewise := Rowed.bytewise ⟨by simp, by simp, by simp⟩

/-! ## The characters that scans take -/

theorem scanLength_quotedMoves (quote : Char) (s : List Char) :
    scanLength (quotedMoves quote) s = quotedLength quote s := by
  have hmoves (c : Char) (r : List Char) : quotedMoves quote c r =
      if c = '\\' then .escape else if c = '\n' then .stop 0 else if c = quote then .stop 1 else .pass := by
    simp [quotedMoves, movesAt, @eq_comm _ _ c]
  fun_induction quotedLength quote s with
  | case1 | case2 => rfl
  | case3 d r ih => rw [scanLength_escape (hmoves ..), ih]
  | case4 r => exact scanLength_stop (hmoves ..)
  | case5 r hend hescape hline =>
    exact scanLength_stop (by rw [hmoves, if_neg (ne_of_not_escape hend hescape), if_neg hline, if_pos rfl])
  | case6 c r hend hescape hline hquote ih =>
    have hpass : quotedMoves quote c r = .pass := by
      rw [hmoves, if_neg (ne_of_not_escape hend hescape), if_neg hline, if_neg hquote]
    rw [scanLength_pass hpass, ih]

theorem scanLength_textBlockMoves (s : List Char) : scanLength textBlockMoves s = textBlockLength s := by
  fun_induction textBlockLength s with
  | case1 | case2 => rfl
  | case3 d r ih => rw [scanLength_escape rfl, ih]
  | case4 r => rfl
  | case5 c r hend hescape hquotes ih =>
    have hpass : textBlockMoves c r = .pass := by
      have hne := ne_of_not_escape hend hescape
      refine movesAt_pass (List.forall_mem_cons.2 ⟨fun h => ?_, List.forall_mem_singleton.2 fun h => ?_⟩)
      · exact hne (List.cons_prefix_cons.1 h).1.symm
      · obtain ⟨tail, htail⟩ := h
        obtain ⟨hc, hr⟩ := List.cons.inj htail
        exact hquotes tail hc.symm hr.symm
    rw [scanLength_pass hpass, ih]

theorem scanLength_blockMoves (s : List Char) : scanLength blockMoves s = blockLength s := by
  fun_induction blockLength s with
  | case1 | case2 r => rfl
  | case3 c r hclosed ih =>
    have hpass : blockMoves c r = .pass := by
      refine movesAt_pass (List.forall_mem_singleton.2 fun h => ?_)
      obtain ⟨tail, htail⟩ := h
      obtain ⟨hc, hr⟩ := List.cons.inj htail
      exact hclosed tail hc.symm hr.symm
    rw [scanLength_pass hpass, ih]

theorem scanLength_lineMoves (s : List Char) : scanLength lineMoves s = (s.takeWhile (· != '\n')).length := by
  induction s with
  | nil => rfl
  | cons c s ih =>
    by_cases hc : c = '\n'
    · subst hc
      rfl
    · have hpass : lineMoves c s = .pass := by simp [lineMoves, movesAt, Ne.symm hc]
      rw [scanLength_pass hpass, ih, List.takeWhile_cons_of_pos (by simpa using hc), List.length_cons, Nat.add_comm]

theorem scanLength_nameMoves (s : List Char) : scanLength nameMoves s = nameLength s := by
  have hpoint : isNameContinue '.' = false := by decide
  fun_induction nameLength s with
  | case1 => rfl
  | case2 c r h ih => rw [scanLength_pass (by simp [nameMoves, h]), ih]
  | case3 c r h => exact scanLength_stop (by simp [nameMoves, h, hpoint])
  | case4 c r _ h ih => rw [scanLength_pass (by simp [nameMoves, h]), ih]
  | case5 c r hcase h =>
    refine scanLength_stop ?_
    cases r with
    | nil => simp [nameMoves, h]
    | cons d r =>
      have hc : c ≠ '.' := fun hc => hcase d r hc rfl
      simp [nameMoves, h, hc]

/-! ## Pieces -/

theorem scanEnd_behind {p : List Char} (hmoves : moves.Bytewise) (hp : ∀ d ∈ p, d.toNat < 0x80) (hi : i ≤ bytes.length)
    (h : bytes.drop i = write (p ++ t)) :
    scanEnd moves bytes (i + p.length) = i + (write ((p ++ t).take (p.length + scanLength moves t))).length := by
  have hlength := length_write_ascii hp
  rw [write_append] at h
  have hle := add_length_le hi h
  have hdrop := drop_add_of_drop h
  rw [hlength] at hle hdrop
  rw [scanEnd_eq hmoves hle hdrop, List.take_length_add_append, write_append, List.length_append, hlength,
    Nat.add_assoc]

theorem ne_of_isNameStart (hc : isNameStart c = true) : c ≠ '"' ∧ c ≠ '\'' ∧ c ≠ '/' := by
  refine ⟨?_, ?_, ?_⟩ <;> rintro rfl <;> exact absurd hc (by decide)

theorem first_of_isNameStart (hc : isNameStart c = true) : first c r = (.name, 1 + nameLength r) := by
  obtain ⟨hquote, hapostrophe, hslash⟩ := ne_of_isNameStart hc
  unfold first
  rw [if_neg hquote, if_neg hapostrophe, if_neg hslash, if_pos hc]

theorem pieceAt_of_isNameStart (h : i < bytes.length) (hc : isNameStart (unit bytes[i]) = true) :
    pieceAt bytes i h = (.name, scanEnd nameMoves bytes i) := by
  obtain ⟨hquote, hapostrophe, hslash⟩ := ne_of_isNameStart hc
  unfold pieceAt
  split <;> first | contradiction | rw [if_pos hc]

theorem isNameStart_of_drop (h : i < bytes.length) (hdrop : bytes.drop i = write (c :: r)) (hc : isNameStart c = true) :
    isNameStart (unit bytes[i]) = true := by
  rw [List.drop_eq_getElem_cons h] at hdrop
  have hunits : units (c :: r) = unit bytes[i] :: (bytes.drop (i + 1)).map unit := by
    rw [units, ← hdrop, List.map_cons]
  have hhead := any_isNameStart_units (c :: r)
  rw [hunits] at hhead
  exact hhead.trans hc

theorem first_other (hc : isNameStart c ≠ true) (hquote : c ≠ '"') (hapostrophe : c ≠ '\'')
    (hblock : c = '/' → r.head? ≠ some '*') (hline : c = '/' → r.head? ≠ some '/') : first c r = (.other, 1) := by
  by_cases hslash : c = '/'
  · rw [hslash, first_slash (hblock hslash) (hline hslash)]
  · unfold first
    rw [if_neg hquote, if_neg hapostrophe, if_neg hslash, if_neg hc]

/-- The first piece of a text takes the bytes of its characters. -/
theorem pieceAt_eq (h : i < bytes.length) (hdrop : bytes.drop i = write (c :: r)) :
    pieceAt bytes i h = ((first c r).1, i + (write ((c :: r).take (first c r).2)).length) := by
  by_cases hstart : isNameStart c = true
  · rw [pieceAt_of_isNameStart h (isNameStart_of_drop h hdrop hstart), first_of_isNameStart hstart,
      scanEnd_eq bytewise_nameMoves (Nat.le_of_lt h) hdrop, scanLength_nameMoves,
      nameLength_cons (isNameContinue_of_isNameStart hstart)]
  · have hc : c.toNat < 0x80 := Nat.lt_of_not_le fun hc => hstart (isNameStart_of_beyond hc)
    obtain ⟨b, hbytes, hb⟩ := encodeChar_ascii hc
    have hcons : bytes.drop i = b :: write r := by rw [hdrop, write_cons, hbytes, List.singleton_append]
    obtain ⟨_, hget⟩ := getElem_of_drop hcons
    unfold pieceAt
    rw [hget, hb, ahead_of_drop hcons, ← units]
    split
    · next tail htail =>
      obtain ⟨r, rfl⟩ := exists_of_units (p := ['"', '"']) (by decide) htail
      have hend := scanEnd_behind (p := ['"', '"', '"']) bytewise_textBlockMoves (by decide) (Nat.le_of_lt h) hdrop
      rw [scanLength_textBlockMoves] at hend
      exact congrArg (Prod.mk _) hend
    · next hblock =>
      have hquotes : ∀ r', r ≠ '"' :: '"' :: r' := by
        rintro r' rfl
        exact hblock (units r') (by rw [units_ascii (by decide), units_ascii (by decide)])
      have hend := scanEnd_behind (p := ['"']) (bytewise_quotedMoves (q := '"') (by decide)) (by decide)
        (Nat.le_of_lt h) hdrop
      rw [scanLength_quotedMoves] at hend
      rw [first_string hquotes]
      exact congrArg (Prod.mk _) hend
    · have hend := scanEnd_behind (p := ['\'']) (bytewise_quotedMoves (q := '\'') (by decide)) (by decide)
        (Nat.le_of_lt h) hdrop
      rw [scanLength_quotedMoves] at hend
      exact congrArg (Prod.mk _) hend
    · next tail htail =>
      obtain ⟨r, rfl⟩ := exists_of_units (p := ['*']) (by decide) htail
      have hend := scanEnd_behind (p := ['/', '*']) bytewise_blockMoves (by decide) (Nat.le_of_lt h) hdrop
      rw [scanLength_blockMoves] at hend
      exact congrArg (Prod.mk _) hend
    · next tail htail =>
      obtain ⟨r, rfl⟩ := exists_of_units (p := ['/']) (by decide) htail
      have hend := scanEnd_eq bytewise_lineMoves (Nat.le_of_lt h) hdrop
      rw [scanLength_pass rfl, List.singleton_append, scanLength_pass rfl, scanLength_lineMoves,
        ← Nat.add_assoc] at hend
      exact congrArg (Prod.mk _) hend
    · next hquote hapostrophe hdouble hblock hline =>
      have hother := first_other hstart hquote hapostrophe
        (fun hc hr => (exists_units_of_head? (by decide) hr).elim fun tail => hblock tail hc)
        (fun hc hr => (exists_units_of_head? (by decide) hr).elim fun tail => hline tail hc)
      rw [if_neg hstart, hother, List.take_succ_cons, List.take_zero, write_cons, hbytes]
      rfl

end Testwright.Java.Scrub
