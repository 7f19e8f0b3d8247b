import Testwright.Proofs.Java.Bytewise
import Testwright.Proofs.Java.Cleaning

/-!
# Scrubbing byte by byte

A cursor always stands between two pieces of the text, and what has been copied for it, together with what is
pending, is what scrubbing leaves of the pieces in front of it (`Stands`). Each iteration passes one piece
(`Stands.next`), so a run comes to the end of the text and leaves the scrubbed text (`scrubBytes?_encode`).
-/

namespace Testwright.Java.Scrub

open Utf8

variable {bytes : Bytes} {c : Char} {s t w : List Char} {n : Nat}

/-! ## The characters around a piece -/

/-- What a byte shows of a character, or of an end of the text: a character of ASCII, else only that it is none. -/
inductive Shows : Option Char → Option Char → Prop
  | same (o) : Shows o o
  | beyond {d e} (hd : 0x80 ≤ d.toNat) (he : 0x80 ≤ e.toNat) : Shows (some d) (some e)

/-- What tells characters of ASCII only is told by a byte. -/
theorem Shows.congr {o o' : Option Char} {p : Option Char → Bool} (h : Shows o o')
    (hp : ∀ d, 0x80 ≤ d.toNat → p (some d) = false) : p o = p o' := by
  cases h with
  | same => rfl
  | beyond hd he => rw [hp _ hd, hp _ he]

theorem isAsciiBlank_of_beyond (hc : 0x80 ≤ c.toNat) : Text.isAsciiBlank c = false := by
  have hne : ∀ d ∈ [' ', '\t', '\n', '\x0c', '\r'], c ≠ d := fun d hd =>
    ne_of_beyond hc ((by decide : ∀ d ∈ [' ', '\t', '\n', '\x0c', '\r'], d.toNat < 0x80) d hd)
  simp only [List.forall_mem_cons] at hne
  simp [Text.isAsciiBlank, hne]

theorem typeMayFollow_of_beyond (hc : 0x80 ≤ c.toNat) : typeMayFollow (some c) = false := by
  simp [typeMayFollow, isAsciiBlank_of_beyond hc, ne_of_beyond hc (d := '(') (by decide),
    ne_of_beyond hc (d := ',') (by decide)]

theorem typeMayPrecede_of_beyond (hc : 0x80 ≤ c.toNat) : typeMayPrecede (some c) = false := by
  simp [typeMayPrecede, isAsciiBlank_of_beyond hc, ne_of_beyond hc (d := ',') (by decide),
    ne_of_beyond hc (d := ';') (by decide), ne_of_beyond hc (d := ')') (by decide)]

theorem shows_before? (front rest : List Char) :
    Shows (Cursor.before? (write (front ++ rest)) (write front).length) front.getLast? := by
  rcases List.eq_nil_or_concat' front with rfl | ⟨front, d, rfl⟩
  · exact .same none
  · obtain ⟨lead, tail, hbytes, -⟩ := exists_encodeChar d
    obtain ⟨init, last, hlast⟩ := (List.eq_nil_or_concat' (String.utf8EncodeChar d)).resolve_left (by simp [hbytes])
    have hwrite : write (front ++ [d]) = (write front ++ init) ++ [last] := by
      rw [write_append, write_cons, hlast, write_nil, List.append_nil, List.append_assoc]
    have hbefore : Cursor.before? (write (front ++ [d] ++ rest)) (write (front ++ [d])).length = some (unit last) := by
      rw [write_append (s := front ++ [d]), hwrite, Cursor.before?, List.length_append, List.length_singleton,
        Nat.add_sub_cancel]
      simp
    rw [hbefore, List.getLast?_concat]
    rcases Nat.lt_or_ge d.toNat 0x80 with hd | hd
    · obtain ⟨b, hb, hunit⟩ := encodeChar_ascii hd
      obtain rfl : b = last := by
        rw [hb] at hlast
        simpa using congrArg List.getLast? hlast
      rw [hunit]
      exact .same _
    · refine .beyond ?_ hd
      rw [toNat_unit]
      exact le_of_mem_encodeChar hd (by simp [hlast])

theorem shows_head? (front rest : List Char) :
    Shows ((write (front ++ rest))[(write front).length]?.map unit) rest.head? := by
  rw [write_append, List.getElem?_append_right (Nat.le_refl _), Nat.sub_self]
  cases rest with
  | nil => exact .same none
  | cons c rest =>
    rcases Nat.lt_or_ge c.toNat 0x80 with hc | hc
    · obtain ⟨b, hbytes, hb⟩ := encodeChar_ascii hc
      rw [write_cons, hbytes, List.singleton_append, List.getElem?_cons_zero, Option.map_some, hb]
      exact .same _
    · obtain ⟨lead, tail, hbytes, -⟩ := exists_encodeChar c
      rw [write_cons, hbytes, List.cons_append, List.getElem?_cons_zero, Option.map_some]
      refine .beyond ?_ hc
      rw [toNat_unit]
      exact le_of_mem_encodeChar hc (by rw [hbytes]; exact List.mem_cons_self)

/-! ## Iterations -/

/-- A cursor stands in a text, with some characters pending in front of it. What has been copied, what is pending and
what scrubbing leaves of the rest make up the scrubbed text. -/
structure Stands (s done pending rest : List Char) (c : Cursor) : Prop where
  text : s = done ++ (pending ++ rest)
  copied : c.copied = (write done).length
  index : c.index = (write (done ++ pending)).length
  out : c.out.toList ++ (pending ++ scrubFrom (done ++ pending) rest) = scrub s

variable {done pending : List Char} {a : Char} {cur : Cursor} {kind : PieceKind}

theorem scrubFrom_nil (front : List Char) : scrubFrom front [] = [] := rfl

theorem stands_start (s : List Char) : Stands s [] [] s .start := ⟨rfl, rfl, rfl, rfl⟩

section
variable {stop : Nat} (h : Stands s done pending (a :: (w ++ t)) cur)
  (hstop : stop = (write (done ++ (pending ++ a :: w))).length)
include h

theorem Stands.text_front : s = (done ++ pending) ++ (a :: (w ++ t)) := by rw [h.text, List.append_assoc]

theorem Stands.shows_before : Shows (Cursor.before? (write s) cur.index) (done ++ pending).getLast? := by
  rw [h.text_front, h.index]
  exact shows_before? ..

include hstop

theorem Stands.shows_behind : Shows ((write s)[stop]?.map unit) t.head? := by
  rw [h.text_front, hstop, ← List.append_assoc, ← List.cons_append, ← List.append_assoc]
  exact shows_head? ..

theorem Stands.between_piece : between? (write s) cur.index stop = some (write (a :: w)) := by
  rw [h.text_front, h.index, hstop, ← List.append_assoc, ← List.cons_append, between?_write]

theorem Stands.slice_piece : slice? (write s) cur.index stop = some (.ofList (a :: w)) := by
  rw [h.text_front, h.index, hstop, ← List.append_assoc, ← List.cons_append, slice?_write]

variable (hfirst : first a (w ++ t) = (kind, w.length + 1))
include hfirst

theorem Stands.pieceAt_eq (hlt : cur.index < (write s).length) : pieceAt (write s) cur.index hlt = (kind, stop) := by
  have hdrop : (write s).drop cur.index = write (a :: (w ++ t)) := by
    rw [h.text_front, write_append, h.index, List.drop_left]
  rw [Scrub.pieceAt_eq hlt hdrop, hfirst, h.index, hstop, ← List.append_assoc, write_append (r := a :: w),
    List.length_append, List.take_succ_cons, List.take_left]

/-- A piece that scrubbing keeps is passed and stays pending. -/
theorem Stands.skip (hkept : (spot (done ++ pending) kind a w t).scrubbed = a :: w) :
    Stands s done (pending ++ a :: w) t (cur.skip stop) where
  text := by rw [h.text]; simp
  copied := h.copied
  index := hstop
  out := by
    have hout := h.out
    rw [scrubFrom_append hfirst, hkept] at hout
    simpa [Cursor.skip] using hout

/-- In the place of any other piece what scrubbing leaves of it is put, behind what was pending. -/
theorem Stands.replace {text : List Char} (hleft : (spot (done ++ pending) kind a w t).scrubbed = text) :
    ∃ c', cur.replace? (write s) stop (.ofList text) = some c' ∧ ∃ done' pending', Stands s done' pending' t c' := by
  have hslice : slice? (write s) cur.copied cur.index = some (.ofList pending) := by
    rw [h.text, h.copied, h.index, slice?_write]
  rw [Cursor.replace?, hslice]
  refine ⟨_, rfl, done ++ (pending ++ a :: w), [], by rw [h.text]; simp, hstop, by simp [hstop], ?_⟩
  have hout := h.out
  rw [scrubFrom_append hfirst, hleft] at hout
  simpa using hout

end

/-- An iteration passes one piece. -/
theorem Stands.next (h : Stands s done pending (a :: (w ++ t)) cur)
    (hfirst : first a (w ++ t) = (kind, w.length + 1)) (hlt : cur.index < (write s).length) :
    ∃ c', cur.next? (write s) hlt = some c' ∧ ∃ done' pending', Stands s done' pending' t c' := by
  obtain ⟨stop, hstop⟩ : ∃ stop, stop = (write (done ++ (pending ++ a :: w))).length := ⟨_, rfl⟩
  have hscrubbed : (spot (done ++ pending) kind a w t).scrubbed =
      scrubPiece (done ++ pending).getLast? t.head? ⟨kind, a :: w⟩ := rfl
  unfold Cursor.next?
  rw [h.pieceAt_eq hstop hfirst]
  cases kind with
  | blockComment =>
    dsimp only
    rw [h.between_piece hstop, Option.bind_some, ← units, filter_units]
    exact h.replace hstop hfirst rfl
  | lineComment =>
    have hstarts := startsLine_iff (x := spot (done ++ pending) .lineComment a w t)
    dsimp only
    rw [h.shows_before.congr (p := fun o => o.all (· == '\n'))
      fun d hd => beq_false_of_ne (ne_of_beyond hd (by decide))]
    split
    · next hline => exact ⟨_, rfl, _, _, h.skip hstop hfirst (hscrubbed.trans (if_pos (hstarts.1 hline)))⟩
    · next hline => exact h.replace hstop hfirst (hscrubbed.trans (if_neg fun hstart => hline (hstarts.2 hstart)))
  | name =>
    dsimp only
    rw [h.slice_piece hstop, Option.bind_some, h.shows_before.congr fun d hd => typeMayFollow_of_beyond hd,
      (h.shows_behind hstop).congr fun d hd => typeMayPrecede_of_beyond hd, String.toList_ofList]
    split
    · next hsynthetic => exact h.replace hstop hfirst (hscrubbed.trans (if_pos hsynthetic))
    · next hkept => exact ⟨_, rfl, _, _, h.skip hstop hfirst (hscrubbed.trans (if_neg hkept))⟩
  | literal | other => exact ⟨_, rfl, _, _, h.skip hstop hfirst hscrubbed⟩

/-! ## Runs -/

namespace Cursor

/-- The cursors of a run, each with the number of iterations in front of it. -/
inductive Reached (bytes : Bytes) : Nat → Cursor → Prop
  | start : Reached bytes 0 .start
  | next {n c c'} (reached : Reached bytes n c) (h : c.index < bytes.length) (hnext : c.next? bytes h = some c') :
    Reached bytes (n + 1) c'

/-- A cursor that stands between characters, and that an iteration moves forward. -/
structure Safe (bytes : Bytes) (c : Cursor) : Prop where
  copied_le : c.copied ≤ c.index
  index_le : c.index ≤ bytes.length
  copied : isBoundary bytes c.copied = true
  index : isBoundary bytes c.index = true
  next : ∀ h : c.index < bytes.length, ∃ c', c.next? bytes h = some c' ∧ c.index < c'.index

variable {c c' : Cursor}

theorem Reached.le_index (h : Reached bytes n c) : n ≤ c.index := by
  induction h with
  | start => exact Nat.le_refl 0
  | next reached h hnext ih => exact Nat.succ_le_of_lt (Nat.lt_of_le_of_lt ih (index_lt_of_next? hnext))

theorem run?_of_next? {h : c.index < bytes.length} (hnext : c.next? bytes h = some c') :
    c.run? bytes = c'.run? bytes := by
  rw [run?, dif_pos h]
  split
  · next heq =>
    cases heq.symm.trans hnext
    rfl
  · next heq => cases heq.symm.trans hnext

theorem Reached.run?_eq (h : Reached bytes n c) : c.run? bytes = scrubBytes? bytes := by
  induction h with
  | start => rfl
  | next reached h hnext ih => rw [← ih, run?_of_next? hnext]

end Cursor

theorem Stands.length_eq (h : Stands s done pending t cur) : (write s).length = cur.index + (write t).length := by
  rw [h.text, h.index, ← List.append_assoc, write_append, List.length_append]

/-- Where text is left, there is an iteration, and the cursor still stands in the text behind it. -/
theorem Stands.exists_next (h : Stands s done pending t cur) (hlt : cur.index < (write s).length) :
    ∃ c', cur.next? (write s) hlt = some c' ∧ ∃ done' pending' t', Stands s done' pending' t' c' := by
  cases t with
  | nil =>
    rw [h.length_eq, write_nil, List.length_nil, Nat.add_zero] at hlt
    exact absurd hlt (Nat.lt_irrefl _)
  | cons a r =>
    obtain ⟨kind, w, t, rfl, hfirst⟩ := exists_first a r
    obtain ⟨c', hnext, done', pending', hstands⟩ := h.next hfirst hlt
    exact ⟨c', hnext, done', pending', t, hstands⟩

theorem exists_stands (h : Cursor.Reached (write s) n cur) : ∃ done pending t, Stands s done pending t cur := by
  induction h with
  | start => exact ⟨[], [], s, stands_start s⟩
  | next reached hlt hnext ih =>
    obtain ⟨done, pending, t, hstands⟩ := ih
    obtain ⟨c', hnext', done', pending', t', hstands'⟩ := hstands.exists_next hlt
    cases hnext.symm.trans hnext'
    exact ⟨done', pending', t', hstands'⟩

theorem Stands.safe (h : Stands s done pending t cur) : cur.Safe (write s) where
  copied_le := by
    rw [h.copied, h.index, write_append, List.length_append]
    exact Nat.le_add_right ..
  index_le := by
    rw [h.length_eq]
    exact Nat.le_add_right ..
  copied := by
    rw [h.text, h.copied]
    exact isBoundary_length ..
  index := by
    rw [h.text, h.index, ← List.append_assoc]
    exact isBoundary_length ..
  next hlt := by
    obtain ⟨c', hnext, -⟩ := h.exists_next hlt
    exact ⟨c', hnext, Cursor.index_lt_of_next? hnext⟩

/-- A run comes to the end of the text. -/
theorem Stands.exists_end (h : Stands s done pending t cur) (hreached : Cursor.Reached (write s) n cur) :
    ∃ n' c' done' pending', Cursor.Reached (write s) n' c' ∧ Stands s done' pending' [] c' := by
  induction t using induction_pieces generalizing done pending cur n with
  | nil => exact ⟨n, cur, done, pending, hreached, h⟩
  | append a w t kind hfirst ih =>
    have hlt : cur.index < (write s).length := by
      rw [h.length_eq]
      exact Nat.lt_add_of_pos_right (List.length_pos_iff.2 fun hnil => List.cons_ne_nil _ _ (write_eq_nil.1 hnil))
    obtain ⟨c', hnext, done', pending', hstands⟩ := h.next hfirst hlt
    exact ih hstands (hreached.next hlt hnext)

/-- At the end what is pending is copied. -/
theorem Stands.run?_eq (h : Stands s done pending [] cur) : cur.run? (write s) = some (.ofList (scrub s)) := by
  have hlength := h.length_eq
  rw [write_nil, List.length_nil, Nat.add_zero] at hlength
  have hslice : slice? (write s) cur.copied (write s).length = some (.ofList pending) := by
    rw [hlength, h.text, h.copied, h.index, slice?_write]
  have hout : cur.out.toList ++ pending = scrub s := by rw [← h.out, scrubFrom_nil, List.append_nil]
  rw [Cursor.run?, dif_neg (by rw [hlength]; exact Nat.lt_irrefl _), hslice, Option.map_some, ← hout,
    String.ofList_append, String.ofList_toList]

/-- **Scrubbing byte by byte.** Wherever a cursor comes to stand in the bytes of a text, it stands between two
characters and does not fail to move forward, so at the latest after as many iterations as there are bytes it is at
their end. What it leaves is the scrubbed text. -/
theorem scrubBytes?_encode (s : String) :
    (∀ n c, Cursor.Reached (encode s) n c → n ≤ c.index ∧ c.Safe (encode s)) ∧
      (∀ start stop, (slice? (encode s) start stop).isSome = true ↔ start ≤ stop ∧ stop ≤ (encode s).length ∧
        isBoundary (encode s) start = true ∧ isBoundary (encode s) stop = true) ∧
      (∃ n c, Cursor.Reached (encode s) n c ∧ c.index = (encode s).length) ∧
      scrubBytes? (encode s) = some (onChars scrub s) := by
  obtain ⟨n, c, done, pending, hreached, hend⟩ := (stands_start s.toList).exists_end .start
  refine ⟨fun n c h => ⟨h.le_index, ?_⟩, fun start stop => isSome_slice?_iff, ⟨n, c, hreached, ?_⟩, ?_⟩
  · obtain ⟨done, pending, t, hstands⟩ := exists_stands h
    exact hstands.safe
  · rw [encode_eq, hend.length_eq]
    rfl
  · rw [encode_eq, ← hreached.run?_eq, hend.run?_eq]
    rfl

-- The escape moves the index of the scan into the character behind the backslash.
example : isBoundary (encode "\"\\é\"; // a") 3 = false ∧
    scrubBytes? (encode "\"\\é\"; // a") = some "\"\\é\"; " := by
  decide +kernel

end Testwright.Java.Scrub
