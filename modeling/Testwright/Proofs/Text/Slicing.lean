import Testwright.Proofs.Text.Encoding
import Testwright.Text.Slice

/-!
# Slices of a text

Each character is written as a byte that begins it and bytes that continue it (`exists_encodeChar`). So the
boundaries in the bytes of a text are the places between its characters (`isBoundary_write`), and a slice between two
of them is the text there (`slice?_write`).
-/

namespace Testwright.Utf8

/-- The bytes of some characters. -/
def write (s : List Char) : Bytes := s.flatMap String.utf8EncodeChar

variable {s r t front mid : List Char} {c : Char} {b : UInt8} {bytes : Bytes} {start stop i n : Nat}

theorem encode_eq (s : String) : encode s = write s.toList := rfl

@[simp] theorem write_nil : write [] = [] := rfl

theorem write_cons : write (c :: s) = String.utf8EncodeChar c ++ write s := List.flatMap_cons

theorem write_append : write (s ++ r) = write s ++ write r := List.flatMap_append

/-! ## The bytes of a character -/

theorem toNat_unit (b : UInt8) : (unit b).toNat = b.toNat := by
  have hvalid : b.toNat.isValidChar := .inl (Nat.lt_trans b.toNat_lt (by decide))
  rw [unit, Char.ofNat, dif_pos hvalid]
  rfl

/-- A character of ASCII is its only byte. -/
theorem encodeChar_ascii (h : c.toNat < 0x80) : ∃ b, String.utf8EncodeChar c = [b] ∧ unit b = c := by
  have hle : c.val.toNat ≤ 0x7F := Nat.le_of_lt_succ h
  refine ⟨.ofNat c.val.toNat, by simp only [String.utf8EncodeChar, if_pos hle], ?_⟩
  rw [unit, toNat_byte (Nat.lt_of_le_of_lt hle (by decide))]
  exact Char.ofNat_toNat c

theorem not_isContinuation_ofNat (hn : n < 256) (h : n < 0x80 ∨ 0xBF < n) : isContinuation (.ofNat n) = false := by
  simp only [isContinuation, Bool.and_eq_false_iff, decide_eq_false_iff_not, UInt8.le_iff_toNat_le, toNat_byte hn,
    UInt8.reduceToNat]
  omega

theorem le_of_isContinuation (h : isContinuation b = true) : 0x80 ≤ b.toNat := by
  simp only [isContinuation, Bool.and_eq_true, decide_eq_true_eq, UInt8.le_iff_toNat_le, UInt8.reduceToNat] at h
  exact h.1

/-- A character is a byte that begins it, and bytes that continue it. -/
theorem exists_encodeChar (c : Char) : ∃ lead tail, String.utf8EncodeChar c = lead :: tail ∧
    isContinuation lead = false ∧ ∀ b ∈ tail, isContinuation b = true := by
  have hcontinuation (n : Nat) : ∀ b ∈ [UInt8.ofNat (n % 64 + 0x80)], isContinuation b = true :=
    List.forall_mem_singleton.2 (isContinuation_byte n)
  simp only [String.utf8EncodeChar]
  split
  · next hle => exact ⟨_, _, rfl, not_isContinuation_ofNat (by omega) (by omega), nofun⟩
  split
  · exact ⟨_, _, rfl, not_isContinuation_ofNat (by omega) (by omega), hcontinuation _⟩
  split
  · exact ⟨_, _, rfl, not_isContinuation_ofNat (by omega) (by omega),
      List.forall_mem_cons.2 ⟨isContinuation_byte _, hcontinuation _⟩⟩
  · exact ⟨_, _, rfl, not_isContinuation_ofNat (by omega) (by omega),
      List.forall_mem_cons.2 ⟨isContinuation_byte _, List.forall_mem_cons.2 ⟨isContinuation_byte _, hcontinuation _⟩⟩⟩

theorem write_eq_nil : write s = [] ↔ s = [] := by
  cases s with
  | nil => simp
  | cons c s =>
    obtain ⟨lead, tail, hbytes, -⟩ := exists_encodeChar c
    simp [write_cons, hbytes]

/-- The bytes of a character beyond ASCII are beyond ASCII. -/
theorem le_of_mem_encodeChar (h : 0x80 ≤ c.toNat) (hb : b ∈ String.utf8EncodeChar c) : 0x80 ≤ b.toNat := by
  have hbyte {n : Nat} (hn : n < 256) (hle : 0x80 ≤ n) : 0x80 ≤ (UInt8.ofNat n).toNat := by rwa [toNat_byte hn]
  have hlt : ¬c.val.toNat ≤ 0x7F := Nat.not_le.2 h
  simp only [String.utf8EncodeChar, if_neg hlt] at hb
  split at hb
  · simp only [List.mem_cons, List.not_mem_nil, or_false] at hb
    rcases hb with rfl | rfl <;> exact hbyte (by omega) (by omega)
  split at hb
  · simp only [List.mem_cons, List.not_mem_nil, or_false] at hb
    rcases hb with rfl | rfl | rfl <;> exact hbyte (by omega) (by omega)
  · simp only [List.mem_cons, List.not_mem_nil, or_false] at hb
    rcases hb with rfl | rfl | rfl | rfl <;> exact hbyte (by omega) (by omega)

/-! ## Bytes as characters -/

theorem length_write_ascii (h : ∀ d ∈ s, d.toNat < 0x80) : (write s).length = s.length := by
  induction s with
  | nil => rfl
  | cons c s ih =>
    obtain ⟨hc, hs⟩ := List.forall_mem_cons.1 h
    obtain ⟨b, hbytes, -⟩ := encodeChar_ascii hc
    rw [write_cons, hbytes, List.singleton_append, List.length_cons, ih hs, List.length_cons]

theorem ne_of_beyond {d : Char} (hc : 0x80 ≤ c.toNat) (hd : d.toNat < 0x80) : c ≠ d := by
  rintro rfl
  omega

/-- A text as its bytes show it. -/
def units (s : List Char) : List Char := (write s).map unit

theorem units_ascii (hc : c.toNat < 0x80) (r : List Char) : units (c :: r) = c :: units r := by
  obtain ⟨b, hbytes, hb⟩ := encodeChar_ascii hc
  rw [units, write_cons, hbytes, List.singleton_append, List.map_cons, hb, units]

theorem exists_units_beyond (hc : 0x80 ≤ c.toNat) (r : List Char) :
    ∃ d l, units (c :: r) = d :: l ∧ 0x80 ≤ d.toNat := by
  obtain ⟨lead, tail, hbytes, -⟩ := exists_encodeChar c
  refine ⟨unit lead, (tail ++ write r).map unit, by rw [units, write_cons, hbytes, List.cons_append, List.map_cons], ?_⟩
  rw [toNat_unit]
  exact le_of_mem_encodeChar hc (by rw [hbytes]; exact List.mem_cons_self)

theorem exists_units_of_head? (hc : c.toNat < 0x80) (h : r.head? = some c) : ∃ l, units r = c :: l := by
  cases r with
  | nil => cases h
  | cons d r =>
    cases h
    exact ⟨_, units_ascii hc r⟩

/-- A text of ASCII stands in a text where it stands in the bytes. -/
theorem isPrefixOf_units (h : ∀ c ∈ t, c.toNat < 0x80) : t.isPrefixOf (units s) = t.isPrefixOf s := by
  induction t generalizing s with
  | nil => simp
  | cons c t ih =>
    obtain ⟨hc, ht⟩ := List.forall_mem_cons.1 h
    cases s with
    | nil => rfl
    | cons d s =>
      rcases Nat.lt_or_ge d.toNat 0x80 with hd | hd
      · rw [units_ascii hd, List.isPrefixOf_cons_cons, List.isPrefixOf_cons_cons, ih ht]
      · obtain ⟨e, l, hunits, he⟩ := exists_units_beyond hd s
        rw [hunits, List.isPrefixOf_cons_cons, List.isPrefixOf_cons_cons, beq_false_of_ne (ne_of_beyond he hc).symm,
          beq_false_of_ne (ne_of_beyond hd hc).symm, Bool.false_and, Bool.false_and]

theorem exists_of_units {p l : List Char} (hp : ∀ d ∈ p, d.toNat < 0x80) (h : units r = p ++ l) :
    ∃ r', r = p ++ r' := by
  have hprefix : p.isPrefixOf (units r) = true := by
    rw [h, List.isPrefixOf_iff_prefix]
    exact List.prefix_append ..
  rw [isPrefixOf_units hp, List.isPrefixOf_iff_prefix] at hprefix
  obtain ⟨r', hr⟩ := hprefix
  exact ⟨r', hr.symm⟩

theorem filter_units (s : List Char) : (units s).filter (· == '\n') = s.filter (· == '\n') := by
  induction s with
  | nil => rfl
  | cons c s ih =>
    rcases Nat.lt_or_ge c.toNat 0x80 with hc | hc
    · rw [units_ascii hc, List.filter_cons, List.filter_cons, ih]
    · have hbytes : ((String.utf8EncodeChar c).map unit).filter (· == '\n') = [] := by
        refine List.filter_eq_nil_iff.2 fun d hd => ?_
        obtain ⟨b, hb, rfl⟩ := List.mem_map.1 hd
        have hle := le_of_mem_encodeChar hc hb
        simpa using ne_of_beyond (by rwa [toNat_unit]) (by decide)
      rw [units, write_cons, List.map_append, List.filter_append, hbytes, List.nil_append, ← units, ih,
        List.filter_cons_of_neg (by simpa using ne_of_beyond hc (by decide))]

/-! ## Boundaries -/

theorem isBoundary_iff : isBoundary bytes i = true ↔
    i = 0 ∨ i = bytes.length ∨ ∃ b, bytes[i]? = some b ∧ isContinuation b = false := by
  simp only [isBoundary, Bool.or_eq_true, beq_iff_eq, Option.any_eq_true, Bool.not_eq_true', or_assoc]

/-- Behind a character the boundaries are those of the other characters. -/
theorem isBoundary_append
    (h : isBoundary (String.utf8EncodeChar c ++ bytes) ((String.utf8EncodeChar c).length + i) = true) :
    isBoundary bytes i = true := by
  rw [isBoundary_iff, List.length_append, List.getElem?_append_right (Nat.le_add_right ..),
    Nat.add_sub_cancel_left] at h
  refine isBoundary_iff.2 ?_
  rcases h with hzero | hlength | hbyte
  · exact .inl (by omega)
  · exact .inr (.inl (by omega))
  · exact .inr (.inr hbyte)

/-- Inside of a character there is no boundary. -/
theorem isBoundary_inside (hpos : 0 < i) (hlt : i < (String.utf8EncodeChar c).length) :
    isBoundary (String.utf8EncodeChar c ++ bytes) i = false := by
  obtain ⟨lead, tail, hbytes, -, htail⟩ := exists_encodeChar c
  obtain ⟨i, rfl⟩ := Nat.exists_eq_add_one.2 hpos
  rw [hbytes, List.length_cons, Nat.add_lt_add_iff_right] at hlt
  rw [Bool.eq_false_iff, Ne, isBoundary_iff, hbytes, List.cons_append, List.getElem?_cons_succ,
    List.getElem?_append_left hlt, List.getElem?_eq_getElem hlt, List.length_cons, List.length_append]
  rintro (hzero | hlength | ⟨b, hb, hcontinuation⟩)
  · omega
  · omega
  · cases hb
    rw [htail _ (List.getElem_mem hlt)] at hcontinuation
    cases hcontinuation

/-- The boundaries in the bytes of a text are the places between its characters. -/
theorem isBoundary_write :
    isBoundary (write s) i = true ↔ ∃ front rest, s = front ++ rest ∧ i = (write front).length := by
  constructor
  · intro h
    induction s generalizing i with
    | nil =>
      have hzero : i = 0 := by simpa [isBoundary_iff] using h
      exact ⟨[], [], rfl, hzero⟩
    | cons c s ih =>
      rw [write_cons] at h
      rcases Nat.eq_zero_or_pos i with rfl | hpos
      · exact ⟨[], c :: s, rfl, rfl⟩
      · rcases Nat.lt_or_ge i (String.utf8EncodeChar c).length with hlt | hge
        · rw [isBoundary_inside hpos hlt] at h
          cases h
        · obtain ⟨j, rfl⟩ := Nat.exists_eq_add_of_le hge
          obtain ⟨front, rest, rfl, rfl⟩ := ih (isBoundary_append h)
          exact ⟨c :: front, rest, rfl, by rw [write_cons, List.length_append]⟩
  · rintro ⟨front, rest, rfl, rfl⟩
    rw [isBoundary_iff, write_append, List.length_append, List.getElem?_append_right (Nat.le_refl _), Nat.sub_self]
    cases rest with
    | nil => exact .inr (.inl rfl)
    | cons c rest =>
      obtain ⟨lead, tail, hbytes, hlead, -⟩ := exists_encodeChar c
      refine .inr (.inr ⟨lead, ?_, hlead⟩)
      rw [write_cons, hbytes]
      rfl

theorem isBoundary_length (front rest : List Char) : isBoundary (write (front ++ rest)) (write front).length = true :=
  isBoundary_write.2 ⟨front, rest, rfl, rfl⟩

/-! ## Slices -/

theorem between?_write (front mid rest : List Char) :
    between? (write (front ++ (mid ++ rest))) (write front).length (write (front ++ mid)).length =
      some (write mid) := by
  have hle : (write front).length ≤ (write (front ++ mid)).length ∧
      (write (front ++ mid)).length ≤ (write (front ++ (mid ++ rest))).length := by
    simp only [write_append, List.length_append]
    omega
  rw [between?, if_pos hle, ← List.append_assoc, write_append (r := rest), List.take_left, write_append, List.drop_left]

/-- Between two boundaries stands the text that is written there. -/
theorem slice?_write (front mid rest : List Char) :
    slice? (write (front ++ (mid ++ rest))) (write front).length (write (front ++ mid)).length =
      some (.ofList mid) := by
  have hstop := isBoundary_length (front ++ mid) rest
  rw [List.append_assoc] at hstop
  rw [slice?, isBoundary_length, hstop, Bool.and_self, if_pos rfl, between?_write, Option.bind_some]
  have htext := text?_encode (.ofList mid)
  rwa [encode_eq, String.toList_ofList] at htext

/-- A text has a slice between two places exactly if they are boundaries in this order. -/
theorem isSome_slice?_iff {s : String} : (slice? (encode s) start stop).isSome = true ↔ start ≤ stop ∧
    stop ≤ (encode s).length ∧ isBoundary (encode s) start = true ∧ isBoundary (encode s) stop = true := by
  constructor
  · intro h
    obtain ⟨text, htext⟩ := Option.isSome_iff_exists.1 h
    unfold slice? at htext
    split at htext
    · next hboundaries =>
      rw [Bool.and_eq_true] at hboundaries
      obtain ⟨part, hpart, -⟩ := Option.bind_eq_some_iff.1 htext
      unfold between? at hpart
      split at hpart
      · next hle => exact ⟨hle.1, hle.2, hboundaries⟩
      · cases hpart
    · cases htext
  · rintro ⟨hle, -, hstart, hstop⟩
    obtain ⟨front, rest, hs, rfl⟩ := isBoundary_write.1 hstart
    obtain ⟨front', rest', hs', rfl⟩ := isBoundary_write.1 hstop
    obtain ⟨mid, rfl⟩ : ∃ mid, front' = front ++ mid := by
      rcases List.append_eq_append_iff.1 (hs.symm.trans hs') with ⟨mid, hfront, -⟩ | ⟨mid, hfront, -⟩
      · exact ⟨mid, hfront⟩
      · -- Behind the second boundary there would be characters without bytes.
        rw [hfront, write_append, List.length_append] at hle
        obtain rfl : mid = [] := write_eq_nil.1 (List.eq_nil_of_length_eq_zero (by omega))
        exact ⟨[], by rw [hfront, List.append_nil, List.append_nil]⟩
    rw [encode_eq, hs', List.append_assoc, slice?_write]
    rfl

end Testwright.Utf8
