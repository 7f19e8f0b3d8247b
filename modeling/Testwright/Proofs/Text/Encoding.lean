import Testwright.Text.Utf8

/-!
# Texts are read back from their bytes

A character is read from its bytes, whatever follows them (`step_encodeChar`), so a text is read from its
bytes without gaps (`text?_encode`).
-/

namespace Testwright.Utf8

variable {lead b : UInt8} {tail rest : Bytes} {c : Char} {m n : Nat}

theorem toNat_byte (h : n < 256) : (UInt8.ofNat n).toNat = n := by
  rw [UInt8.toNat_ofNat']
  exact Nat.mod_eq_of_lt h

/-- The bytes that continue a character are all taken, and none of those behind them. -/
theorem continuations_append (hsecond : ∀ b ∈ tail.head?, isSecond lead b = true)
    (hthird : ∀ b ∈ tail.tail, isContinuation b = true) :
    continuations lead tail.length (tail ++ rest) = tail := by
  cases tail with
  | nil => cases rest <;> rfl
  | cons b tail =>
    have hb : isSecond lead b = true := hsecond b rfl
    rw [List.cons_append, continuations, hb]
    simp only [List.length_cons, Nat.add_one_ne_zero, decide_false, Bool.not_true, Bool.or_false,
      Bool.false_eq_true, if_false, Nat.add_sub_cancel]
    rw [List.tail_cons] at hthird
    rw [List.takeWhile_append_of_pos hthird, List.take_left]

theorem step_append (tail : Bytes) (hfollowing : following? lead = some tail.length)
    (hsecond : ∀ b ∈ tail.head?, isSecond lead b = true)
    (hthird : ∀ b ∈ tail.tail, isContinuation b = true)
    (hvalue : tail.foldl (fun n b => n * 64 + payload b) (leadPayload lead) = c.toNat) :
    step lead (tail ++ rest) = (some c, tail.length) := by
  rw [step, hfollowing]
  simp only [continuations_append hsecond hthird, hvalue, if_true]
  rw [Char.ofNat_toNat]

theorem isContinuation_byte (n : Nat) : isContinuation (.ofNat (n % 64 + 0x80)) = true := by
  have hbyte := toNat_byte (n := n % 64 + 0x80) (by omega)
  simp only [isContinuation, Bool.and_eq_true, decide_eq_true_eq, UInt8.le_iff_toNat_le, hbyte]
  constructor
  · exact Nat.le_add_left ..
  · have := Nat.mod_lt n (by decide : 0 < 64)
    change n % 64 + 128 ≤ 191
    omega

theorem payload_byte (n : Nat) : payload (.ofNat (n % 64 + 0x80)) = n % 64 := by
  rw [payload, toNat_byte (by omega)]
  omega

/-! ## Bytes by their numbers -/

theorem following?_ofNat (h : n < 256) : following? (.ofNat n) =
    if n < 0x80 then some 0
    else if 0xC2 ≤ n ∧ n ≤ 0xDF then some 1
    else if 0xE0 ≤ n ∧ n ≤ 0xEF then some 2
    else if 0xF0 ≤ n ∧ n ≤ 0xF4 then some 3
    else none := by
  simp [following?, UInt8.lt_iff_toNat_lt, UInt8.le_iff_toNat_le, Nat.mod_eq_of_lt h]

theorem leadPayload_ofNat (h : n < 256) : leadPayload (.ofNat n) =
    if n < 0x80 then n else if n < 0xE0 then n % 32 else if n < 0xF0 then n % 16 else n % 8 := by
  simp [leadPayload, UInt8.lt_iff_toNat_lt, Nat.mod_eq_of_lt h]

theorem isSecond_ofNat (hm : m < 256) (hn : n < 256) (hcontinuation : 0x80 ≤ n ∧ n ≤ 0xBF)
    (hE0 : m = 0xE0 → 0xA0 ≤ n) (hED : m = 0xED → n ≤ 0x9F) (hF0 : m = 0xF0 → 0x90 ≤ n)
    (hF4 : m = 0xF4 → n ≤ 0x8F) : isSecond (.ofNat m) (.ofNat n) = true := by
  simp only [isSecond, isContinuation, beq_iff_eq, ← UInt8.toNat_inj, UInt8.le_iff_toNat_le,
    toNat_byte hm, toNat_byte hn, UInt8.reduceToNat]
  grind

/-! ## Characters and texts -/

section
variable {v : Nat} (hv : v = c.toNat) (rest : Bytes)
include hv

theorem step_one (hle : v ≤ 0x7F) : step (.ofNat v) rest = (some c, 0) := by
  have hlead : v < 256 := by omega
  refine step_append [] ?_ nofun nofun ?_
  · rw [following?_ofNat hlead, if_pos (by omega)]; rfl
  · rw [List.foldl_nil, leadPayload_ofNat hlead, if_pos (by omega), hv]

theorem step_two (hlt : 0x7F < v) (hle : v ≤ 0x7FF) :
    step (.ofNat (v / 64 % 0x20 + 0xC0)) (.ofNat (v % 0x40 + 0x80) :: rest) = (some c, 1) := by
  have hlead : v / 64 % 0x20 + 0xC0 < 256 := by omega
  refine step_append [_] ?_ ?_ nofun ?_
  · rw [following?_ofNat hlead, if_neg (by omega), if_pos (by omega)]; rfl
  · rintro b ⟨⟩
    apply isSecond_ofNat hlead <;> omega
  · rw [List.foldl_cons, List.foldl_nil, payload_byte, leadPayload_ofNat hlead, if_neg (by omega),
      if_pos (by omega)]
    omega

theorem step_three (hlt : 0x7FF < v) (hle : v ≤ 0xFFFF) (hsurrogate : v < 0xD800 ∨ 0xDFFF < v) :
    step (.ofNat (v / 4096 % 0x10 + 0xE0)) (.ofNat (v / 64 % 0x40 + 0x80) ::
      .ofNat (v % 0x40 + 0x80) :: rest) = (some c, 2) := by
  have hlead : v / 4096 % 0x10 + 0xE0 < 256 := by omega
  refine step_append [_, _] ?_ ?_ ?_ ?_
  · rw [following?_ofNat hlead, if_neg (by omega), if_neg (by omega), if_pos (by omega)]; rfl
  · rintro b ⟨⟩
    apply isSecond_ofNat hlead <;> omega
  · exact List.forall_mem_singleton.2 (isContinuation_byte v)
  · rw [List.foldl_cons, List.foldl_cons, List.foldl_nil, payload_byte, payload_byte,
      leadPayload_ofNat hlead, if_neg (by omega), if_neg (by omega), if_pos (by omega)]
    omega

theorem step_four (hlt : 0xFFFF < v) (hvalid : v < 0x110000) :
    step (.ofNat (v / 262144 % 0x08 + 0xF0)) (.ofNat (v / 4096 % 0x40 + 0x80) ::
      .ofNat (v / 64 % 0x40 + 0x80) :: .ofNat (v % 0x40 + 0x80) :: rest) = (some c, 3) := by
  have hlead : v / 262144 % 0x08 + 0xF0 < 256 := by omega
  refine step_append [_, _, _] ?_ ?_ ?_ ?_
  · rw [following?_ofNat hlead, if_neg (by omega), if_neg (by omega), if_neg (by omega), if_pos (by omega)]; rfl
  · rintro b ⟨⟩
    apply isSecond_ofNat hlead <;> omega
  · exact List.forall_mem_cons.2 ⟨isContinuation_byte _, List.forall_mem_singleton.2 (isContinuation_byte v)⟩
  · rw [List.foldl_cons, List.foldl_cons, List.foldl_cons, List.foldl_nil, payload_byte, payload_byte,
      payload_byte, leadPayload_ofNat hlead, if_neg (by omega), if_neg (by omega), if_neg (by omega)]
    omega

end

/-- The bytes of a character are a leading byte and what continues it, whatever stands behind them. -/
theorem exists_encodeChar_eq (c : Char) : ∃ lead tail, String.utf8EncodeChar c = lead :: tail ∧
    ∀ rest, step lead (tail ++ rest) = (some c, tail.length) := by
  have hvalid : c.toNat < 0xD800 ∨ 0xDFFF < c.toNat ∧ c.toNat < 0x110000 := c.valid
  simp only [String.utf8EncodeChar]
  split
  · next hle => exact ⟨_, _, rfl, fun rest => step_one rfl rest hle⟩
  split
  · next hlt hle => exact ⟨_, _, rfl, fun rest => step_two rfl rest (Nat.lt_of_not_le hlt) hle⟩
  split
  · next hlt hle =>
    exact ⟨_, _, rfl, fun rest => step_three rfl rest (Nat.lt_of_not_le hlt) hle (hvalid.imp_right And.left)⟩
  · next hlt =>
    have hlt : 0xFFFF < c.toNat := Nat.lt_of_not_le hlt
    exact ⟨_, _, rfl, fun rest => step_four rfl rest hlt (by omega)⟩

theorem decode_encodeChar (c : Char) (rest : Bytes) :
    decode (String.utf8EncodeChar c ++ rest) = some c :: decode rest := by
  obtain ⟨lead, tail, hbytes, hstep⟩ := exists_encodeChar_eq c
  rw [hbytes, List.cons_append, decode, hstep]
  simp

theorem decode_encode (s : String) : decode (encode s) = s.toList.map some := by
  rw [encode]
  induction s.toList with
  | nil => rw [List.flatMap_nil, decode, List.map_nil]
  | cons c s ih => rw [List.flatMap_cons, decode_encodeChar, ih, List.map_cons]

/-- A text is read from its bytes. -/
theorem text?_encode (s : String) : text? (encode s) = some s := by
  have hchars (s : List Char) : (s.map some).mapM id = some s := by
    induction s with
    | nil => rfl
    | cons c s ih => simp [ih]
  rw [text?, decode_encode, hchars, Option.map_some, String.ofList_toList]

end Testwright.Utf8
