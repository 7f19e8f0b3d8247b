import Mathlib.Data.List.Basic
import Testwright.Java.Prune
import Testwright.Proofs.Java.Nesting

/-!
# Edits at once

`Edit.substituted` makes all edits of a text at once: every position of the text has its own piece of
the result, which depends on no other edit than the one that covers it. For independent edits,
doing them from the rear to the front comes to the same (`Independent.splice_eq`).

`Edit.place` follows the positions of the text into the result: the text between two of them becomes
what stands between their places (`Independent.slice_splice`).
-/

namespace Testwright.Java.Edit

/-- Some edits can be made at once: none is empty, they lie in the text, and no two overlap. -/
structure Independent (text : List Char) (edits : List Edit) : Prop where
  nonempty : ∀ e ∈ edits, e.start < e.stop
  inside : ∀ e ∈ edits, e.stop ≤ text.length
  apart : edits.Pairwise fun a b => a.stop ≤ b.start ∨ b.stop ≤ a.start

/-- An edit replaces the character at a position. -/
def Covers (e : Edit) (i : Nat) : Prop := e.start ≤ i ∧ i < e.stop

instance (e : Edit) (i : Nat) : Decidable (e.Covers i) :=
  inferInstanceAs (Decidable (e.start ≤ i ∧ i < e.stop))

/-- What stands for the character at a position: the character itself unless an edit covers it, and
the whole replacement of an edit at its first position. -/
def pieceAt (text : List Char) (edits : List Edit) (i : Nat) : List Char :=
  match edits.find? fun e => e.Covers i with
  | none => text[i]?.toList
  | some e => if e.start = i then e.replacement else []

/-- The text between two positions with all edits made at once. -/
def substituted (text : List Char) (edits : List Edit) (a b : Nat) : List Char :=
  (List.range' a (b - a)).flatMap (pieceAt text edits)

/-- Where a position of the text is found after the edits. -/
def place (text : List Char) (edits : List Edit) (i : Nat) : Nat :=
  (substituted text edits 0 i).length

section
variable {text : List Char} {edits : List Edit} {e f : Edit} {a b c i : Nat}

/-! ## Pieces -/

theorem pieceAt_of_clear (h : ∀ e ∈ edits, ¬e.Covers i) : pieceAt text edits i = text[i]?.toList := by
  have hnone : (edits.find? fun e => e.Covers i) = none := by
    simpa using h
  rw [pieceAt, hnone]

/-- No position is covered by two independent edits. -/
theorem Independent.eq_of_covers (h : Independent text edits) (he : e ∈ edits) (hf : f ∈ edits)
    (hei : e.Covers i) (hfi : f.Covers i) : e = f := by
  by_contra hne
  obtain ⟨hei, hei'⟩ := hei
  obtain ⟨hfi, hfi'⟩ := hfi
  rcases related_of_pairwise h.apart he hf hne with (h | h) | (h | h) <;> omega

theorem Independent.pieceAt_of_covers (h : Independent text edits) (he : e ∈ edits)
    (hi : e.Covers i) : pieceAt text edits i = if e.start = i then e.replacement else [] := by
  unfold pieceAt
  split
  · next hnone => exact absurd hi (by simpa using List.find?_eq_none.1 hnone e he)
  · next f hf =>
    have hfi : f.Covers i := by simpa using List.find?_some hf
    rw [h.eq_of_covers (List.mem_of_find?_eq_some hf) he hfi hi]

/-! ## Parts of the result -/

theorem substituted_congr {text' : List Char} {edits' : List Edit}
    (h : ∀ i, a ≤ i → i < b → pieceAt text edits i = pieceAt text' edits' i) :
    substituted text edits a b = substituted text' edits' a b := by
  refine List.flatMap_congr fun i hi => ?_
  have := List.mem_range'_1.1 hi
  exact h i this.1 (by omega)

theorem substituted_append (hab : a ≤ b) (hbc : b ≤ c) :
    substituted text edits a b ++ substituted text edits b c = substituted text edits a c := by
  have hrange : List.range' a (b - a) ++ List.range' b (c - b) = List.range' a (c - a) := by
    have := List.range'_append_1 (s := a) (m := b - a) (n := c - b)
    rwa [Nat.add_sub_cancel' hab, show b - a + (c - b) = c - a by omega] at this
  rw [substituted, substituted, substituted, ← hrange, List.flatMap_append]

theorem flatMap_getElem?_range' (text : List Char) (a n : Nat) :
    (List.range' a n).flatMap (fun i => text[i]?.toList) = (text.drop a).take n := by
  induction n generalizing a with
  | zero => simp
  | succ n ih =>
    rw [List.range'_succ, List.flatMap_cons, ih]
    by_cases ha : a < text.length
    · rw [List.drop_eq_getElem_cons ha, List.take_succ_cons, List.getElem?_eq_getElem ha]
      rfl
    · have ha : text.length ≤ a := Nat.le_of_not_lt ha
      rw [List.drop_eq_nil_of_le ha, List.drop_eq_nil_of_le (Nat.le_succ_of_le ha),
        List.getElem?_eq_none ha]
      simp

/-- Text that no edit covers stays as it is. -/
theorem substituted_of_clear (h : ∀ e ∈ edits, e.stop ≤ a ∨ b ≤ e.start) :
    substituted text edits a b = Tree.slice text a b := by
  rw [Tree.slice, ← flatMap_getElem?_range']
  refine List.flatMap_congr fun i hi => pieceAt_of_clear fun e he hcovers => ?_
  have hi := List.mem_range'_1.1 hi
  have hcovers : e.start ≤ i ∧ i < e.stop := hcovers
  rcases h e he with h | h <;> omega

/-- An edit turns the text that it covers into its replacement. -/
theorem Independent.substituted_edit (h : Independent text edits) (he : e ∈ edits) :
    substituted text edits e.start e.stop = e.replacement := by
  have hlt := h.nonempty e he
  have hrest : ∀ i ∈ List.range' (e.start + 1) (e.stop - e.start - 1),
      pieceAt text edits i = [] := fun i hi => by
    have hi := List.mem_range'_1.1 hi
    rw [h.pieceAt_of_covers he ⟨by omega, by omega⟩, if_neg (by omega)]
  rw [substituted, show e.stop - e.start = (e.stop - e.start - 1) + 1 by omega, List.range'_succ,
    List.flatMap_cons, List.flatMap_eq_nil_iff.2 hrest, List.append_nil,
    h.pieceAt_of_covers he ⟨Nat.le_refl _, hlt⟩, if_pos rfl]

/-! ## From the rear to the front -/

theorem Independent.of_perm {edits' : List Edit} (h : Independent text edits)
    (hperm : edits'.Perm edits) : Independent text edits' where
  nonempty e he := h.nonempty e (hperm.mem_iff.1 he)
  inside e he := h.inside e (hperm.mem_iff.1 he)
  apart := (hperm.pairwise_iff Or.symm).2 h.apart

/-- The order of independent edits does not matter. -/
theorem Independent.pieceAt_perm {edits' : List Edit} (h : Independent text edits)
    (hperm : edits'.Perm edits) (i : Nat) : pieceAt text edits' i = pieceAt text edits i := by
  by_cases hcovered : ∃ e ∈ edits, e.Covers i
  · obtain ⟨e, he, hi⟩ := hcovered
    rw [h.pieceAt_of_covers he hi, (h.of_perm hperm).pieceAt_of_covers (hperm.mem_iff.2 he) hi]
  · have hclear : ∀ e ∈ edits, ¬e.Covers i := fun e he hi => hcovered ⟨e, he, hi⟩
    rw [pieceAt_of_clear hclear, pieceAt_of_clear fun e he => hclear e (hperm.mem_iff.1 he)]

/-- The text in front of an edit is the same after the edit. -/
theorem pieceAt_apply_of_lt (hi : i < e.start) (hlen : e.start ≤ text.length) :
    pieceAt (apply text e) edits i = pieceAt text (e :: edits) i := by
  have hnot : ¬e.Covers i := fun hcovers => Nat.not_le_of_lt hi hcovers.1
  have hfind : ((e :: edits).find? fun f => f.Covers i) = edits.find? fun f => f.Covers i :=
    List.find?_cons_of_neg (by simpa using hnot)
  have hget : (apply text e)[i]? = text[i]? := by
    rw [apply, List.append_assoc, List.getElem?_append_left (by rw [List.length_take]; omega),
      List.getElem?_take_of_lt hi]
  rw [pieceAt, pieceAt, hfind, hget]

theorem slice_append_drop (h : a ≤ b) (text : List Char) :
    Tree.slice text a b ++ text.drop b = text.drop a := by
  rw [Tree.slice, show text.drop b = (text.drop a).drop (b - a) by
    rw [List.drop_drop, Nat.add_sub_cancel' h], List.take_append_drop]

/-- Edits in front of a position, made from the rear to the front, leave the text behind it. -/
theorem foldl_apply {n : Nat} (h : Independent text edits)
    (hsorted : edits.Pairwise fun a b => b.stop ≤ a.start) (hn : ∀ e ∈ edits, e.stop ≤ n)
    (hlen : n ≤ text.length) :
    edits.foldl apply text = substituted text edits 0 n ++ text.drop n := by
  induction edits generalizing text n with
  | nil =>
    rw [List.foldl_nil, substituted_of_clear (by simp), slice_append_drop (Nat.zero_le n)]
    rfl
  | cons e edits ih =>
    obtain ⟨hfirst, hsorted⟩ := List.pairwise_cons.1 hsorted
    have he := List.mem_cons_self (a := e) (l := edits)
    have hlt := h.nonempty e he
    have hstop := hn e he
    have hlen_apply : e.start ≤ (apply text e).length := by
      rw [apply, List.append_assoc, List.length_append, List.length_take]
      omega
    have hdrop : (apply text e).drop e.start = e.replacement ++ text.drop e.stop := by
      rw [apply, List.append_assoc]
      exact List.drop_left' (by rw [List.length_take]; omega)
    have hrest : Independent (apply text e) edits :=
      ⟨fun f hf => h.nonempty f (List.mem_cons_of_mem e hf),
        fun f hf => Nat.le_trans (hfirst f hf) hlen_apply, (List.pairwise_cons.1 h.apart).2⟩
    have hbehind : ∀ f ∈ e :: edits, f.stop ≤ e.stop ∨ n ≤ f.start := fun f hf => by
      rcases List.mem_cons.1 hf with rfl | hf
      · exact .inl (Nat.le_refl _)
      · have := hfirst f hf
        exact .inl (by omega)
    -- in front of the first edit made the text is still the old one, behind it nothing follows
    calc (e :: edits).foldl apply text
      _ = substituted (apply text e) edits 0 e.start ++ (apply text e).drop e.start :=
        ih hrest hsorted hfirst hlen_apply
      _ = substituted text (e :: edits) 0 e.start ++ (e.replacement ++ text.drop e.stop) := by
        rw [hdrop, substituted_congr fun i _ hi => pieceAt_apply_of_lt hi (by omega)]
      _ = substituted text (e :: edits) 0 e.start ++ (substituted text (e :: edits) e.start e.stop ++
          (substituted text (e :: edits) e.stop n ++ text.drop n)) := by
        rw [h.substituted_edit he, substituted_of_clear hbehind, slice_append_drop hstop]
      _ = substituted text (e :: edits) 0 n ++ text.drop n := by
        rw [← List.append_assoc, ← List.append_assoc, substituted_append (Nat.zero_le _) (by omega),
          substituted_append (Nat.zero_le _) hstop]

/-- Making independent edits from the rear to the front comes to making them at once. -/
theorem Independent.splice_eq (h : Independent text edits) :
    splice text edits = substituted text edits 0 text.length := by
  have hperm := List.mergeSort_perm edits fun a b => b.start ≤ a.start
  have h' := h.of_perm hperm
  have hsorted : (edits.mergeSort fun a b => b.start ≤ a.start).Pairwise
      fun a b => b.start ≤ a.start :=
    (List.pairwise_mergeSort (fun a b c => by simp only [decide_eq_true_eq]; omega)
      (fun a b => by simp only [Bool.or_eq_true, decide_eq_true_eq]; omega) edits).imp
      of_decide_eq_true
  have hrear : (edits.mergeSort fun a b => b.start ≤ a.start).Pairwise
      fun a b => b.stop ≤ a.start := by
    refine List.Pairwise.imp_of_mem (fun {a b} ha _ hab => ?_) (hsorted.and h'.apart)
    have := h'.nonempty a ha
    omega
  rw [splice, foldl_apply h' hrear h'.inside (Nat.le_refl _), List.drop_length, List.append_nil]
  exact substituted_congr fun i _ _ => h.pieceAt_perm hperm i

/-- Edits outside of a part do not matter for it. -/
theorem Independent.substituted_filter (h : Independent text edits) {p : Edit → Bool}
    (hp : ∀ e ∈ edits, p e = true ∨ e.stop ≤ a ∨ b ≤ e.start) :
    substituted text (edits.filter p) a b = substituted text edits a b := by
  have hfilter : Independent text (edits.filter p) :=
    ⟨fun e he => h.nonempty e (List.mem_filter.1 he).1, fun e he => h.inside e (List.mem_filter.1 he).1,
      h.apart.filter p⟩
  refine substituted_congr fun i hai hib => ?_
  by_cases hcovered : ∃ e ∈ edits, e.Covers i
  · obtain ⟨e, he, hi⟩ := hcovered
    have hpe : p e = true := by
      have hi : e.start ≤ i ∧ i < e.stop := hi
      rcases hp e he with hpe | hbefore | hbehind
      · exact hpe
      · omega
      · omega
    rw [h.pieceAt_of_covers he hi, hfilter.pieceAt_of_covers (List.mem_filter.2 ⟨he, hpe⟩) hi]
  · have hclear : ∀ e ∈ edits, ¬e.Covers i := fun e he hi => hcovered ⟨e, he, hi⟩
    rw [pieceAt_of_clear hclear, pieceAt_of_clear fun e he => hclear e (List.mem_filter.1 he).1]

/-! ## Places -/

theorem place_eq_add (hab : a ≤ b) :
    place text edits b = place text edits a + (substituted text edits a b).length := by
  rw [place, place, ← substituted_append (Nat.zero_le a) hab, List.length_append]

theorem place_mono (hab : a ≤ b) : place text edits a ≤ place text edits b := by
  rw [place_eq_add hab]
  exact Nat.le_add_right ..

/-- What stands between two positions is found between their places. -/
theorem Independent.slice_splice (h : Independent text edits) (hab : a ≤ b)
    (hb : b ≤ text.length) :
    Tree.slice (splice text edits) (place text edits a) (place text edits b) =
      substituted text edits a b := by
  have hsplit : splice text edits = substituted text edits 0 a ++
      (substituted text edits a b ++ substituted text edits b text.length) := by
    rw [h.splice_eq, substituted_append hab hb,
      substituted_append (Nat.zero_le a) (Nat.le_trans hab hb)]
  rw [Tree.slice, place_eq_add hab, Nat.add_sub_cancel_left, hsplit, place, List.drop_left,
    List.take_left]

end

end Testwright.Java.Edit
