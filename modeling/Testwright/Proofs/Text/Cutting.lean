import Mathlib.Data.List.TakeDrop
import Mathlib.Data.List.TakeWhile
import Testwright.Text.Basic

/-!
# Cutting texts

Where runs of characters of a class end, what the first and the last occurrence of a character cut a
text into, and what is left of its pieces and lines when they are trimmed.
-/

namespace Testwright.Text

/-- Some characters are checked one after the other, not among all characters. -/
instance decidableForallMem (P : Char → Prop) [DecidablePred P] (s : List Char) :
    Decidable (∀ c ∈ s, P c) := List.decidableBAll P s

instance decidableExistsMem (P : Char → Prop) [DecidablePred P] (s : List Char) :
    Decidable (∃ c ∈ s, P c) := List.decidableBEx P s

/-- A text does not begin with a character of a class. -/
def Past (p : Char → Bool) (s : List Char) : Prop := ∀ c ∈ s.head?, p c = false

variable {p : Char → Bool} {c : Char} {s r : List Char}

theorem past_dropWhile (s : List Char) : Past p (s.dropWhile p) := by
  intro c hc
  have h := List.head?_dropWhile_not p s
  rw [Option.mem_def] at hc
  rwa [hc] at h

theorem dropWhile_run (h : ∀ c ∈ s, p c = true) (hr : Past p r) : (s ++ r).dropWhile p = r := by
  rw [List.dropWhile_append_of_pos h]
  cases r with
  | nil => rfl
  | cons c r => exact List.dropWhile_cons_of_neg (Bool.eq_false_iff.1 (hr c rfl))

theorem takeWhile_run (h : ∀ c ∈ s, p c = true) (hr : Past p r) : (s ++ r).takeWhile p = s := by
  have hsplit := List.takeWhile_append_dropWhile (p := p) (l := s ++ r)
  rw [dropWhile_run h hr] at hsplit
  exact List.append_cancel_right hsplit

theorem takeWhile_append_of_past (hr : Past p r) : (s ++ r).takeWhile p = s.takeWhile p := by
  induction s with
  | nil =>
    cases r with
    | nil => rfl
    | cons c r => exact List.takeWhile_cons_of_neg (Bool.eq_false_iff.1 (hr c rfl))
  | cons c s ih => simp only [List.cons_append, List.takeWhile_cons, ih]

theorem dropWhile_append_of_past (hr : Past p r) : (s ++ r).dropWhile p = s.dropWhile p ++ r := by
  induction s with
  | nil =>
    cases r with
    | nil => rfl
    | cons c r => exact List.dropWhile_cons_of_neg (Bool.eq_false_iff.1 (hr c rfl))
  | cons c s ih =>
    simp only [List.cons_append, List.dropWhile_cons, ih]
    split <;> rfl

theorem not_mem_run (h : c ∉ s) : ∀ d ∈ s, (d != c) = true := by
  intro d hd
  rw [bne_iff_ne]
  rintro rfl
  exact h hd

theorem past_self : Past (· != c) (c :: r) := by
  intro d hd
  cases hd
  exact bne_self_eq_false c

theorem cutAt?_append (h : c ∉ s) : cutAt? c (s ++ c :: r) = some (s, r) := by
  rw [cutAt?, List.span_eq_takeWhile_dropWhile, takeWhile_run (not_mem_run h) past_self,
    dropWhile_run (not_mem_run h) past_self]

theorem cutAt?_eq_none (h : c ∉ s) : cutAt? c s = none := by
  have hrun := dropWhile_run (r := []) (not_mem_run h) nofun
  rw [List.append_nil] at hrun
  rw [cutAt?, List.span_eq_takeWhile_dropWhile, hrun]

theorem cutAt?_eq_some {front : List Char} (h : cutAt? c s = some (front, r)) :
    s = front ++ c :: r ∧ c ∉ front := by
  by_cases hc : c ∈ s
  · obtain ⟨front', r', rfl, hfront⟩ := List.eq_append_cons_of_mem hc
    rw [cutAt?_append hfront] at h
    cases h
    exact ⟨rfl, hfront⟩
  · rw [cutAt?_eq_none hc] at h
    cases h

theorem cut?_cons (h : dropPrefix? s (c :: r) = none) :
    cut? s (c :: r) = (cut? s r).map fun (before, after) => (c :: before, after) := by
  rw [cut?, h]

theorem cut?_append (s r : List Char) : cut? s (s ++ r) = some ([], r) := by
  have hprefix := dropPrefix?_eq_some.2 (rfl : s ++ r = _)
  cases hsr : s ++ r with
  | nil =>
    obtain ⟨rfl, rfl⟩ := List.append_eq_nil_iff.1 hsr
    rfl
  | cons c rest =>
    rw [hsr] at hprefix
    rw [cut?, hprefix]

theorem cutAtLast?_append (h : c ∉ r) : cutAtLast? c (s ++ c :: r) = some (s, r) := by
  have hback : (s ++ c :: r).reverse = r.reverse ++ c :: s.reverse := by simp
  rw [cutAtLast?, hback, cutAt?_append (by rwa [List.mem_reverse])]
  simp

theorem cutAtLast?_eq_none (h : c ∉ s) : cutAtLast? c s = none := by
  rw [cutAtLast?, cutAt?_eq_none (by rwa [List.mem_reverse])]
  rfl

theorem before_of_not_mem (h : c ∉ s) : before c s = s := by
  have hrun := takeWhile_run (r := []) (not_mem_run h) nofun
  rwa [List.append_nil] at hrun

theorem mem_of_mem_before {d : Char} (h : d ∈ before c s) : d ∈ s :=
  (List.takeWhile_prefix _).subset h

theorem mem_of_mem_afterLast {d : Char} (h : d ∈ afterLast c s) : d ∈ s :=
  List.mem_reverse.1 ((List.takeWhile_prefix _).subset (List.mem_reverse.1 h))

theorem afterLast_append (h : c ∉ r) : afterLast c (s ++ c :: r) = r := by
  have hback : (s ++ c :: r).reverse = r.reverse ++ c :: s.reverse := by simp
  rw [afterLast, hback, takeWhile_run (not_mem_run (by rwa [List.mem_reverse])) past_self,
    List.reverse_reverse]

theorem afterLast_of_not_mem (h : c ∉ s) : afterLast c s = s := by
  have hrun := before_of_not_mem (c := c) (s := s.reverse) (by rwa [List.mem_reverse])
  rw [before] at hrun
  rw [afterLast, hrun, List.reverse_reverse]

/-- Trimming a text between blanks gives the text back if it neither begins nor ends with one. -/
theorem trim_append {front back : List Char} (hfront : ∀ c ∈ front, isBlank c = true)
    (hback : ∀ c ∈ back, isBlank c = true) (hne : s ≠ []) (hfirst : Past isBlank s)
    (hlast : Past isBlank s.reverse) : trim (front ++ (s ++ back)) = s := by
  have hpast : Past isBlank (s ++ back) := by
    obtain ⟨c, s, rfl⟩ := List.exists_cons_of_ne_nil hne
    exact hfirst
  rw [trim, trimStart, dropWhile_run hfront hpast, trimEnd, dropEndWhile, List.reverse_append,
    dropWhile_run (fun c hc => hback c (List.mem_reverse.1 hc)) hlast, List.reverse_reverse]

theorem trim_of_past (hne : s ≠ []) (hfirst : Past isBlank s) (hlast : Past isBlank s.reverse) :
    trim s = s := by
  have htrim : trim ([] ++ (s ++ [])) = s := trim_append nofun nofun hne hfirst hlast
  rwa [List.nil_append, List.append_nil] at htrim

theorem past_reverse_trimEnd (s : List Char) : Past isBlank (trimEnd s).reverse := by
  rw [trimEnd, dropEndWhile, List.reverse_reverse]
  exact past_dropWhile _

theorem trimEnd_of_past (h : Past isBlank s.reverse) : trimEnd s = s := by
  rw [trimEnd, dropEndWhile, ← List.nil_append s.reverse,
    dropWhile_run (fun _ hc => absurd hc List.not_mem_nil) h, List.reverse_reverse]

theorem trimEnd_append {back : List Char} (h : ∀ c ∈ back, isBlank c = true) : trimEnd (s ++ back) = trimEnd s := by
  rw [trimEnd, dropEndWhile, List.reverse_append, List.dropWhile_append_of_pos
    (fun c hc => h c (List.mem_reverse.1 hc)), ← dropEndWhile, ← trimEnd]

theorem trimEnd_concat (h : isBlank c = false) : trimEnd (s ++ [c]) = s ++ [c] := by
  refine trimEnd_of_past ?_
  rw [List.reverse_append]
  intro d hd
  cases hd
  exact h

/-- Only blanks are lost at the end. -/
theorem eq_trimEnd_append (s : List Char) : ∃ back, s = trimEnd s ++ back ∧ ∀ c ∈ back, isBlank c = true := by
  refine ⟨(s.reverse.takeWhile isBlank).reverse, ?_, fun c hc => ?_⟩
  · rw [trimEnd, dropEndWhile, ← List.reverse_append, List.takeWhile_append_dropWhile, List.reverse_reverse]
  · exact List.mem_takeWhile_imp (List.mem_reverse.1 hc)

theorem eq_append_trimStart (s : List Char) :
    ∃ front, s = front ++ trimStart s ∧ ∀ c ∈ front, isBlank c = true :=
  ⟨s.takeWhile isBlank, List.takeWhile_append_dropWhile.symm, fun _ hc => List.mem_takeWhile_imp hc⟩

/-- Blanks in front do not matter to trimming. -/
theorem trim_append_left {front : List Char} (h : ∀ c ∈ front, isBlank c = true) : trim (front ++ s) = trim s := by
  rw [trim, trimStart, List.dropWhile_append_of_pos h, ← trimStart, ← trim]

theorem past_of_isPrefix (h : s <+: r) (hr : Past p r) : Past p s := by
  obtain ⟨back, rfl⟩ := h
  cases s with
  | nil => nofun
  | cons c s => exact hr

theorem isPrefix_trimEnd (s : List Char) : trimEnd s <+: s := by
  obtain ⟨back, hs, -⟩ := eq_trimEnd_append s
  exact ⟨back, hs.symm⟩

theorem past_trim (s : List Char) : Past isBlank (trim s) :=
  past_of_isPrefix (isPrefix_trimEnd _) (past_dropWhile s)

theorem trim_eq_trimEnd (h : Past isBlank s) : trim s = trimEnd s := by
  rw [trim, trimStart, ← List.nil_append s, dropWhile_run (fun _ hc => absurd hc List.not_mem_nil) h,
    List.nil_append]

theorem trim_trim (s : List Char) : trim (trim s) = trim s := by
  rw [trim_eq_trimEnd (past_trim s)]
  exact trimEnd_of_past (past_reverse_trimEnd _)

theorem mem_of_mem_trim (h : c ∈ trim s) : c ∈ s :=
  (List.dropWhile_suffix _).subset ((isPrefix_trimEnd _).subset h)

theorem mem_trimEnd_iff (h : isBlank c = false) : c ∈ trimEnd s ↔ c ∈ s := by
  obtain ⟨back, hs, hback⟩ := eq_trimEnd_append s
  have hc : c ∉ back := fun hc => by simp [hback c hc] at h
  conv_rhs => rw [hs]
  simp [hc]

theorem mem_trim_iff (h : isBlank c = false) : c ∈ trim s ↔ c ∈ s := by
  obtain ⟨front, hs, hfront⟩ := eq_append_trimStart s
  have hc : c ∉ front := fun hc => by simp [hfront c hc] at h
  rw [trim, mem_trimEnd_iff h]
  conv_rhs => rw [hs]
  simp [hc]

theorem dropSuffix?_eq_some {e : List Char} : dropSuffix? e s = some r ↔ s = r ++ e := by
  rw [dropSuffix?, Option.map_eq_some_iff]
  constructor
  · rintro ⟨back, hback, rfl⟩
    rw [← List.reverse_reverse s, dropPrefix?_eq_some.1 hback, List.reverse_append, List.reverse_reverse]
  · rintro rfl
    exact ⟨r.reverse, dropPrefix?_eq_some.2 (List.reverse_append ..), List.reverse_reverse r⟩

/-- A text up to a character is that of any beginning that has the character. -/
theorem before_of_isPrefix (h : s <+: r) (hc : c ∈ s) : before c r = before c s := by
  obtain ⟨back, rfl⟩ := h
  obtain ⟨front, rest, rfl, hfront⟩ := List.eq_append_cons_of_mem hc
  rw [List.append_assoc, List.cons_append, before, before, takeWhile_run (not_mem_run hfront) past_self,
    takeWhile_run (not_mem_run hfront) past_self]

/-- Nothing is left of a blank text when it is trimmed, and something is left of any other. -/
theorem isEmpty_trim : (trim s).isEmpty = true ↔ ∀ c ∈ s, isBlank c = true := by
  rw [trim, trimEnd, dropEndWhile, trimStart, List.isEmpty_iff, List.reverse_eq_nil_iff, List.dropWhile_eq_nil_iff]
  simp only [List.mem_reverse]
  constructor
  · intro h
    rw [← List.dropWhile_eq_nil_iff]
    have hpast : Past isBlank (s.dropWhile isBlank) := past_dropWhile s
    cases hrest : s.dropWhile isBlank with
    | nil => rfl
    | cons c rest =>
      rw [hrest] at h hpast
      have hc := h c List.mem_cons_self
      rw [hpast c rfl] at hc
      cases hc
  · intro h c hc
    exact h c ((List.dropWhile_suffix _).subset hc)

theorem past_append (hs : Past p s) (hr : Past p r) : Past p (s ++ r) := by
  cases s with
  | nil => exact hr
  | cons c s => exact hs

theorem past_append_of_ne_nil (hs : Past p s) (hne : s ≠ []) : Past p (s ++ r) := by
  obtain ⟨c, s, rfl⟩ := List.exists_cons_of_ne_nil hne
  exact hs

theorem past_of_forall (h : ∀ c ∈ s, p c = false) : Past p s :=
  fun c hc => h c (List.mem_of_mem_head? hc)

/-- Blanks behind a text do not matter to trimming. -/
theorem trim_append_right {back : List Char} (h : ∀ c ∈ back, isBlank c = true) : trim (s ++ back) = trim s := by
  obtain ⟨front, hs, hfront⟩ := eq_append_trimStart s
  have hpast : Past isBlank (trimStart s) := past_dropWhile s
  cases hrest : trimStart s with
  | nil =>
    rw [hrest, List.append_nil] at hs
    rw [hs]
    have hall : ∀ c ∈ front ++ back, isBlank c = true := List.forall_mem_append.2 ⟨hfront, h⟩
    rw [List.isEmpty_iff.1 (isEmpty_trim.2 hall), List.isEmpty_iff.1 (isEmpty_trim.2 hfront)]
  | cons c rest =>
    rw [hrest] at hs hpast
    have hpast' : Past isBlank (c :: rest ++ back) := hpast
    rw [hs, List.append_assoc, trim_append_left hfront, trim_append_left hfront,
      trim_eq_trimEnd hpast', trim_eq_trimEnd hpast, trimEnd_append h]

/-- A text up to a character, without blanks around it, is that of the trimmed text. -/
theorem trim_before_trim (h : isBlank c = false) (hc : c ∈ s) : trim (before c (trim s)) = trim (before c s) := by
  obtain ⟨front, hs, hfront⟩ := eq_append_trimStart s
  have hrest : before c (trimStart s) = before c (trim s) :=
    before_of_isPrefix (isPrefix_trimEnd _) ((mem_trim_iff h).2 hc)
  have hbefore : before c s = front ++ before c (trimStart s) := by
    conv_lhs => rw [hs]
    exact List.takeWhile_append_of_pos fun d hd => by
      rw [bne_iff_ne]
      rintro rfl
      simp [hfront d hd] at h
  rw [hbefore, hrest, trim_append_left hfront]

/-! ## Pieces between separators -/

theorem join_cons (piece : List Char) (pieces : List (List Char)) :
    join [c] (piece :: pieces) = piece ++ pieces.flatMap (c :: ·) := by
  induction pieces generalizing piece with
  | nil => exact (List.append_nil piece).symm
  | cons q pieces ih => rw [join, ih q, List.flatMap_cons, List.append_assoc, List.singleton_append]; rfl

theorem mem_join {d : Char} {pieces : List (List Char)} (h : d ∈ join [c] pieces) :
    d = c ∨ ∃ piece ∈ pieces, d ∈ piece := by
  cases pieces with
  | nil => cases h
  | cons piece pieces =>
    rw [join_cons, List.mem_append, List.mem_flatMap] at h
    rcases h with h | ⟨other, hother, h⟩
    · exact .inr ⟨piece, List.mem_cons_self, h⟩
    · rcases List.mem_cons.1 h with h | h
      · exact .inl h
      · exact .inr ⟨other, List.mem_cons_of_mem _ hother, h⟩

theorem mem_join_of_mem {d : Char} {piece : List Char} {pieces : List (List Char)} (h : piece ∈ pieces)
    (hd : d ∈ piece) : d ∈ join [c] pieces := by
  cases pieces with
  | nil => cases h
  | cons first pieces =>
    rw [join_cons, List.mem_append, List.mem_flatMap]
    rcases List.mem_cons.1 h with rfl | h
    · exact .inl hd
    · exact .inr ⟨piece, h, List.mem_cons_of_mem _ hd⟩

theorem join_append {pieces others : List (List Char)} (hpieces : pieces ≠ []) (hothers : others ≠ []) :
    join [c] (pieces ++ others) = join [c] pieces ++ c :: join [c] others := by
  obtain ⟨p, pieces, rfl⟩ := List.exists_cons_of_ne_nil hpieces
  obtain ⟨q, others, rfl⟩ := List.exists_cons_of_ne_nil hothers
  rw [List.cons_append, join_cons, join_cons, join_cons, List.flatMap_append, List.flatMap_cons,
    List.append_assoc, List.cons_append]

theorem fields_of_not_mem (h : c ∉ s) : fields c s = [s] := by
  induction s with
  | nil => rfl
  | cons d s ih =>
    rw [List.mem_cons, not_or] at h
    rw [fields, if_neg (Ne.symm h.1), ih h.2]

theorem fields_append (s r : List Char) : fields c (s ++ c :: r) = fields c s ++ fields c r := by
  induction s with
  | nil => exact if_pos rfl
  | cons d s ih =>
    rw [List.cons_append, fields, fields, ih]
    split
    · rfl
    · cases hpieces : fields c s with
      | nil => exact absurd hpieces (fields_ne_nil c s)
      | cons piece pieces => rfl

/-- Joined pieces end as their last one does. -/
theorem past_reverse_join {last : List Char} (hlast : Past p last.reverse) (hne : last ≠ [])
    (pieces : List (List Char)) : Past p (join [c] (pieces ++ [last])).reverse := by
  cases pieces with
  | nil => exact hlast
  | cons piece pieces =>
    rw [join_append (List.cons_ne_nil _ _) (List.cons_ne_nil _ _), List.reverse_append,
      List.reverse_cons, List.append_assoc]
    exact past_append_of_ne_nil hlast (List.reverse_ne_nil_iff.2 hne)

/-- Splitting at a separator undoes joining with it. -/
theorem fields_join_of_not_mem {pieces : List (List Char)} (hne : pieces ≠ [])
    (h : ∀ p ∈ pieces, c ∉ p) : fields c (join [c] pieces) = pieces := by
  induction pieces with
  | nil => exact absurd rfl hne
  | cons p pieces ih =>
    obtain ⟨hp, hpieces⟩ := List.forall_mem_cons.1 h
    cases pieces with
    | nil => exact fields_of_not_mem hp
    | cons q pieces =>
      rw [join, List.append_assoc, List.singleton_append, fields_append, fields_of_not_mem hp,
        ih (List.cons_ne_nil q pieces) hpieces]
      rfl

theorem not_mem_of_mem_fields {piece : List Char} (h : piece ∈ fields c s) : c ∉ piece := by
  induction s generalizing piece with
  | nil =>
    rw [List.mem_singleton.1 h]
    exact List.not_mem_nil
  | cons d s ih =>
    unfold fields at h
    split at h
    · rcases List.mem_cons.1 h with rfl | h
      · exact List.not_mem_nil
      · exact ih h
    · next hd =>
      split at h
      · next hnil => exact absurd hnil (fields_ne_nil c s)
      · next front pieces hpieces =>
        rw [hpieces, List.forall_mem_cons] at ih
        rcases List.mem_cons.1 h with rfl | h
        · rw [List.mem_cons, not_or]
          exact ⟨Ne.symm hd, ih.1⟩
        · exact ih.2 _ h

/-! ## Lines -/

/-- Trimmed, the lines of a text are what stands between its line feeds, but for nothing at the end. -/
theorem map_trim_lines (s : List Char) : (lines s).map trim =
    (if (fields '\n' s).getLast? = some [] then (fields '\n' s).dropLast else fields '\n' s).map trim := by
  have hchomp (l : List Char) : trim (if l.getLast? = some '\r' then l.dropLast else l) = trim l := by
    split
    · next h =>
      obtain ⟨front, rfl⟩ := List.getLast?_eq_some_iff.1 h
      rw [List.dropLast_concat, trim_append_right]
      simp [isBlank]
    · rfl
  simp only [lines]
  generalize (if (fields '\n' s).getLast? = some [] then (fields '\n' s).dropLast else fields '\n' s) = pieces
  cases hpieces : pieces.reverse with
  | nil => rw [List.reverse_eq_nil_iff.1 hpieces]
  | cons last init =>
    rw [← List.reverse_reverse pieces, hpieces]
    simp only [List.map_append, List.map_reverse, List.map_map, List.map_cons, List.map_nil, List.reverse_cons]
    congr 1
    · exact congrArg List.reverse (List.map_congr_left fun l _ => hchomp l)
    · split
      · rw [hchomp]
      · rfl

theorem mem_map_trim_lines {e : List Char} (h : e ≠ []) : e ∈ (lines s).map trim ↔ e ∈ (fields '\n' s).map trim := by
  rw [map_trim_lines]
  split
  · next hlast =>
    obtain ⟨front, hfields⟩ := List.getLast?_eq_some_iff.1 hlast
    rw [hfields, List.dropLast_concat, List.map_append, List.mem_append, or_iff_left]
    intro he
    exact h (List.mem_singleton.1 he)
  · rfl

/-! ## Literals

Evaluation takes the characters of a literal from its encoding, which is slow; these give them as they are
written. -/

theorem toList_literal {l : String} (h : l = .ofList s) : l.toList = s := by rw [h, String.toList_ofList]

theorem toList_append_literal {l m : String} (hl : l.toList = s) (hm : m.toList = r) :
    (l ++ m).toList = s ++ r := by
  rw [String.toList_append, hl, hm]

end Testwright.Text
