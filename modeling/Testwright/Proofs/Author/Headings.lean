import Testwright.Author.Answer
import Testwright.Proofs.Java.Lexing
import Testwright.Proofs.Text.Cutting

/-!
# What reads as a declaration

`className?` and `package?` try a code at the beginning of each line. The texts at which they succeed
are those of `Heading` and `Clause` (`classAt?_eq_some`, `packageAt?_eq_some`), and the first line that
reads decides (`atLine?_eq_some`).
-/

namespace Testwright.Answer

open Text (Past past_dropWhile takeWhile_run dropWhile_run)

/-! ## Gaps -/

/-- Blanks between two words. -/
def Gap (gap : List Char) : Prop := gap ≠ [] ∧ ∀ c ∈ gap, Text.isBlank c = true

variable {s r rest gap word name : List Char}

theorem afterWord?_eq_some :
    afterWord? word s = some r ↔ ∃ gap, Gap gap ∧ Past Text.isBlank r ∧ s = word ++ (gap ++ r) := by
  constructor
  · intro h
    unfold afterWord? at h
    split at h
    · next c rest hdrop =>
      split at h
      · next hc =>
        cases h
        refine ⟨c :: rest.takeWhile Text.isBlank, ⟨nofun, ?_⟩, past_dropWhile rest, ?_⟩
        · intro d hd
          rcases List.mem_cons.1 hd with rfl | hd
          · exact hc
          · exact List.all_eq_true.1 List.all_takeWhile d hd
        · rw [Text.dropPrefix?_eq_some.1 hdrop, Text.trimStart, List.cons_append,
            List.takeWhile_append_dropWhile]
      · cases h
    · cases h
  · rintro ⟨gap, ⟨hne, hgap⟩, hpast, rfl⟩
    obtain ⟨c, gap, rfl⟩ := List.exists_cons_of_ne_nil hne
    have hdrop : Text.dropPrefix? word (word ++ (c :: (gap ++ r))) = some (c :: (gap ++ r)) :=
      Text.dropPrefix?_eq_some.2 rfl
    have hblanks : ∀ d ∈ gap, Text.isBlank d = true := fun d hd => hgap d (List.mem_cons_of_mem _ hd)
    rw [afterWord?, List.cons_append, hdrop]
    simp only [hgap c List.mem_cons_self, if_true]
    rw [Text.trimStart, dropWhile_run hblanks hpast]

/-! ## Classes -/

def isNameStart (c : Char) : Bool := c.isAlpha || c == '_' || c == '$'

def isNameChar (c : Char) : Bool := Text.isWord c || c == '$'

/-- A name that the reader takes for one of a class. -/
def IsName : List Char → Prop
  | [] => False
  | c :: rest => isNameStart c = true ∧ ∀ d ∈ rest, isNameChar d = true

instance : DecidablePred IsName
  | [] => .isFalse id
  | c :: rest => decidable_of_iff (isNameStart c = true ∧ rest.all isNameChar = true)
    (and_congr_right fun _ => List.all_eq_true)

/-- Modifiers, the word `class` and a name, all of it. -/
inductive Heading (name : List Char) : List Char → Prop
  | keyword {gap rest : List Char} (gapped : Gap gap) (ends : Past isNameChar rest) :
    Heading name ("class".toList ++ (gap ++ (name ++ rest)))
  | modifier {word gap rest : List Char} (mem : word ∈ classModifiers) (gapped : Gap gap)
    (others : Heading name rest) : Heading name (word ++ (gap ++ rest))

theorem isWord_of_isAlpha {c : Char} (h : c.isAlpha = true) : Text.isWord c = true := by
  have hlt : c.toNat < 0x80 := by
    have hcases : c.isUpper = true ∨ c.isLower = true := (Bool.or_eq_true ..).mp h
    rcases hcases with hupper | hlower
    · have hle : c.val ≥ 'A'.val ∧ c.val ≤ 'Z'.val := of_decide_eq_true hupper
      exact Nat.lt_of_le_of_lt hle.2 (by decide)
    · have hle : c.val ≤ 'z'.val := of_decide_eq_true ((Bool.and_eq_true ..).mp hlower).2
      exact Nat.lt_of_le_of_lt hle (by decide)
  simp [Text.isWord, hlt, Char.isAlphanum, h]

theorem isNameChar_of_isNameStart {c : Char} (h : isNameStart c = true) : isNameChar c = true := by
  simp only [isNameStart, Bool.or_eq_true, beq_iff_eq] at h
  rcases h with (h | rfl) | rfl
  · simp [isNameChar, isWord_of_isAlpha h]
  · rfl
  · rfl

theorem isWord_of_isBlank {c : Char} (h : Text.isBlank c = true) : Text.isWord c = false := by
  have hall : (Java.Token.blanks.all fun n => !Text.isWord (Char.ofNat n)) = true := by decide +kernel
  have hnot := List.all_eq_true.1 hall _ (Java.Token.mem_blanks h)
  rw [Char.ofNat_toNat] at hnot
  simpa using hnot

theorem isNameChar_of_isBlank {c : Char} (h : Text.isBlank c = true) : isNameChar c = false := by
  rw [isNameChar, isWord_of_isBlank h, Bool.false_or, beq_eq_false_iff_ne]
  rintro rfl
  cases h

theorem IsName.chars (h : IsName name) : ∀ c ∈ name, isNameChar c = true := by
  cases name with
  | nil => nofun
  | cons c rest => exact List.forall_mem_cons.2 ⟨isNameChar_of_isNameStart h.1, h.2⟩

theorem IsName.past (h : IsName name) : Past Text.isBlank (name ++ rest) := by
  cases name with
  | nil => cases h
  | cons c name =>
    intro d hd
    cases hd
    refine Bool.eq_false_iff.2 fun hblank => ?_
    have hname := isNameChar_of_isNameStart h.1
    rw [isNameChar_of_isBlank hblank] at hname
    cases hname

theorem Heading.past (h : Heading name s) : Past Text.isBlank s := by
  cases h with
  | keyword =>
    intro c hc
    cases hc
    rfl
  | modifier mem =>
    intro c hc
    simp only [classModifiers, List.map, List.mem_cons, List.not_mem_nil, or_false] at mem
    rcases mem with rfl | rfl | rfl <;> cases hc <;> rfl

theorem Heading.ne_nil (h : Heading name s) : s ≠ [] := by
  cases h with
  | keyword => nofun
  | modifier mem gapped =>
    exact List.append_ne_nil_of_right_ne_nil _ (List.append_ne_nil_of_left_ne_nil gapped.1 _)

theorem modifier?_eq_some :
    (classModifiers.findSome? fun word => afterWord? word s) = some r ↔
      ∃ word ∈ classModifiers, ∃ gap, Gap gap ∧ Past Text.isBlank r ∧ s = word ++ (gap ++ r) := by
  constructor
  · intro h
    obtain ⟨word, hword, hafter⟩ := List.exists_of_findSome?_eq_some h
    exact ⟨word, hword, afterWord?_eq_some.1 hafter⟩
  · rintro ⟨word, hword, gap, hgap, hpast, rfl⟩
    have hafter : afterWord? word (word ++ (gap ++ r)) = some r :=
      afterWord?_eq_some.2 ⟨gap, hgap, hpast, rfl⟩
    -- no modifier begins another one, so none in front of this one fits
    simp only [classModifiers, List.map, List.mem_cons, List.not_mem_nil, or_false] at hword
    rcases hword with rfl | rfl | rfl
    · simp only [classModifiers, List.map, List.findSome?, hafter]
    · simp only [classModifiers, List.map, List.findSome?, hafter]
      rfl
    · simp only [classModifiers, List.map, List.findSome?, hafter]
      rfl

theorem Heading.dropModifiers {fuel : Nat} (h : Heading name s) (hfuel : s.length ≤ fuel) :
    ∃ gap rest, Gap gap ∧ Past isNameChar rest ∧
      Answer.dropModifiers fuel s = "class".toList ++ (gap ++ (name ++ rest)) := by
  induction h generalizing fuel with
  | @keyword gap rest gapped ends =>
    refine ⟨gap, rest, gapped, ends, ?_⟩
    cases fuel with
    | zero => rfl
    | succ fuel => rfl
  | @modifier word gap rest mem gapped others ih =>
    have hpos := List.length_pos_iff.2 gapped.1
    rw [List.length_append, List.length_append] at hfuel
    cases fuel with
    | zero => omega
    | succ fuel =>
      rw [Answer.dropModifiers, modifier?_eq_some.2 ⟨word, mem, gap, gapped, others.past, rfl⟩]
      exact ih (by omega)

theorem heading_of_dropModifiers {fuel : Nat} (hgap : Gap gap)
    (hends : Past isNameChar rest)
    (h : dropModifiers fuel s = "class".toList ++ (gap ++ (name ++ rest))) : Heading name s := by
  induction fuel generalizing s with
  | zero =>
    rw [dropModifiers] at h
    exact h ▸ .keyword hgap hends
  | succ fuel ih =>
    unfold dropModifiers at h
    split at h
    · next after hafter =>
      obtain ⟨word, hword, gap', hgap', -, rfl⟩ := modifier?_eq_some.1 hafter
      exact .modifier hword hgap' (ih h)
    · exact h ▸ .keyword hgap hends

/-- The reader finds a class of a name at the beginning of a text if its heading stands there. -/
theorem classAt?_eq_some :
    classAt? s = some name ↔ IsName name ∧ Heading name (Text.trimStart s) := by
  constructor
  · intro h
    unfold classAt? at h
    split at h
    · cases h
    · cases h
    · next c after hafter =>
      split at h
      · next hc =>
        cases h
        obtain ⟨gap, hgap, -, hdrop⟩ := afterWord?_eq_some.1 hafter
        refine ⟨⟨hc, fun d hd => List.all_eq_true.1 List.all_takeWhile d hd⟩, ?_⟩
        apply heading_of_dropModifiers hgap (past_dropWhile after)
        rw [hdrop]
        exact congrArg (fun t => "class".toList ++ (gap ++ (c :: t)))
          List.takeWhile_append_dropWhile.symm
      · cases h
  · rintro ⟨hname, hheading⟩
    have hfuel : (Text.trimStart s).length ≤ s.length := (List.dropWhile_suffix _).length_le
    obtain ⟨gap, rest, hgap, hends, hdrop⟩ := hheading.dropModifiers hfuel
    rw [classAt?, hdrop, afterWord?_eq_some.2 ⟨gap, hgap, hname.past, rfl⟩]
    cases name with
    | nil => cases hname
    | cons c name =>
      have hstart : (c.isAlpha || c == '_' || c == '$') = true := hname.1
      simp only [List.cons_append, hstart, if_true]
      exact congrArg (fun t => some (c :: t)) (takeWhile_run hname.2 hends)

/-! ## Packages -/

def isPathChar (c : Char) : Bool := Text.isWord c || c == '.'

/-- A name that the reader takes for one of a package. -/
def IsPath (path : List Char) : Prop := path ≠ [] ∧ ∀ c ∈ path, isPathChar c = true

/-- The word `package`, a name and a semicolon. -/
def Clause (name s : List Char) : Prop :=
  ∃ gap blanks rest, Gap gap ∧ (∀ c ∈ blanks, Text.isBlank c = true) ∧
    s = "package".toList ++ (gap ++ (name ++ (blanks ++ ';' :: rest)))

theorem isPathChar_of_isBlank {c : Char} (h : Text.isBlank c = true) : isPathChar c = false := by
  rw [isPathChar, isWord_of_isBlank h, Bool.false_or, beq_eq_false_iff_ne]
  rintro rfl
  cases h

theorem IsPath.past (h : IsPath name) : Past Text.isBlank (name ++ rest) := by
  obtain ⟨hne, hchars⟩ := h
  obtain ⟨c, name, rfl⟩ := List.exists_cons_of_ne_nil hne
  intro d hd
  cases hd
  refine Bool.eq_false_iff.2 fun hblank => ?_
  have hpath := hchars c List.mem_cons_self
  rw [isPathChar_of_isBlank hblank] at hpath
  cases hpath

/-- The reader finds a package of a name at the beginning of a text if its clause stands there. -/
theorem packageAt?_eq_some :
    packageAt? s = some name ↔ IsPath name ∧ Clause name (Text.trimStart s) := by
  constructor
  · intro h
    unfold packageAt? at h
    split at h
    · cases h
    · next after hafter =>
      obtain ⟨gap, hgap, -, hs⟩ := afterWord?_eq_some.1 hafter
      simp only at h
      split at h
      · cases h
      · next hne =>
        split at h
        · next rest hrest =>
          cases h
          refine ⟨⟨hne, fun d hd => List.all_eq_true.1 List.all_takeWhile d hd⟩, gap,
            (after.dropWhile isPathChar).takeWhile Text.isBlank, rest, hgap,
            fun d hd => List.all_eq_true.1 List.all_takeWhile d hd, ?_⟩
          change Text.trimStart (after.dropWhile isPathChar) = _ at hrest
          rw [hs, ← hrest, Text.trimStart, List.takeWhile_append_dropWhile]
          exact congrArg (fun t => "package".toList ++ (gap ++ t))
            List.takeWhile_append_dropWhile.symm
        · cases h
  · rintro ⟨hpath, gap, blanks, rest, hgap, hblanks, hs⟩
    have hback : Past isPathChar (blanks ++ ';' :: rest) := by
      intro c hc
      cases blanks with
      | nil =>
        cases hc
        rfl
      | cons d blanks =>
        cases hc
        exact isPathChar_of_isBlank (hblanks _ List.mem_cons_self)
    obtain ⟨c, path, rfl⟩ := List.exists_cons_of_ne_nil hpath.1
    have hsemicolon : Past Text.isBlank (';' :: rest) := by
      intro c hc
      cases hc
      rfl
    have hchars : (fun c => Text.isWord c || c == '.') = isPathChar := rfl
    rw [packageAt?, hs, afterWord?_eq_some.2 ⟨gap, hgap, hpath.past, rfl⟩]
    simp only [hchars, takeWhile_run hpath.2 hback, dropWhile_run hpath.2 hback, Text.trimStart,
      dropWhile_run hblanks hsemicolon]

/-! ## Lines -/

/-- The rests of a text behind its line feeds. -/
def laterLines : List Char → List (List Char)
  | [] => []
  | c :: rest => if c = '\n' then rest :: laterLines rest else laterLines rest

/-- The rests of a text from the beginning of each of its lines. -/
def fromLines (s : List Char) : List (List Char) := s :: laterLines s

section
variable {α : Type} {f : List Char → Option α} {a : α}

theorem atLaterLine?_eq_findSome? : atLaterLine? f s = (laterLines s).findSome? f := by
  induction s with
  | nil => rfl
  | cons c rest ih =>
    unfold atLaterLine? laterLines
    split
    · rw [List.findSome?, ih]
      rfl
    · exact ih

theorem atLine?_eq_findSome? : atLine? f s = (fromLines s).findSome? f := by
  rw [atLine?, fromLines, List.findSome?, atLaterLine?_eq_findSome?]
  rfl

/-- A line begins at a position. -/
def LineStart (s : List Char) (i : Nat) : Prop := i ≤ s.length ∧ (i = 0 ∨ s[i - 1]? = some '\n')

theorem mem_laterLines : r ∈ laterLines s ↔ ∃ i < s.length, s[i]? = some '\n' ∧ r = s.drop (i + 1) := by
  induction s with
  | nil => simp [laterLines]
  | cons c rest ih =>
    have split_first : (∃ i < (c :: rest).length, (c :: rest)[i]? = some '\n' ∧
        r = (c :: rest).drop (i + 1)) ↔
          (c = '\n' ∧ r = rest) ∨ ∃ i < rest.length, rest[i]? = some '\n' ∧ r = rest.drop (i + 1) := by
      constructor
      · rintro ⟨i, hi, hfeed, hr⟩
        cases i with
        | zero => exact .inl ⟨Option.some.inj hfeed, hr⟩
        | succ i => exact .inr ⟨i, Nat.lt_of_succ_lt_succ hi, hfeed, hr⟩
      · rintro (⟨rfl, rfl⟩ | ⟨i, hi, hfeed, hr⟩)
        · exact ⟨0, Nat.succ_pos _, rfl, rfl⟩
        · exact ⟨i + 1, Nat.succ_lt_succ hi, hfeed, hr⟩
    rw [split_first, ← ih, laterLines]
    split
    · next hc => simp [hc]
    · next hc => simp [hc]

theorem mem_fromLines : r ∈ fromLines s ↔ ∃ i, LineStart s i ∧ r = s.drop i := by
  rw [fromLines, List.mem_cons, mem_laterLines]
  constructor
  · rintro (rfl | ⟨i, hi, hfeed, rfl⟩)
    · exact ⟨0, ⟨Nat.zero_le _, .inl rfl⟩, rfl⟩
    · exact ⟨i + 1, ⟨hi, .inr hfeed⟩, rfl⟩
  · rintro ⟨i, ⟨hi, hfeed⟩, rfl⟩
    cases i with
    | zero => exact .inl rfl
    | succ i => exact .inr ⟨i, hi, hfeed.resolve_left (Nat.succ_ne_zero i), rfl⟩

theorem length_lt_of_mem_laterLines (h : r ∈ laterLines s) : r.length < s.length := by
  obtain ⟨i, hi, -, rfl⟩ := mem_laterLines.1 h
  rw [List.length_drop]
  omega

theorem laterLines_sorted (s : List Char) :
    (laterLines s).Pairwise fun r r' => r'.length < r.length := by
  induction s with
  | nil => exact .nil
  | cons c rest ih =>
    unfold laterLines
    split
    · exact .cons (fun r hr => length_lt_of_mem_laterLines hr) ih
    · exact ih

theorem fromLines_sorted (s : List Char) :
    (fromLines s).Pairwise fun r r' => r'.length < r.length :=
  .cons (fun _ hr => length_lt_of_mem_laterLines hr) (laterLines_sorted s)

/-- The answer at a line counts if the lines in front of it have no other. -/
theorem atLine?_eq_some {i : Nat} (hi : LineStart s i) (ha : f (s.drop i) = some a)
    (hfront : ∀ j, LineStart s j → j < i → ∀ b, f (s.drop j) = some b → b = a) :
    atLine? f s = some a := by
  obtain ⟨front, back, hlines⟩ := List.append_of_mem (mem_fromLines.2 ⟨i, hi, rfl⟩)
  rw [atLine?_eq_findSome?, hlines, List.findSome?_append, List.findSome?_cons, ha]
  cases hfind : front.findSome? f with
  | none => rfl
  | some b =>
    obtain ⟨r, hr, hb⟩ := List.exists_of_findSome?_eq_some hfind
    have hmem : r ∈ fromLines s := hlines ▸ List.mem_append_left _ hr
    obtain ⟨j, hj, rfl⟩ := mem_fromLines.1 hmem
    have hlonger : (s.drop i).length < (s.drop j).length := by
      have hsorted := fromLines_sorted s
      rw [hlines] at hsorted
      exact (List.pairwise_append.1 hsorted).2.2 _ hr _ List.mem_cons_self
    rw [List.length_drop, List.length_drop] at hlonger
    rw [Option.some_or, hfront j hj (by omega) b hb]

theorem atLine?_eq_none (h : ∀ i, LineStart s i → f (s.drop i) = none) : atLine? f s = none := by
  rw [atLine?_eq_findSome?, List.findSome?_eq_none_iff]
  intro r hr
  obtain ⟨i, hi, rfl⟩ := mem_fromLines.1 hr
  exact h i hi

end

end Testwright.Answer
