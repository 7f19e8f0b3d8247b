import Mathlib.Data.List.Forall2
import Testwright.Author.Answer
import Testwright.Proofs.Text.Cutting

/-!
# Prose and fenced blocks

An answer as an author is asked to write it: prose in turn with fenced blocks, where backticks stand in
fences only. The two fences of a block look alike. They are paired as they were written
(`blocks_text`), and `codeBlock?_text` says what the answer holds for a test.
-/

namespace Testwright.Answer

open Text (Past past_append past_of_forall takeWhile_run dropWhile_run not_mem_run past_self)

variable {s r front words code : List Char} {b : Block}

/-! ## Pieces of an answer -/

/-- A piece of an answer. -/
inductive Segment where
  | prose (words : List Char)
  | fenced (block : Block)
  deriving DecidableEq, Repr

namespace Segment

/-- Backticks stand in neither prose nor bodies, and tags are made of ASCII letters and digits,
underscores, plus signs and hyphens. -/
def Plain : Segment → Prop
  | prose words => '\x60' ∉ words
  | fenced b =>
    (∀ c ∈ b.tag, c.isAlphanum = true ∨ c = '_' ∨ c = '+' ∨ c = '-') ∧ '\x60' ∉ b.body

def text : Segment → List Char
  | prose words => words
  | fenced b => fence ++ (b.tag ++ '\n' :: (b.body ++ fence))

def block? : Segment → Option Block
  | prose _ => none
  | fenced b => some b

end Segment

variable {segments : List Segment}

/-- The answer made of some pieces. -/
def text (segments : List Segment) : List Char := segments.flatMap Segment.text

/-- The blocks among some pieces. -/
def written (segments : List Segment) : List Block := segments.filterMap Segment.block?

/-! ## One block -/

theorem isTagChar_of_plain {c : Char} (h : c.isAlphanum = true ∨ c = '_' ∨ c = '+' ∨ c = '-') :
    isTagChar c = true := by
  simpa [isTagChar, or_assoc] using h

/-- A tag is neither blank nor ends a line. -/
theorem ne_of_isTagChar {c : Char} (h : isTagChar c = true) : c ≠ ' ' ∧ c ≠ '\t' ∧ c ≠ '\n' := by
  refine ⟨?_, ?_, ?_⟩ <;> rintro rfl <;> cases h

/-- A fence is not found in front of the first backtick. -/
theorem cut?_fence (h : '\x60' ∉ front) (s : List Char) :
    Text.cut? fence (front ++ s) = (Text.cut? fence s).map fun cut => (front ++ cut.1, cut.2) := by
  induction front with
  | nil => simp
  | cons c front ih =>
    rw [List.mem_cons, not_or] at h
    have hdrop : Text.dropPrefix? fence (c :: (front ++ s)) = none := by
      rw [fence, Text.dropPrefix?, if_neg h.1]
    rw [List.cons_append, Text.cut?_cons hdrop, ih h.2, Option.map_map]
    rfl

theorem nextBlock?_prose (h : '\x60' ∉ words) (s : List Char) :
    nextBlock? (words ++ s) = nextBlock? s := by
  rw [nextBlock?, cut?_fence h, nextBlock?]
  cases Text.cut? fence s <;> rfl

/-- The fence behind a tag and a body closes the block. -/
theorem nextBlock?_fenced (h : (Segment.fenced b).Plain) (s : List Char) :
    nextBlock? ((Segment.fenced b).text ++ s) = some (b, s) := by
  obtain ⟨htag, hbody⟩ := h
  have htag : ∀ c ∈ b.tag, isTagChar c = true := fun c hc => isTagChar_of_plain (htag c hc)
  let line := b.tag ++ '\n' :: (b.body ++ (fence ++ s))
  have hopened : Text.cut? fence ((Segment.fenced b).text ++ s) = some ([], line) := by
    rw [Segment.text, List.append_assoc, Text.cut?_append]
    simp [line]
  have hstart : line.dropWhile (fun c => c == ' ' || c == '\t') = line := by
    have htag : Past (fun c => c == ' ' || c == '\t') b.tag := past_of_forall fun c hc => by
      simp [ne_of_isTagChar (htag c hc)]
    exact dropWhile_run (s := []) nofun (past_append htag fun c hc => by cases hc; rfl)
  have htagged : line.takeWhile isTagChar = b.tag :=
    takeWhile_run htag fun c hc => by cases hc; rfl
  have hinner : line.dropWhile (· != '\n') = '\n' :: (b.body ++ (fence ++ s)) := by
    refine dropWhile_run (fun c hc => ?_) past_self
    simp [(ne_of_isTagChar (htag c hc)).2.2]
  have hclosed : Text.cut? fence (b.body ++ (fence ++ s)) = some (b.body, s) := by
    rw [cut?_fence hbody, Text.cut?_append, Option.map_some, List.append_nil]
  rw [nextBlock?, hopened]
  simp only [hstart, htagged, hinner, hclosed, Option.map_some]

/-! ## All blocks -/

theorem blocksUpTo_text {fuel : Nat} (h : ∀ piece ∈ segments, piece.Plain)
    (hfuel : (written segments).length ≤ fuel) :
    blocksUpTo fuel (text segments) = written segments := by
  induction segments generalizing fuel with
  | nil => cases fuel <;> rfl
  | cons piece segments ih =>
    rw [List.forall_mem_cons] at h
    cases piece with
    | prose words =>
      have hnext := nextBlock?_prose h.1 (text segments)
      have hrest := ih h.2 hfuel
      cases fuel with
      | zero => exact hrest
      | succ fuel =>
        rw [blocksUpTo] at hrest ⊢
        rw [text, List.flatMap_cons, Segment.text, ← text, hnext]
        exact hrest
    | fenced b =>
      cases fuel with
      | zero => cases hfuel
      | succ fuel =>
        have hrest := ih h.2 (Nat.le_of_succ_le_succ hfuel)
        rw [blocksUpTo, text, List.flatMap_cons, nextBlock?_fenced h.1, ← text]
        exact congrArg (b :: ·) hrest

theorem length_written_le : (written segments).length ≤ (text segments).length := by
  induction segments with
  | nil => exact Nat.le_refl 0
  | cons piece segments ih =>
    rw [text, List.flatMap_cons, List.length_append, ← text]
    cases piece with
    | prose words => exact Nat.le_add_left_of_le ih
    | fenced b =>
      have hpos : 1 ≤ (Segment.fenced b).text.length := by simp [Segment.text, fence]
      have hlength : (written (.fenced b :: segments)).length = 1 + (written segments).length :=
        Nat.add_comm _ 1
      omega

/-- The blocks of an answer are those it was written with. -/
theorem blocks_text (h : ∀ piece ∈ segments, piece.Plain) : blocks (text segments) = written segments :=
  blocksUpTo_text h length_written_le

/-! ## The block with the test -/

/-- The tag is the word `java`, each letter of it in either case. -/
def Block.TaggedJava (b : Block) : Prop :=
  List.Forall₂ (fun c letter => c = letter ∨ c = letter.toUpper) b.tag "java".toList

theorem toLower_eq_iff {c letter : Char} (h : letter.isLower = true) :
    c.toLower = letter ↔ c = letter ∨ c = letter.toUpper := by
  have hletter : 'a'.val ≤ letter.val ∧ letter.val ≤ 'z'.val := by
    unfold Char.isLower at h
    simpa using h
  have hfirst : 97 ≤ letter.val.toNat := UInt32.le_iff_toNat_le.1 hletter.1
  have hlast : letter.val.toNat ≤ 122 := UInt32.le_iff_toNat_le.1 hletter.2
  have hdown : ('a'.val - 'A'.val).toNat = 32 := rfl
  have hup : ('A'.val - 'a'.val).toNat = 4294967264 := rfl
  have hbound := c.val.toNat_lt
  unfold Char.toLower Char.toUpper
  rw [dif_pos hletter]
  simp only [Char.ext_iff, ← UInt32.toNat_inj]
  split
  · next hc =>
    have hA : 65 ≤ c.val.toNat := UInt32.le_iff_toNat_le.1 hc.1
    have hZ : c.val.toNat ≤ 90 := UInt32.le_iff_toNat_le.1 hc.2
    simp only [UInt32.toNat_add, hdown, hup]
    omega
  · next hc =>
    have hother : ¬ (65 ≤ c.val.toNat ∧ c.val.toNat ≤ 90) := fun h =>
      hc ⟨UInt32.le_iff_toNat_le.2 h.1, UInt32.le_iff_toNat_le.2 h.2⟩
    simp only [UInt32.toNat_add, hup]
    omega

theorem Block.isJava_iff : b.isJava = true ↔ b.TaggedJava := by
  have hmap : b.isJava = true ↔ List.Forall₂ (fun c letter => c.toLower = letter) b.tag "java".toList := by
    rw [isJava, beq_iff_eq, ← List.forall₂_eq_eq_eq, List.forall₂_map_left_iff]
    rfl
  have hlower : ∀ letter ∈ "java".toList, letter.isLower = true := by decide
  rw [hmap, TaggedJava, List.forall₂_iff_get, List.forall₂_iff_get]
  refine and_congr_right fun _ => forall_congr' fun i => forall_congr' fun _ => forall_congr' fun hi => ?_
  exact toLower_eq_iff (hlower _ (List.get_mem _ _))

theorem codeBlock?_eq_some : codeBlock? s = some code ↔
    (∃ b, (blocks s).find? Block.isJava = some b ∧ code = Text.trim b.body) ∨
      (blocks s).find? Block.isJava = none ∧
        ∃ b, ((blocks s).find? fun b => b.tag.isEmpty) = some b ∧ code = Text.trim b.body ∧ code ≠ [] := by
  rw [codeBlock?]
  cases (blocks s).find? Block.isJava with
  | some b => simp [eq_comm]
  | none =>
    cases (blocks s).find? fun b => b.tag.isEmpty with
    | none => simp
    | some b =>
      cases htrim : Text.trim b.body with
      | nil => simp [htrim]
      | cons c body =>
        have hcode : c :: body = code ↔ code = c :: body ∧ code ≠ [] :=
          ⟨fun h => ⟨h.symm, h ▸ List.cons_ne_nil c body⟩, fun h => h.1.symm⟩
        simpa [htrim] using hcode

instance (b : Block) : Decidable b.TaggedJava := decidable_of_iff _ b.isJava_iff

/-- The search for a block comes to the first one that has the property. -/
theorem exists_find?_iff {p : Block → Bool} {P Q : Block → Prop} (hp : ∀ b, p b = true ↔ P b)
    {l : List Block} : (∃ b, l.find? p = some b ∧ Q b) ↔
      ∃ front b back, l = front ++ b :: back ∧ P b ∧ (∀ c ∈ front, ¬ P c) ∧ Q b := by
  simp only [List.find?_eq_some_iff_append, Bool.not_eq_true', Bool.eq_false_iff, ne_eq, hp]
  constructor
  · rintro ⟨b, ⟨hb, front, back, hsplit, hfront⟩, hq⟩
    exact ⟨front, b, back, hsplit, hb, hfront, hq⟩
  · rintro ⟨front, b, back, hsplit, hb, hfront, hq⟩
    exact ⟨b, ⟨hb, front, back, hsplit, hfront⟩, hq⟩

/-- **The code of an answer.** It is what the first block tagged as Java holds; without such a block it
is what the first block without a tag holds, unless that is blank; otherwise there is none. -/
theorem codeBlock?_text (h : ∀ piece ∈ segments, piece.Plain) :
    codeBlock? (text segments) = some code ↔
      (∃ front b back, written segments = front ++ b :: back ∧ b.TaggedJava ∧
        (∀ c ∈ front, ¬ c.TaggedJava) ∧ code = Text.trim b.body) ∨
      (∀ b ∈ written segments, ¬ b.TaggedJava) ∧
        ∃ front b back, written segments = front ++ b :: back ∧ b.tag = [] ∧
          (∀ c ∈ front, c.tag ≠ []) ∧ code = Text.trim b.body ∧ code ≠ [] := by
  have hnone : (written segments).find? Block.isJava = none ↔
      ∀ b ∈ written segments, ¬ b.TaggedJava := by
    rw [List.find?_eq_none]
    exact forall_congr' fun b => imp_congr_right fun _ => not_congr Block.isJava_iff
  have hempty : ∀ b : Block, b.tag.isEmpty = true ↔ b.tag = [] := fun b => List.isEmpty_iff
  rw [codeBlock?_eq_some, blocks_text h, hnone, exists_find?_iff fun b => Block.isJava_iff,
    exists_find?_iff hempty]

/-- Notes without a tag, then XML, then a block whose tag mixes the cases of its letters. -/
theorem codeBlock?_text_mixed :
    let segments : List Segment := [.prose "Plan:\n".toList, .fenced ⟨[], "notes\n".toList⟩,
      .fenced ⟨"xml".toList, "<a/>\n".toList⟩, .prose "Here:\n".toList,
      .fenced ⟨"JaVa".toList, " class A \x7b\x7d\n".toList⟩]
    (∀ piece ∈ segments, piece.Plain) ∧
      codeBlock? (text segments) = some "class A \x7b\x7d".toList := by
  intro segments
  have hplain : ∀ piece ∈ segments, piece.Plain := by
    simp [segments, Segment.Plain]
  refine ⟨hplain, (codeBlock?_text hplain).2 (.inl ?_)⟩
  refine ⟨[⟨[], "notes\n".toList⟩, ⟨"xml".toList, "<a/>\n".toList⟩], _, [], rfl, ?_, ?_, ?_⟩
  · decide
  · decide
  · decide

end Testwright.Answer
