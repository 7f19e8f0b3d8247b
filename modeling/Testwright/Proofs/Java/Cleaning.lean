import Mathlib.Data.List.Basic
import Testwright.Proofs.Java.Scrubbing
import Testwright.Proofs.Text.Cutting

/-!
# Cleaning a text again

A cleaned text is left alone when it is cleaned again unless the first time leaves something to do
(`sanitize_idem_iff`). A block comment behind the banner leaves a blank in front; a progress line may come to
stand in front; and a synthetic class beside a comment stands as a type only when the comment is gone
(`Veiled`).

Scrubbing adds no slash and no line break (`count_scrubFrom_le`), so what is dropped with a banner does not
come back, and a text that is left alone has no banner. The synthetic classes that stand as types in a
scrubbed text are those that were veiled (`any_isSyntheticType_scrub`).
-/

namespace Testwright.Java

namespace Scrub

variable {front front' w t s : List Char} {c d : Char} {kind : PieceKind} {before behind ps qs : List Piece}
  {p : Piece}

theorem scrub_eq (s : List Char) : scrub s = scrubFrom [] s := rfl

/-! ## Characters that are not added -/

/-- Scrubbing adds only spaces and the letters of the placeholder. -/
theorem count_scrubbed_le (hspace : d ≠ ' ') (hletter : d ∉ placeholder) (x : Spot) :
    x.scrubbed.count d ≤ x.piece.text.count d := by
  obtain ⟨front, ⟨kind, text⟩, rear⟩ := x
  cases kind with
  | literal | other => exact Nat.le_refl _
  | blockComment =>
    have hcount : (' ' :: text.filter (· == '\n')).count d = (text.filter (· == '\n')).count d :=
      List.count_cons_of_ne (Ne.symm hspace)
    exact hcount ▸ (List.filter_sublist.count_le d)
  | lineComment =>
    simp only [Spot.scrubbed, scrubPiece]
    split
    · exact Nat.le_refl _
    · exact Nat.zero_le _
  | name =>
    simp only [Spot.scrubbed, scrubPiece]
    split
    · rw [List.count_eq_zero_of_not_mem hletter]
      exact Nat.zero_le _
    · exact Nat.le_refl _

theorem count_scrubFrom_le (hspace : d ≠ ' ') (hletter : d ∉ placeholder) :
    (scrubFrom front s).count d ≤ s.count d := by
  induction s using induction_pieces generalizing front with
  | nil => exact Nat.le_refl _
  | append c w t kind h ih =>
    rw [scrubFrom_append h, ← List.cons_append, List.count_append, List.count_append]
    exact Nat.add_le_add (count_scrubbed_le hspace hletter (spot front kind c w t)) ih

theorem count_scrub_le (hspace : d ≠ ' ') (hletter : d ∉ placeholder) (s : List Char) :
    (scrub s).count d ≤ s.count d := by
  rw [scrub_eq]
  exact count_scrubFrom_le hspace hletter

/-! ## The first character -/

theorem kind_eq_blockComment_iff (h : first c (w ++ t) = (kind, w.length + 1)) :
    kind = .blockComment ↔ ['/', '*'] <+: c :: (w ++ t) := by
  constructor
  · rintro rfl
    obtain rfl : c = '/' := by simpa using kind_cases h
    by_cases hblock : (w ++ t).head? = some '*'
    · obtain ⟨r, hr⟩ := List.head?_eq_some_iff.1 hblock
      rw [hr]
      exact List.prefix_append ['/', '*'] r
    · by_cases hline : (w ++ t).head? = some '/'
      · obtain ⟨r, hr⟩ := List.head?_eq_some_iff.1 hline
        rw [hr] at h
        cases congrArg Prod.fst h
      · rw [first_slash hblock hline] at h
        cases congrArg Prod.fst h
  · rintro ⟨r, hr⟩
    obtain ⟨rfl, hrest⟩ := List.cons.inj hr
    rw [show w ++ t = '*' :: r from hrest.symm] at h
    exact (congrArg Prod.fst h).symm

/-- The slashes of a block comment in front are lost. -/
theorem count_slash_scrub_lt (h : ['/', '*'] <+: s) : (scrub s).count '/' < s.count '/' := by
  cases s with
  | nil => simp at h
  | cons c r =>
    obtain ⟨kind, w, t, rfl, hfirst⟩ := exists_first c r
    cases (kind_eq_blockComment_iff hfirst).2 h
    obtain rfl : c = '/' := by simpa using kind_cases hfirst
    have hnone : (spot [] .blockComment '/' w t).scrubbed.count '/' = 0 := by
      refine List.count_eq_zero_of_not_mem fun hmem => ?_
      rcases List.mem_cons.1 hmem with hspace | hmem
      · exact absurd hspace (by decide)
      · exact absurd (List.mem_filter.1 hmem).2 (by decide)
    have hrest : (scrubFrom ([] ++ '/' :: w) t).count '/' ≤ t.count '/' :=
      count_scrubFrom_le (by decide) (by decide)
    rw [scrub_eq, scrubFrom_append hfirst, List.count_append, hnone, List.count_cons_self, List.count_append]
    omega

/-- A scrubbed text begins with a blank if the text begins with a block comment, and only then. -/
theorem past_scrub_iff (h : Text.Past Text.isBlank s) :
    Text.Past Text.isBlank (scrub s) ↔ ¬['/', '*'] <+: s := by
  cases s with
  | nil => exact ⟨fun _ => by simp, fun _ => nofun⟩
  | cons c r =>
    obtain ⟨kind, w, t, rfl, hfirst⟩ := exists_first c r
    have hblank : Text.isBlank c = false := h c rfl
    have hkept : Text.Past Text.isBlank (c :: w) := by
      rintro _ ⟨⟩
      exact hblank
    rw [scrub_eq, scrubFrom_append hfirst, ← kind_eq_blockComment_iff hfirst]
    cases kind with
    | blockComment =>
      refine iff_of_false (fun hpast => ?_) (fun hnot => hnot rfl)
      exact absurd (hpast ' ' rfl) (by decide)
    | literal | lineComment | other =>
      exact iff_of_true (Text.past_append_of_ne_nil hkept (List.cons_ne_nil c w)) nofun
    | name =>
      refine iff_of_true ?_ nofun
      simp only [Spot.scrubbed, scrubPiece]
      split
      · rintro _ ⟨⟩
        decide
      · exact Text.past_append_of_ne_nil hkept (List.cons_ne_nil c w)

/-- A scrubbed text has no block comment. -/
theorem not_prefix_scrub (s : List Char) : ¬['/', '*'] <+: scrub s := by
  intro h
  have hheadings := isHeading_of_scrub s
  generalize scrub s = u at h hheadings
  cases u with
  | nil => simp at h
  | cons c r =>
    obtain ⟨kind, w, t, rfl, hfirst⟩ := exists_first c r
    cases (kind_eq_blockComment_iff hfirst).2 h
    have hmem : spot [] .blockComment c w t ∈ spots (c :: (w ++ t)) := by
      rw [spots, spotsFrom_append hfirst]
      exact List.mem_cons_self
    cases hheadings _ hmem rfl

/-! ## Synthetic classes that are left -/

theorem isSynthetic_placeholder : isSynthetic placeholder = false := by decide

/-- A scrubbed text is left alone by scrubbing just if no synthetic class stands as a type in it. -/
theorem scrub_scrub_eq_iff (s : List Char) :
    scrub (scrub s) = scrub s ↔ (spots (scrub s)).any Spot.isSyntheticType = false := by
  have hheadings := isHeading_of_scrub s
  generalize scrub s = u at hheadings ⊢
  have hremains : ∀ x ∈ spots u, x.remains = [x.retyped] := by
    intro x hx
    cases hcomment : x.piece.isComment with
    | false => exact remains_of_not_comment hcomment
    | true =>
      have hkind := hheadings x hx hcomment
      have hretyped : x.retyped = x.piece := by
        refine if_neg fun hsynthetic => ?_
        rw [Piece.isComment, kind_of_isSyntheticType hsynthetic] at hcomment
        cases hcomment
      rw [remains_of_isHeading hkind, hretyped]
  have hpieces : pieces (scrub u) = (spots u).map Spot.retyped := by
    rw [List.map_eq_flatMap, ← List.flatMap_congr hremains]
    exact pieces_scrubFrom [] u
  have hspots : pieces u = (spots u).map Spot.piece := (piece_spotsFrom [] (pieces u)).symm
  rw [List.any_eq_false]
  constructor
  · intro heq x hx hsynthetic
    rw [heq, hspots] at hpieces
    have hretyped : x.piece = x.retyped := List.map_inj_left.1 hpieces x hx
    rw [Spot.retyped, if_pos hsynthetic] at hretyped
    rw [Spot.isSyntheticType, hretyped, isSynthetic_placeholder] at hsynthetic
    cases hsynthetic
  · intro hnone
    have hretyped : ∀ x ∈ spots u, x.retyped = x.piece := fun x hx => if_neg (hnone x hx)
    rw [List.map_congr_left hretyped, ← hspots] at hpieces
    rw [← pieces_flatten (scrub u), hpieces, pieces_flatten]

/-! ## Synthetic classes beside comments -/

/-- Whether a type can follow some pieces, with a comment at their end taken for a blank. -/
def typeFollows (before : List Piece) : Bool :=
  before.getLast?.any Piece.isComment || typeMayFollow (before.flatMap Piece.text).getLast?

/-- Whether a type can precede some pieces, with a comment in front of them taken for a blank. -/
def typePrecedes (behind : List Piece) : Bool :=
  behind.head?.any Piece.isComment || typeMayPrecede (behind.flatMap Piece.text).head?

/-- A synthetic class between pieces that stands as a type when comments are taken for blanks, and only
then. -/
structure VeiledBy (before : List Piece) (p : Piece) (behind : List Piece) : Prop where
  name : p.kind = .name
  synthetic : isSynthetic p.text = true
  follows : typeFollows before = true
  precedes : typePrecedes behind = true
  unseen : (⟨before.flatMap Piece.text, p, behind.flatMap Piece.text⟩ : Spot).isSyntheticType = false

/-- One of some pieces behind others is a synthetic class that is veiled by comments. -/
def VeiledAmong (before ps : List Piece) : Prop :=
  ∃ mid p behind, ps = mid ++ p :: behind ∧ VeiledBy (before ++ mid) p behind

/-- A comment in a text keeps a synthetic class beside it from standing as a type. -/
def Veiled (s : List Char) : Prop := VeiledAmong [] (pieces s)

theorem not_veiledAmong_nil : ¬VeiledAmong before [] := by
  rintro ⟨mid, p, behind, heq, -⟩
  cases mid <;> cases heq

theorem veiledAmong_cons : VeiledAmong before (p :: ps) ↔
    VeiledBy before p ps ∨ VeiledAmong (before ++ [p]) ps := by
  constructor
  · rintro ⟨mid, q, behind, heq, hveiled⟩
    cases mid with
    | nil =>
      obtain ⟨rfl, rfl⟩ := List.cons.inj heq
      exact .inl (List.append_nil before ▸ hveiled)
    | cons r mid =>
      obtain ⟨rfl, rfl⟩ := List.cons.inj heq
      exact .inr ⟨mid, q, behind, rfl, by rwa [List.append_assoc]⟩
  · rintro (hveiled | ⟨mid, q, behind, rfl, hveiled⟩)
    · exact ⟨[], p, ps, rfl, (List.append_nil before).symm ▸ hveiled⟩
    · exact ⟨p :: mid, q, behind, rfl, by rwa [List.append_assoc] at hveiled⟩

/-- Pieces that are no names hold no synthetic classes. -/
theorem any_isSyntheticType_append (h : ∀ p ∈ ps, p.kind ≠ .name) :
    (spotsFrom front (ps ++ qs)).any Spot.isSyntheticType =
      (spotsFrom (front ++ ps.flatMap Piece.text) qs).any Spot.isSyntheticType := by
  induction ps generalizing front with
  | nil => simp
  | cons p ps ih =>
    obtain ⟨hp, hps⟩ := List.forall_mem_cons.1 h
    have hnot : (⟨front, p, (ps ++ qs).flatMap Piece.text⟩ : Spot).isSyntheticType = false :=
      Bool.eq_false_iff.2 fun hsynthetic => hp (kind_of_isSyntheticType hsynthetic)
    rw [List.cons_append, spotsFrom, List.any_cons, hnot, Bool.false_or, ih hps, List.flatMap_cons,
      List.append_assoc]

theorem kind_ne_name_of_mem_remains {x : Spot} (hx : x.piece.kind ≠ .name) (hp : p ∈ x.remains) :
    p.kind ≠ .name := by
  cases hcomment : x.piece.isComment with
  | false =>
    rw [remains_of_not_comment hcomment, List.mem_singleton] at hp
    rwa [hp, kind_retyped]
  | true =>
    cases hheading : x.isHeading with
    | true =>
      rw [remains_of_isHeading hheading, List.mem_singleton] at hp
      rwa [hp]
    | false =>
      rw [(isToken_of_mem_remains hcomment hheading hp).1]
      exact nofun

/-- What scrubbing leaves behind a name begins as the text does, but for comments, which become blank. -/
theorem typeMayPrecede_scrubFrom (hstop : nameLength t = 0)
    (hstart : front.getLast?.all (· == '\n') ≠ true) :
    typeMayPrecede (scrubFrom front t).head? = typePrecedes (pieces t) := by
  cases t with
  | nil => rfl
  | cons c r =>
    obtain ⟨kind, w, t, rfl, hfirst⟩ := exists_first c r
    rw [scrubFrom_append hfirst, typePrecedes, pieces_append hfirst]
    rcases kind_cases hfirst with ⟨rfl, -⟩ | ⟨rfl, -⟩ | ⟨rfl, -⟩ | ⟨rfl, hc⟩ | ⟨rfl, -, -⟩
    · rfl
    · rfl
    · -- nothing is left of the comment, and the end of its line follows
      have hnone : (spot front .lineComment c w t).scrubbed = [] :=
        if_neg fun hline => hstart ((startsLine_iff (x := spot front .lineComment c w t)).2 hline)
      rw [hnone, List.nil_append]
      rcases first_lineComment hfirst with rfl | hline
      · rfl
      · rw [(alike_scrubFrom (front ++ c :: w) t).newline hline]
        rfl
    · rw [nameLength_cons (isNameContinue_of_isNameStart hc)] at hstop
      omega
    · rfl

/-- A name stands as a type in a scrubbed text just if it was not replaced and comments veiled it. -/
theorem isSyntheticType_retyped_iff {t' : List Char} {before : List Piece}
    (hfollow : typeMayFollow front'.getLast? = typeFollows before)
    (hprecede : typeMayPrecede t'.head? = typePrecedes (pieces t)) :
    (⟨front', (spot (before.flatMap Piece.text) .name c w t).retyped, t'⟩ : Spot).isSyntheticType = true ↔
      VeiledBy before ⟨.name, c :: w⟩ (pieces t) := by
  have hrear : (pieces t).flatMap Piece.text = t := pieces_flatten t
  cases hseen : (spot (before.flatMap Piece.text) .name c w t).isSyntheticType with
  | true =>
    rw [Spot.retyped, if_pos hseen]
    refine iff_of_false (fun hsynthetic => ?_) fun hveiled => ?_
    · rw [Spot.isSyntheticType, isSynthetic_placeholder] at hsynthetic
      cases hsynthetic
    · have hunseen := hveiled.unseen
      rw [hrear, hseen] at hunseen
      cases hunseen
  | false =>
    rw [Spot.retyped, if_neg (Bool.eq_false_iff.1 hseen)]
    simp only [Spot.isSyntheticType, hfollow, hprecede, Bool.and_eq_true, beq_self_eq_true, true_and]
    constructor
    · rintro ⟨⟨hsynthetic, hfollows⟩, hprecedes⟩
      exact ⟨rfl, hsynthetic, hfollows, hprecedes, by rwa [hrear]⟩
    · intro hveiled
      exact ⟨⟨hveiled.synthetic, hveiled.follows⟩, hveiled.precedes⟩

theorem typeFollows_concat (before : List Piece) (p : Piece) (hp : p.text ≠ []) :
    typeFollows (before ++ [p]) = (p.isComment || typeMayFollow p.text.getLast?) := by
  rw [typeFollows, List.getLast?_concat, List.flatMap_append, List.flatMap_singleton,
    List.getLast?_append_of_ne_nil _ hp]
  rfl

/-- What scrubbing leaves of a piece is followed by a type as the piece is, but for comments. -/
theorem typeMayFollow_scrubbed (h : first c (w ++ t) = (kind, w.length + 1)) (hname : kind ≠ .name)
    (hstart : ∃ d ∈ t.head?, isNameStart d = true) :
    typeMayFollow (front' ++ (spot front kind c w t).scrubbed).getLast? =
      typeFollows (before ++ [⟨kind, c :: w⟩]) := by
  rw [typeFollows_concat _ _ (List.cons_ne_nil c w)]
  cases kind with
  | name => exact absurd rfl hname
  | literal | other =>
    exact congrArg typeMayFollow (List.getLast?_append_of_ne_nil front' (List.cons_ne_nil c w))
  | blockComment =>
    have hblank : ∀ d ∈ ' ' :: (c :: w).filter (· == '\n'), typeMayFollow (some d) = true := by
      intro d hd
      rcases List.mem_cons.1 hd with rfl | hd
      · decide
      · rw [eq_of_beq (List.mem_filter.1 hd).2]
        decide
    have hne : ' ' :: (c :: w).filter (· == '\n') ≠ [] := List.cons_ne_nil _ _
    change typeMayFollow (front' ++ ' ' :: (c :: w).filter (· == '\n')).getLast? = true
    rw [List.getLast?_append_of_ne_nil _ hne, List.getLast?_eq_some_getLast hne]
    exact hblank _ (List.getLast_mem hne)
  | lineComment =>
    obtain ⟨d, hd, hname⟩ := hstart
    rcases first_lineComment h with rfl | hline
    · cases hd
    · cases hd.symm.trans hline
      exact absurd hname (by decide)

/-- The synthetic classes that stand as types in a scrubbed text are those that comments veiled. -/
theorem any_isSyntheticType_scrubFrom
    (hfollow : (∃ c ∈ s.head?, isNameStart c = true) → typeMayFollow front'.getLast? = typeFollows before) :
    (spotsFrom front' (pieces (scrubFrom (before.flatMap Piece.text) s))).any Spot.isSyntheticType = true ↔
      VeiledAmong before (pieces s) := by
  induction s using induction_pieces generalizing front' before with
  | nil => exact iff_of_false Bool.false_ne_true not_veiledAmong_nil
  | append c w t kind h ih =>
    let p : Piece := ⟨kind, c :: w⟩
    have hbefore : before.flatMap Piece.text ++ c :: w = (before ++ [p]).flatMap Piece.text := by
      simp [p]
    rw [scrubFrom_append h, pieces_scrubbed h (alike_scrubFrom _ t), pieces_append h, veiledAmong_cons]
    by_cases hname : kind = .name
    · subst hname
      have hc : isNameStart c = true := by simpa using kind_cases h
      obtain ⟨hstop, hline⟩ := first_name hc h
      have hlast : (before.flatMap Piece.text ++ c :: w).getLast?.all (· == '\n') ≠ true := by
        have hlines : ∀ d ∈ c :: w, d ≠ '\n' :=
          List.forall_mem_cons.2 ⟨fun heq => absurd (heq ▸ hc) (by decide), hline⟩
        have hne : c :: w ≠ [] := List.cons_ne_nil c w
        rw [List.getLast?_append_of_ne_nil _ hne, List.getLast?_eq_some_getLast hne]
        exact fun hend => hlines _ (List.getLast_mem hne) (eq_of_beq hend)
      have hprecede := typeMayPrecede_scrubFrom hstop hlast
      rw [remains_of_not_comment rfl, List.singleton_append, spotsFrom, List.any_cons, pieces_flatten,
        Bool.or_eq_true]
      refine or_congr (isSyntheticType_retyped_iff (hfollow ⟨c, rfl, hc⟩) hprecede) ?_
      rw [hbefore]
      refine ih ?_
      -- no name follows a name
      rintro ⟨d, hd, hstart⟩
      obtain ⟨r, rfl⟩ := List.head?_eq_some_iff.1 hd
      rw [nameLength_cons (isNameContinue_of_isNameStart hstart)] at hstop
      omega
    · have hnot : ¬VeiledBy before ⟨kind, c :: w⟩ (pieces t) := fun hveiled => hname hveiled.name
      rw [or_iff_right hnot, any_isSyntheticType_append fun p hp => kind_ne_name_of_mem_remains hname hp,
        text_remains, hbefore]
      exact ih (typeMayFollow_scrubbed h hname)

theorem any_isSyntheticType_scrub (s : List Char) :
    (spots (scrub s)).any Spot.isSyntheticType = true ↔ Veiled s := by
  have hfollow : (∃ c ∈ s.head?, isNameStart c = true) → typeMayFollow [].getLast? = typeFollows [] :=
    fun _ => rfl
  exact any_isSyntheticType_scrubFrom hfollow

end Scrub

open Scrub

/-! ## Banners -/

variable {s : List Char}

/-- The text that a progress line begins with. -/
def progressMark : List Char := ['A', 'n', 'a', 'l', 'y', 's', 'i', 'n', 'g']

/-- A text begins with a progress line. -/
def ShowsProgress (s : List Char) : Prop := progressMark <+: s ∧ '\n' ∈ s

theorem dropProgress_suffix (fuel : Nat) (s : List Char) : dropProgress fuel s <:+ s := by
  induction fuel generalizing s with
  | zero => exact List.suffix_rfl
  | succ fuel ih =>
    rw [dropProgress]
    split
    · split
      · next r hr =>
        have hsuffix : r <:+ s.dropWhile (· != '\n') := by
          rw [hr]
          exact List.suffix_cons _ _
        exact (ih r).trans (hsuffix.trans (List.dropWhile_suffix _))
      · exact List.suffix_rfl
    · exact List.suffix_rfl

/-- A progress line in front is dropped with its end. -/
theorem count_dropProgress_lt (h : ShowsProgress s) :
    (dropProgress s.length s).count '\n' < s.count '\n' := by
  obtain ⟨hmark, hline⟩ := h
  obtain ⟨line, r, heq, hnot⟩ := List.eq_append_cons_of_mem hline
  have hdrop : s.dropWhile (· != '\n') = '\n' :: r := by
    rw [heq, Text.dropWhile_run (Text.not_mem_run hnot) Text.past_self]
  obtain ⟨fuel, hfuel⟩ := Nat.exists_eq_succ_of_ne_zero (Nat.ne_of_gt (List.length_pos_of_mem hline))
  have hdropped : dropProgress (fuel + 1) s = dropProgress fuel r := by
    rw [dropProgress, hdrop]
    exact if_pos (List.isPrefixOf_iff_prefix.2 hmark)
  have hle := (dropProgress_suffix fuel r).sublist.count_le '\n'
  rw [hfuel, hdropped, heq, List.count_append, List.count_cons_self]
  omega

theorem dropProgress_of_not_showsProgress (h : ¬ShowsProgress s) (fuel : Nat) : dropProgress fuel s = s := by
  cases fuel with
  | zero => rfl
  | succ fuel =>
    rw [dropProgress]
    split
    · next hmark =>
      have hnot : '\n' ∉ s := fun hline => h ⟨List.isPrefixOf_iff_prefix.1 hmark, hline⟩
      have hdrop := Text.dropWhile_run (r := []) (Text.not_mem_run hnot) nofun
      rw [List.append_nil] at hdrop
      rw [hdrop]
    · rfl

theorem stripBanner_suffix (s : List Char) : stripBanner s <:+ dropProgress s.length s := by
  have htrim : Text.trimStart (dropProgress s.length s) <:+ dropProgress s.length s :=
    List.dropWhile_suffix _
  unfold stripBanner
  dsimp only
  split
  · next r heq =>
    split
    · next before after hcut =>
      have hafter : after <:+ r := by
        rw [Text.cut?_eq_some hcut]
        exact List.suffix_append _ _
      have hopen : r <:+ '/' :: '*' :: r := List.suffix_append ['/', '*'] r
      exact (List.dropWhile_suffix _).trans (hafter.trans (hopen.trans (heq ▸ htrim)))
    · exact htrim
  · exact htrim

theorem past_stripBanner (s : List Char) : Text.Past Text.isBlank (stripBanner s) := by
  unfold stripBanner
  dsimp only
  split
  · split <;> exact Text.past_dropWhile _
  · exact Text.past_dropWhile _

/-- A text without a banner and blanks in front is left as it is. -/
theorem stripBanner_eq_self (hpast : Text.Past Text.isBlank s) (hcomment : ¬['/', '*'] <+: s)
    (hprogress : ¬ShowsProgress s) : stripBanner s = s := by
  have htrim : Text.trimStart (dropProgress s.length s) = s := by
    rw [dropProgress_of_not_showsProgress hprogress]
    exact Text.dropWhile_run (s := []) nofun hpast
  unfold stripBanner
  rw [htrim]
  dsimp only
  split
  · next r => exact absurd (List.prefix_append ['/', '*'] r) hcomment
  · rfl

/-! ## Texts that are left alone -/

/-- A text that cleaning leaves alone does not begin with a blank or a progress line. -/
theorem past_of_sanitize_eq (h : sanitize s = s) : Text.Past Text.isBlank s ∧ ¬ShowsProgress s := by
  have hsuffix : stripBanner s <:+ s := (stripBanner_suffix s).trans (dropProgress_suffix _ _)
  have hcount {d : Char} (hspace : d ≠ ' ') (hletter : d ∉ placeholder) :
      s.count d ≤ (stripBanner s).count d := by
    have hle := count_scrub_le hspace hletter (stripBanner s)
    rwa [← sanitize, h] at hle
  constructor
  · have hcomment : ¬['/', '*'] <+: stripBanner s := by
      intro hcomment
      have hlt := count_slash_scrub_lt hcomment
      have hle := hsuffix.sublist.count_le '/'
      rw [← sanitize, h] at hlt
      omega
    have hpast := (past_scrub_iff (past_stripBanner s)).2 hcomment
    rwa [← sanitize, h] at hpast
  · intro hprogress
    have hlt := count_dropProgress_lt hprogress
    have hle := (stripBanner_suffix s).sublist.count_le '\n'
    have := hcount (d := '\n') (by decide) (by decide)
    omega

/-- **Cleaning a text again changes nothing** unless a block comment stood behind the banner, a progress
line stands in front now, or a comment veiled a synthetic class. -/
theorem sanitize_idem_iff (s : List Char) : sanitize (sanitize s) = sanitize s ↔
    ¬['/', '*'] <+: stripBanner s ∧ ¬ShowsProgress (sanitize s) ∧ ¬Veiled (stripBanner s) := by
  have hpast := past_scrub_iff (past_stripBanner s)
  have hveiled : scrub (sanitize s) = sanitize s ↔ ¬Veiled (stripBanner s) := by
    rw [sanitize, scrub_scrub_eq_iff, ← any_isSyntheticType_scrub, Bool.not_eq_true]
  constructor
  · intro h
    obtain ⟨hfirst, hprogress⟩ := past_of_sanitize_eq h
    have hstrip := stripBanner_eq_self hfirst (not_prefix_scrub _) hprogress
    rw [sanitize, hstrip] at h
    exact ⟨hpast.1 hfirst, hprogress, hveiled.1 h⟩
  · rintro ⟨hcomment, hprogress, hnot⟩
    have hstrip := stripBanner_eq_self (hpast.2 hcomment) (not_prefix_scrub _) hprogress
    exact (congrArg scrub hstrip).trans (hveiled.2 hnot)

/-- A parameter with a comment behind its type, which is a synthetic class. -/
def shaded : List Char :=
  "class Cart \x7b\n    Cart open(Cart$1/* made */ key) \x7b return this; \x7d\n\x7d\n".toList

/-- The type is replaced only when the text is cleaned again. So go the blank that a second comment in front
leaves and a progress line behind an empty one. -/
theorem sanitize_not_idem : sanitize (sanitize shaded) ≠ sanitize shaded ∧
    sanitize shaded =
      "class Cart \x7b\n    Cart open(Cart$1  key) \x7b return this; \x7d\n\x7d\n".toList ∧
    sanitize (sanitize shaded) =
      "class Cart \x7b\n    Cart open(Object  key) \x7b return this; \x7d\n\x7d\n".toList ∧
    sanitize "/* a *//* b */class A \x7b\x7d".toList = " class A \x7b\x7d".toList ∧
    sanitize " class A \x7b\x7d".toList = "class A \x7b\x7d".toList ∧
    sanitize "\nAnalysing A\nclass A \x7b\x7d".toList = "Analysing A\nclass A \x7b\x7d".toList ∧
    sanitize "Analysing A\nclass A \x7b\x7d".toList = "class A \x7b\x7d".toList := by
  decide

end Testwright.Java
