import Testwright.Proofs.Java.Edits
import Testwright.Proofs.Java.Excerpts
import Testwright.Proofs.Java.Parsing

/-!
# Tokens of edited texts

Edits that take whole tokens out of a text, or put a semicolon in their place, do to its tokens what they do to its
characters (`Edit.Independent.tokens?_splice`): a token that no edit covers is found at its new place (`Edit.revise`).
What stands in front of such an edit must not be joined with what follows (`Edit.Cut`): in front of a gap the last
token of the code is a mark, and in front of a semicolon no line comment ends.
-/

namespace Testwright.Java

open Token

variable {x x' u v w source : List Char} {pos pos' p : Nat} {ts us all A B : List Token} {t : Token} {f : Nat → Nat}

/-! ## Texts in front of other texts -/

/-- Comments are told by their first two characters. -/
theorem Token.comment_of_scan? {s : List Char} {kind : Kind} {n : Nat} (h : scan? s = some (.comment kind, n)) :
    (∃ r, s = '/' :: '/' :: r ∧ kind = .lineComment ∧ n = 2 + (r.takeWhile (· != '\n')).length) ∨
      ∃ r, s = '/' :: '*' :: r ∧ kind = .blockComment ∧ blockCommentLength? 2 r = some n := by
  unfold scan? at h
  split at h
  · next r =>
    cases h
    exact .inl ⟨r, rfl, rfl, rfl⟩
  · next r =>
    obtain ⟨k, hk, heq⟩ := Option.map_eq_some_iff.1 h
    cases heq
    exact .inr ⟨r, rfl, rfl, hk⟩
  iterate 3
    · obtain ⟨k, -, heq⟩ := Option.map_eq_some_iff.1 h
      cases heq
  · split at h <;> cases h
  · split at h
    · cases h
    · split at h
      · cases h
      · obtain ⟨k, -, heq⟩ := Option.map_eq_some_iff.1 h
        cases heq
  · cases h

/-- A comment stays the same whatever follows it, a line comment if its line ends with the text. -/
theorem Token.scan?_append_of_comment {kind : Kind} {n : Nat} (h : scan? (u ++ x) = some (.comment kind, n))
    (hn : n ≤ u.length) (hline : kind = .lineComment → n < u.length) : scan? (u ++ x') = some (.comment kind, n) := by
  have hpair (hlt : 2 ≤ n) : ∃ a b r, u = a :: b :: r := by
    obtain ⟨a, u, rfl⟩ := List.exists_cons_of_length_pos (l := u) (by omega)
    obtain ⟨b, u, rfl⟩ := List.exists_cons_of_length_pos (l := u) (by simp at hn; omega)
    exact ⟨a, b, u, rfl⟩
  rcases comment_of_scan? h with ⟨r, heq, rfl, rfl⟩ | ⟨r, heq, rfl, hk⟩
  · have hlt := hline rfl
    obtain ⟨a, b, u, rfl⟩ := hpair (Nat.le_add_right 2 _)
    simp only [List.cons_append, List.cons.injEq] at heq
    obtain ⟨rfl, rfl, rfl⟩ := heq
    have hrun : ((u ++ x).takeWhile (· != '\n')).length < u.length := by
      simp only [List.length_cons] at hlt
      omega
    obtain ⟨hsame, hsame'⟩ := takeWhile_append_of_lt x' hrun
    rw [hsame', ← hsame]
    rfl
  · obtain ⟨a, b, u, rfl⟩ := hpair (Nat.le_of_add_right_le (blockCommentLength?_le hk))
    cases heq
    have hclosed : blockCommentLength? 2 (u ++ x') = some n :=
      blockCommentLength?_append hk (by simp only [List.length_cons] at hn; omega)
    exact congrArg (Option.map _) hclosed

namespace Reads

/-- A text can be moved in front of what follows it. -/
theorem shift (h : Reads x pos u ts) (hf : ∀ k, f (pos + k) = pos' + k) : Reads x pos' u (ts.map (Token.move f)) := by
  induction h generalizing pos' with
  | blank space => exact .blank space
  | @token pos w v u lexeme start stop ts space full solid scan hstart hstop rest ih =>
    have hstart' : f start = pos' + w.length := hstart ▸ hf _
    have hstop' : f stop = f start + v.length := by
      rw [hstart', hstop, hstart, Nat.add_assoc, hf, Nat.add_assoc]
    refine .token space full solid scan hstart' hstop' (ih fun k => ?_)
    rw [hstop', hstart', hstop, hstart, Nat.add_assoc, Nat.add_assoc, hf, Nat.add_assoc, Nat.add_assoc]

/-- Comments keep their places and texts in front of any other text, unless the last is a line comment at the end. -/
theorem of_comments (h : Reads x pos u ts) (hcomments : ∀ t ∈ ts, t.isComment = true)
    (hline : ∀ t ∈ ts.getLast?, t.stop = pos + u.length → t.lexeme ≠ .comment .lineComment) : Reads x' pos u ts := by
  induction h with
  | blank space => exact .blank space
  | @token pos w v u lexeme start stop ts space full solid scan hstart hstop rest ih =>
    obtain ⟨hcomment, hrest⟩ := List.forall_mem_cons.1 hcomments
    have hlength : pos + (w ++ (v ++ u)).length = stop + u.length := by
      simp only [List.length_append]
      omega
    rw [hlength] at hline
    obtain ⟨kind, rfl⟩ : ∃ kind, lexeme = .comment kind := by
      cases lexeme <;> first
        | exact ⟨_, rfl⟩
        | cases hcomment
    refine .token space full solid ?_ hstart hstop (ih hrest fun t ht => hline t ?_)
    · rw [← List.append_assoc] at scan ⊢
      refine scan?_append_of_comment scan (by simp) fun hkind => ?_
      by_cases hu : u = []
      · subst hu hkind
        cases rest.eq_nil rfl
        exact absurd rfl (hline _ rfl (Nat.add_zero stop).symm)
      · have := List.length_pos_iff.2 hu
        rw [List.length_append]
        omega
    · cases ts with
      | nil => cases ht
      | cons t' ts => rwa [List.getLast?_cons_cons]

/-- A text keeps its tokens in front of any other text if the last of its code is a mark. -/
theorem of_mark (h : Reads x pos u ts) (hmark : ∀ b ∈ (code ts).getLast?, b.mark ∈ marks)
    (hline : ∀ t ∈ ts.getLast?, t.stop = pos + u.length → t.lexeme ≠ .comment .lineComment) : Reads x' pos u ts := by
  rcases List.eq_nil_or_concat (code ts) with hnil | ⟨C, b, hcode⟩
  · exact h.of_comments (fun t ht => by simpa using List.filter_eq_nil_iff.1 hnil t ht) hline
  · rw [hcode, List.concat_eq_append, List.getLast?_concat] at hmark
    obtain ⟨ts, m, rfl, -, hm⟩ := List.filter_eq_append_iff.1 (hcode.trans List.concat_eq_append)
    obtain ⟨l, cs, rfl, -, -, hcs⟩ := List.filter_eq_cons_iff.1 hm
    have hcomments : ∀ t ∈ cs, t.isComment = true := fun t ht => by simpa using List.filter_eq_nil_iff.1 hcs t ht
    rw [show ts ++ (l ++ b :: cs) = ts ++ l ++ [b] ++ cs by simp] at h hline ⊢
    obtain ⟨v, w, rfl, hfirst, hsecond, -, -⟩ := h.split
    have hmoved : Reads (w ++ x') pos v ((ts ++ l ++ [b]).map (Token.move id)) :=
      hfirst.move_mark ⟨b, by simp, hmark b rfl⟩ fun k => rfl
    rw [map_move_id] at hmoved
    refine hmoved.append (hsecond.of_comments hcomments fun t ht hstop => hline t ?_ ?_)
    · rw [List.getLast?_append, Option.mem_def.1 ht]
      rfl
    · rw [hstop, List.length_append, Nat.add_assoc]

theorem drop_blank (h : Reads x pos u ts) (hp : pos ≤ p) (hle : p ≤ pos + u.length) (hts : ∀ t ∈ ts, p ≤ t.start) :
    (∀ c ∈ u.take (p - pos), isSpace c = true) ∧ Reads x p (u.drop (p - pos)) ts := by
  cases h with
  | blank space =>
    exact ⟨fun c hc => space c (List.mem_of_mem_take hc), .blank fun c hc => space c (List.mem_of_mem_drop hc)⟩
  | @token _ w v u lexeme start stop ts space full solid scan hstart hstop rest =>
    have hw : p - pos ≤ w.length := by
      have hfirst : p ≤ start := hts _ List.mem_cons_self
      omega
    rw [List.take_append_of_le_length hw, List.drop_append_of_le_length hw]
    refine ⟨fun c hc => space c (List.mem_of_mem_take hc),
      .token (fun c hc => space c (List.mem_of_mem_drop hc)) full solid scan ?_ hstop rest⟩
    rw [hstart, List.length_drop]
    omega

/-- A text can be split where no token stands. -/
theorem split_at (h : Reads x pos u (ts ++ us)) (hp : pos ≤ p) (hle : p ≤ pos + u.length) (hts : ∀ t ∈ ts, t.stop ≤ p)
    (hus : ∀ t ∈ us, p ≤ t.start) :
    Reads (u.drop (p - pos) ++ x) pos (u.take (p - pos)) ts ∧ Reads x p (u.drop (p - pos)) us := by
  obtain ⟨v, w, rfl, hfirst, hsecond, hnil, hlast⟩ := h.split
  have hv : pos + v.length ≤ p := by
    cases hend : ts.getLast? with
    | none =>
      rw [hnil (List.getLast?_eq_none_iff.1 hend)]
      exact hp
    | some t =>
      rw [← hlast t hend]
      exact hts t (List.mem_of_getLast? hend)
  rw [List.length_append] at hle
  obtain ⟨hblank, hrest⟩ := hsecond.drop_blank hv (by omega) hus
  have hsub : p - pos = v.length + (p - (pos + v.length)) := by omega
  rw [hsub, List.take_length_add_append, List.drop_length_add_append]
  refine ⟨?_, hrest⟩
  have hjoined := Reads.append (v := w.take (p - (pos + v.length))) (x := w.drop (p - (pos + v.length)) ++ x)
    (by rwa [← List.append_assoc, List.take_append_drop]) (.blank hblank)
  rwa [List.append_nil] at hjoined

end Reads

/-! ## Tokens after edits -/

namespace Edit

variable {edits : List Edit} {e : Edit} {a b k q : Nat} {C : List Token}

/-- The first visible place behind the beginning of an edit. -/
def front (source : List Char) (e : Edit) : Nat := e.start + ((source.drop e.start).takeWhile isSpace).length

/-- What becomes of a token: an edit puts its replacement in place of the first token of the code that it covers,
and takes the others away. -/
def revise (source : List Char) (edits : List Edit) (t : Token) : List Token :=
  match edits.find? fun e => e.Covers t.start with
  | none => [t.move (place source edits)]
  | some e =>
    if t.start = e.front source ∧ t.isComment = false then
      e.replacement.map fun c => ⟨.symbol, .ofList [c], place source edits e.start, place source edits e.start + 1⟩
    else []

def reviseAll (source : List Char) (edits : List Edit) (ts : List Token) : List Token :=
  ts.flatMap (revise source edits)

theorem reviseAll_append (ts us : List Token) :
    reviseAll source edits (ts ++ us) = reviseAll source edits ts ++ reviseAll source edits us :=
  List.flatMap_append

theorem revise_of_clear (h : ∀ e ∈ edits, ¬e.Covers t.start) :
    revise source edits t = [t.move (place source edits)] := by
  have hnone : (edits.find? fun e => e.Covers t.start) = none := by simpa using h
  rw [revise, hnone]

theorem Independent.revise_of_covers (h : Independent source edits) (he : e ∈ edits) (ht : e.Covers t.start) :
    revise source edits t =
      if t.start = e.front source ∧ t.isComment = false then
        e.replacement.map fun c => ⟨.symbol, .ofList [c], place source edits e.start, place source edits e.start + 1⟩
      else [] := by
  unfold revise
  split
  · next hnone => exact absurd ht (by simpa using List.find?_eq_none.1 hnone e he)
  · next e' he' =>
    have hcovers : e'.Covers t.start := by simpa using List.find?_some he'
    rw [h.eq_of_covers (List.mem_of_find?_eq_some he') he hcovers ht]

/-- The grammar sees of the tokens after some edits what becomes of the tokens that it saw before. -/
theorem code_reviseAll (ts : List Token) : code (reviseAll source edits ts) = reviseAll source edits (code ts) := by
  have hone (t : Token) : code (revise source edits t) = if t.isComment then [] else revise source edits t := by
    unfold revise
    split
    · cases hcomment : t.isComment <;> simp [code, Token.isComment, Token.move] at hcomment ⊢ <;> simp [hcomment]
    · split
      · next hcode =>
        rw [hcode.2]
        exact List.filter_eq_self.2 fun u hu => by
          obtain ⟨c, -, rfl⟩ := List.mem_map.1 hu
          rfl
      · simp [code]
  induction ts with
  | nil => rfl
  | cons t ts ih =>
    have hcons : reviseAll source edits (t :: ts) = revise source edits t ++ reviseAll source edits ts := rfl
    rw [hcons, code_append, hone, ih]
    cases hcomment : t.isComment <;> simp [code, hcomment, reviseAll]

/-! ## Places -/

/-- Where no edit is made, places move together. -/
theorem place_of_clear (h : ∀ e ∈ edits, e.stop ≤ a ∨ b ≤ e.start) (ha : a ≤ q) (hq : q ≤ b)
    (hb : b ≤ source.length) : place source edits q = q - a + place source edits a := by
  rw [place_eq_add ha, substituted_of_clear fun e he => ?_, Tree.slice, List.length_take, List.length_drop]
  · omega
  · exact (h e he).imp_right (Nat.le_trans hq)

/-- Tokens where no edit is made move together. -/
theorem reviseAll_of_clear (h : ∀ e ∈ edits, e.stop ≤ a ∨ b ≤ e.start) (hb : b ≤ source.length)
    (hts : ∀ t ∈ ts, a ≤ t.start ∧ t.start < t.stop ∧ t.stop ≤ b) :
    reviseAll source edits ts = ts.map (Token.move fun q => q - a + place source edits a) := by
  induction ts with
  | nil => rfl
  | cons t ts ih =>
    obtain ⟨⟨hstart, hlt, hstop⟩, hts⟩ := List.forall_mem_cons.1 hts
    have hclear : ∀ e ∈ edits, ¬e.Covers t.start := by
      rintro e he ⟨hle, hlt'⟩
      rcases h e he with hbefore | hbehind <;> omega
    have hmove : t.move (place source edits) = t.move fun q => q - a + place source edits a := by
      simp only [Token.move, place_of_clear h hstart (by omega) hb, place_of_clear h (by omega) hstop hb]
    show revise source edits t ++ reviseAll source edits ts = _
    rw [revise_of_clear hclear, ih hts, hmove]
    rfl

/-- Tokens where no edit is made are read as before. -/
theorem reads_of_clear (h : ∀ e ∈ edits, e.stop ≤ a ∨ b ≤ e.start) (hb : b ≤ source.length)
    (hplaced : Placed source ts) (hreads : Reads x a u ts) (hts : ∀ t ∈ ts, t.stop ≤ b) :
    Reads x (place source edits a) u (reviseAll source edits ts) := by
  rw [reviseAll_of_clear h hb fun t ht => ⟨(hreads.places t ht).1, (hplaced.firm t ht).nonempty, hts t ht⟩]
  exact hreads.shift fun j => by omega

/-! ## Edits between tokens -/

/-- What stands in front of an edit is not joined with what follows: only code that ends with a mark stands in front
of nothing, and in front of a semicolon stood a stopper. -/
inductive Seam (source : List Char) (A B : List Token) (e : Edit) : Prop
  | gap (empty : e.replacement = []) (mark : ∀ b ∈ (code A).getLast?, b.mark ∈ marks)
    (line : ∀ t ∈ A.getLast?, t.stop = e.start → t.lexeme ≠ .comment .lineComment)
  | semicolon (char : e.replacement = [';']) (stopped : Stopped (source.drop e.start))
    (first : ∃ b ∈ B.head?, b.isComment = false) (line : ∀ t ∈ A.getLast?, t.lexeme ≠ .comment .lineComment)

/-- An edit covers whole tokens, not the first ones. -/
structure Cut (source : List Char) (A B C : List Token) (e : Edit) : Prop where
  full : A ≠ []
  front : ∀ t ∈ A, t.stop ≤ e.start
  inside : ∀ t ∈ B, e.start ≤ t.start ∧ t.stop ≤ e.stop
  back : ∀ t ∈ C, e.stop ≤ t.start
  seam : Seam source A B e

namespace Cut

variable {P T ts : List Token} {y : List Char}

/-- The text in front of an edit keeps its tokens. -/
theorem reads (h : Cut source (P ++ T) B C e) (hreads : Reads (source.drop e.start) k u T)
    (hu : k + u.length = e.start) : Reads (e.replacement ++ y) k u T := by
  have hlast : ∀ t ∈ T.getLast?, t ∈ (P ++ T).getLast? := fun t ht => by
    rw [List.getLast?_append, Option.mem_def.1 ht]
    rfl
  cases h.seam with
  | gap empty mark line =>
    rw [empty, List.nil_append]
    refine hreads.of_mark (fun b hb => mark b ?_) fun t ht hstop => line t (hlast t ht) (hstop.trans hu)
    rw [code_append, List.getLast?_append, Option.mem_def.1 hb]
    rfl
  | semicolon char stopped first line =>
    have hmoved : Reads (';' :: y) k u (T.map (Token.move id)) :=
      hreads.move stopped (.cons (show ';' ∈ stoppers by decide)) (.inl fun t ht => line t (hlast t ht)) fun k => rfl
    rw [map_move_id] at hmoved
    rw [char]
    exact hmoved

/-- Of the covered tokens, the replacement is left. -/
theorem reviseAll_eq (h : Cut source A B C e) (hedits : Independent source edits) (he : e ∈ edits)
    (hplaced : Placed source B) (hreads : Reads x e.start w B) (hw : w <+: source.drop e.start) :
    reviseAll source edits B = e.replacement.map fun c =>
      ⟨.symbol, .ofList [c], place source edits e.start, place source edits e.start + 1⟩ := by
  have hcovers : ∀ t ∈ B, e.Covers t.start := fun t ht => by
    have hinside := h.inside t ht
    have hnonempty := (hplaced.firm t ht).nonempty
    exact ⟨hinside.1, by omega⟩
  cases h.seam with
  | gap empty =>
    rw [empty]
    refine List.flatMap_eq_nil_iff.2 fun t ht => ?_
    rw [hedits.revise_of_covers he (hcovers t ht), empty]
    split <;> rfl
  | semicolon char stopped first line =>
    obtain ⟨b, hb, hcode⟩ := first
    obtain ⟨B, rfl⟩ := List.head?_eq_some_iff.1 hb
    have hfront : b.start = e.front source := by
      cases hreads with
      | @token _ gap v u lexeme start stop _ space full solid scan hstart =>
        obtain ⟨r, hr⟩ := hw
        obtain ⟨c, v, rfl⟩ := List.exists_cons_of_ne_nil full
        have hrun : (source.drop e.start).takeWhile isSpace = gap := by
          rw [← hr]
          simp only [List.append_assoc, List.cons_append]
          exact Text.takeWhile_run space (solid · · )
        rw [Edit.front, hrun]
        exact hstart
    have hothers : reviseAll source edits B = [] := List.flatMap_eq_nil_iff.2 fun t ht => by
      rw [hedits.revise_of_covers he (hcovers t (List.mem_cons_of_mem b ht)), if_neg]
      rintro ⟨hstart, -⟩
      have hordered := (List.pairwise_cons.1 hplaced.ordered).1 t ht
      have hnonempty := (hplaced.firm b List.mem_cons_self).nonempty
      omega
    show revise source edits b ++ reviseAll source edits B = _
    rw [hothers, List.append_nil, hedits.revise_of_covers he (hcovers b List.mem_cons_self), if_pos ⟨hfront, hcode⟩]

/-- In place of the covered tokens stands what the edit puts there. -/
theorem reads_replacement (h : Cut source A B C e) (hedits : Independent source edits) (he : e ∈ edits)
    (hplaced : Placed source B) (hreads : Reads x e.start w B) (hw : w <+: source.drop e.start) :
    Reads y (place source edits e.start) e.replacement (reviseAll source edits B) := by
  rw [h.reviseAll_eq hedits he hplaced hreads hw]
  cases h.seam with
  | gap empty =>
    rw [empty]
    exact .blank nofun
  | semicolon char =>
    rw [char]
    exact .mark [] [] (by decide) nofun nofun

/-- The tokens behind a place are those in front of the edit, the covered ones and the rest. -/
theorem split_reads (h : Cut source (P ++ T) B C e) (hk : k ≤ e.start) (hle : e.start ≤ e.stop)
    (hstop : e.stop ≤ source.length) (hreads : Reads [] k (source.drop k) (T ++ (B ++ C))) :
    Reads (source.drop e.start) k ((source.drop k).take (e.start - k)) T ∧
      Reads (source.drop e.stop) e.start ((source.drop e.start).take (e.stop - e.start)) B ∧
      Reads [] e.stop (source.drop e.stop) C := by
  have hlength : k + (source.drop k).length = source.length := by
    rw [List.length_drop]
    omega
  obtain ⟨hfront, hrest⟩ := hreads.split_at hk (by omega) (fun t ht => h.front t (List.mem_append_right P ht))
    fun t ht => (List.mem_append.1 ht).elim (fun ht => (h.inside t ht).1) fun ht => Nat.le_trans hle (h.back t ht)
  rw [List.drop_drop, Nat.add_sub_cancel' hk, List.append_nil] at hfront
  rw [List.drop_drop, Nat.add_sub_cancel' hk] at hrest
  obtain ⟨hcovered, hback⟩ := hrest.split_at (p := e.stop) hle
    (by rw [List.length_drop]; omega) (fun t ht => (h.inside t ht).2) h.back
  rw [List.drop_drop, Nat.add_sub_cancel' hle] at hback
  rw [List.drop_drop, Nat.add_sub_cancel' hle, List.append_nil] at hcovered
  exact ⟨hfront, hcovered, hback⟩

end Cut

/-- The tokens in front of an edit are those in front of a place before it and the next ones. -/
theorem Cut.exists_front {P ts : List Token} (h : Cut source A B C e) (hplaced : Placed source (A ++ (B ++ C)))
    (hle : e.start ≤ e.stop) (hsplit : A ++ (B ++ C) = P ++ ts) (hP : ∀ t ∈ P, t.stop ≤ e.start) :
    ∃ T, A = P ++ T ∧ ts = T ++ (B ++ C) := by
  rcases List.append_eq_append_iff.1 hsplit.symm with hA | ⟨Q, rfl, hQ⟩
  · exact hA
  · cases Q with
    | nil => exact ⟨[], by simp, by simpa using hQ.symm⟩
    | cons t Q =>
      have ht : t ∈ B ++ C := hQ ▸ List.mem_cons_self
      have hnonempty := (hplaced.firm t (List.mem_append_right _ ht)).nonempty
      have hstop := hP t (by simp)
      have hcovered : e.start ≤ t.start :=
        (List.mem_append.1 ht).elim (fun ht => (h.inside t ht).1) fun ht => Nat.le_trans hle (h.back t ht)
      omega

section
variable (h : Independent source edits) (hplaced : Placed source all)
  (hcuts : ∀ e ∈ edits, ∃ A B C, all = A ++ (B ++ C) ∧ Cut source A B C e)
include h hplaced hcuts

/-- Behind a place, the tokens of a text are read in the text with edits; the induction is on the edits behind the
place, the first one first. -/
theorem Independent.reads_reviseAll {es : List Edit} {P : List Token}
    (hsorted : es.Pairwise fun a b => a.stop ≤ b.start) (hes : ∀ e ∈ es, e ∈ edits ∧ k ≤ e.start)
    (hdone : ∀ e ∈ edits, e ∈ es ∨ e.stop ≤ k) (hall : all = P ++ ts) (hP : ∀ t ∈ P, t.stop ≤ k)
    (hk : k ≤ source.length) (hreads : Reads [] k (source.drop k) ts) :
    Reads [] (place source edits k) (substituted source edits k source.length) (reviseAll source edits ts) := by
  induction es generalizing k P ts with
  | nil =>
    have hclear : ∀ e ∈ edits, e.stop ≤ k ∨ source.length ≤ e.start := fun e he =>
      .inl ((hdone e he).resolve_left List.not_mem_nil)
    have hrest : Tree.slice source k source.length = source.drop k :=
      List.take_of_length_le (Nat.le_of_eq List.length_drop)
    rw [substituted_of_clear hclear, hrest]
    refine reads_of_clear hclear (Nat.le_refl _) (hall ▸ hplaced).of_append.2.1 hreads fun t ht => ?_
    have hinside := hreads.inside t ht
    rw [List.length_drop] at hinside
    omega
  | cons e es ih =>
    obtain ⟨hfirst, hsorted⟩ := List.pairwise_cons.1 hsorted
    obtain ⟨⟨he, hke⟩, hes⟩ := List.forall_mem_cons.1 hes
    have hle := Nat.le_of_lt (h.nonempty e he)
    have hstop := h.inside e he
    obtain ⟨A, B, C, hsplit, hcut⟩ := hcuts e he
    have hplaced_all := hsplit ▸ hplaced
    obtain ⟨T, rfl, rfl⟩ := hcut.exists_front hplaced_all hle (hsplit.symm.trans hall)
      fun t ht => Nat.le_trans (hP t ht) hke
    obtain ⟨hfront, hcovered, hback⟩ := hcut.split_reads hke hle hstop hreads
    have hclear : ∀ f ∈ edits, f.stop ≤ k ∨ e.start ≤ f.start := by
      intro f hf
      rcases hdone f hf with hmem | hstop
      · rcases List.mem_cons.1 hmem with rfl | hmem
        · exact .inr (Nat.le_refl _)
        · exact .inr (Nat.le_trans hle (hfirst f hmem))
      · exact .inl hstop
    have hu : ((source.drop k).take (e.start - k)).length = e.start - k := by
      rw [List.length_take, List.length_drop]
      omega
    have hplace : place source edits e.start = place source edits k + ((source.drop k).take (e.start - k)).length := by
      rw [place_of_clear hclear hke (Nat.le_refl _) (by omega), hu, Nat.add_comm]
    have hplace' : place source edits e.stop = place source edits e.start + e.replacement.length := by
      rw [place_eq_add hle, h.substituted_edit he]
    have hmoved : Reads (e.replacement ++ substituted source edits e.stop source.length) (place source edits k)
        ((source.drop k).take (e.start - k)) (reviseAll source edits T) :=
      reads_of_clear hclear (by omega) hplaced_all.of_append.1.of_append.2.1 (hcut.reads hfront (by omega))
        fun t ht => hcut.front t (List.mem_append_right P ht)
    have hreplaced := hcut.reads_replacement (y := substituted source edits e.stop source.length) h he
      hplaced_all.of_append.2.1.of_append.1 hcovered (List.take_prefix ..)
    have hbehind : Reads [] (place source edits e.stop) (substituted source edits e.stop source.length)
        (reviseAll source edits C) := by
      refine ih hsorted (P := P ++ T ++ B) (fun f hf => ⟨(hes f hf).1, hfirst f hf⟩) (fun f hf => ?_)
        (by rw [hsplit]; simp) (fun t ht => ?_) hstop hback
      · rcases hdone f hf with hmem | hle'
        · rcases List.mem_cons.1 hmem with rfl | hmem
          · exact .inr (Nat.le_refl _)
          · exact .inl hmem
        · exact .inr (by omega)
      · rcases List.mem_append.1 ht with ht | ht
        · exact Nat.le_trans (hcut.front t ht) hle
        · exact (hcut.inside t ht).2
    rw [hplace'] at hbehind
    have hjoined : Reads [] (place source edits e.start)
        (e.replacement ++ substituted source edits e.stop source.length)
        (reviseAll source edits B ++ reviseAll source edits C) :=
      .append (by rwa [List.append_nil]) hbehind
    rw [hplace] at hjoined
    rw [← substituted_append hke (by omega), ← substituted_append hle hstop, h.substituted_edit he,
      substituted_of_clear hclear, reviseAll_append, reviseAll_append]
    exact .append (by rwa [List.append_nil]) hjoined

/-- The tokens of a text with some edits are what becomes of the tokens of the text. -/
theorem Independent.tokens?_splice (htokens : tokens? source = some all) :
    tokens? (splice source edits) = some (reviseAll source edits all) := by
  have hperm := List.mergeSort_perm edits fun a b => a.start ≤ b.start
  have hsorted : (edits.mergeSort fun a b => a.start ≤ b.start).Pairwise fun a b => a.stop ≤ b.start := by
    have hstarts : (edits.mergeSort fun a b => a.start ≤ b.start).Pairwise fun a b => a.start ≤ b.start :=
      (List.pairwise_mergeSort (fun a b c => by simp only [decide_eq_true_eq]; omega)
        (fun a b => by simp only [Bool.or_eq_true, decide_eq_true_eq]; omega) edits).imp of_decide_eq_true
    refine List.Pairwise.imp_of_mem (fun {a b} _ hb hab => ?_) (hstarts.and (h.of_perm hperm).apart)
    have := h.nonempty b (hperm.mem_iff.1 hb)
    omega
  -- no edit is made in front of the tokens, where a byte order mark may stand
  have behind {k : Nat} (hk : k ≤ source.length) (hreads : Reads [] k (source.drop k) all) :
      Reads [] k (substituted source edits k source.length) (reviseAll source edits all) ∧
        substituted source edits 0 k = source.take k := by
    have hstart : ∀ e ∈ edits, k ≤ e.start := by
      intro e he
      obtain ⟨A, B, C, rfl, hcut⟩ := hcuts e he
      obtain ⟨t, A, rfl⟩ := List.exists_cons_of_ne_nil hcut.full
      have hplace := hreads.places t (by simp)
      exact Nat.le_trans (Nat.le_trans hplace.1 hplace.2) (hcut.front t List.mem_cons_self)
    have hclear : ∀ e ∈ edits, e.stop ≤ 0 ∨ k ≤ e.start := fun e he => .inr (hstart e he)
    have hzero : place source edits 0 = 0 := rfl
    have hreads' := h.reads_reviseAll hplaced hcuts hsorted
      (fun e he => ⟨hperm.mem_iff.1 he, hstart e (hperm.mem_iff.1 he)⟩)
      (fun e he => .inl (hperm.mem_iff.2 he)) (List.nil_append all).symm nofun hk hreads
    rw [place_of_clear hclear (Nat.zero_le k) (Nat.le_refl k) hk, hzero] at hreads'
    exact ⟨hreads', substituted_of_clear hclear⟩
  rw [h.splice_eq]
  unfold tokens? at htokens
  split at htokens
  · next r =>
    have hone : 1 ≤ ('\uFEFF' :: r).length := Nat.le_add_left 1 _
    obtain ⟨hreads, hfront⟩ := behind hone (reads_of_tokensFrom? htokens)
    have hjoined : substituted ('\uFEFF' :: r) edits 0 1 ++
        substituted ('\uFEFF' :: r) edits 1 ('\uFEFF' :: r).length = _ := substituted_append (Nat.zero_le 1) hone
    rw [hfront] at hjoined
    rw [← hjoined]
    exact hreads.tokensFrom? (Nat.lt_succ_self _)
  · exact tokens?_of_reads (behind (k := 0) (Nat.zero_le _) (reads_of_tokensFrom? htokens)).1

end

end Edit

end Testwright.Java
