import Testwright.Proofs.Java.Readings

/-!
# Parts of a text

The tokens of a part of a text are found again wherever the part is put (`Portable`), if it ends with a
mark, or in front of a stopper if it does not end with a line comment.
-/

namespace Testwright.Java

open Token

/-- The tokens that the grammar sees. -/
def code (ts : List Token) : List Token := ts.filter (not ∘ Token.isComment)

theorem code_append (ts us : List Token) : code (ts ++ us) = code ts ++ code us := List.filter_append ..

theorem code_map_move (f : Nat → Nat) (ts : List Token) :
    code (ts.map (Token.move f)) = (code ts).map (Token.move f) := by
  rw [code, code, List.filter_map]
  rfl

/-- A text is read as the tokens that stand at one place of another text, in front of certain texts. -/
def Portable (before : List Char → Prop) (u : List Char) (X : List Token) : Prop :=
  ∀ x pos, before x → ∃ f ts, Reads x pos u ts ∧ code ts = X.map (Token.move f) ∧ Steady f X

variable {source s u back : List Char} {pos start : Nat} {all A B C X ts : List Token} {t b : Token}

/-- Places that are moved together keep next to each other. -/
theorem steady_move (pos' : Nat) (h : ∀ t ∈ ts, pos ≤ t.start ∧ t.start ≤ t.stop) :
    Steady (fun q => q - pos + pos') ts := by
  refine List.Pairwise.isChain (List.pairwise_of_forall_mem_list fun a ha b hb => ?_)
  have := h a ha
  have := h b hb
  show b.start - pos + pos' = a.stop - pos + pos' ↔ b.start = a.stop
  omega

namespace Reads

/-- A text that ends with a mark can be put anywhere. -/
theorem portable_of_mark (h : Reads back pos u ts) (hlast : ∃ t ∈ ts.getLast?, t.mark ∈ marks) :
    Portable (fun _ => True) u (code ts) := fun _ pos' _ =>
  ⟨_, _, h.move_mark hlast fun k => show pos + k - pos + pos' = pos' + k by omega,
    code_map_move _ ts, steady_move pos' fun t ht => h.places t (List.mem_of_mem_filter ht)⟩

/-- A text can be put in front of a stopper, like the one that stood behind it. -/
theorem portable_of_stopped (h : Reads back pos u ts) (hback : Stopped back)
    (hlast : ∀ t ∈ ts.getLast?, t.lexeme ≠ .comment .lineComment) : Portable Stopped u (code ts) :=
  fun _ pos' hx =>
    ⟨_, _, h.move hback hx (.inl hlast) fun k => show pos + k - pos + pos' = pos' + k by omega,
      code_map_move _ ts, steady_move pos' fun t ht => h.places t (List.mem_of_mem_filter ht)⟩

/-- Tokens in the middle of a text are those of a part of it. -/
theorem exists_excerpt (h : Reads [] pos s (A ++ (t :: B ++ C))) : ∃ front u back,
    s = front ++ (u ++ back) ∧ t.start = pos + front.length ∧ Reads back t.start u (t :: B) ∧
      Reads [] (t.start + u.length) back C ∧ ∀ b ∈ (t :: B).getLast?, b.stop = t.start + u.length := by
  obtain ⟨v, w, rfl, -, hrest, -, -⟩ := h.split
  obtain ⟨v', back, rfl, hfirst, hback, -, hlast⟩ := hrest.split
  rw [List.append_nil] at hfirst
  cases hfirst with
  | @token _ gap v₁ u₁ lexeme start stop _ space full solid scan hstart hstop rest =>
    have hlength : pos + v.length + (gap ++ (v₁ ++ u₁)).length = start + (v₁ ++ u₁).length := by
      rw [hstart, List.length_append, Nat.add_assoc]
      omega
    rw [hlength] at hback hlast
    refine ⟨v ++ gap, v₁ ++ u₁, back, by simp, ?_, .token (w := []) nofun full solid scan rfl hstop rest,
      hback, hlast⟩
    rw [List.length_append]
    exact hstart.trans (Nat.add_assoc ..)

end Reads

/-- The places of a text without its byte order mark. -/
theorem tokens?_reads (h : tokens? source = some all) :
    ∃ front s, source = front ++ s ∧ Reads [] front.length s all := by
  unfold tokens? at h
  split at h
  · next r => exact ⟨['\uFEFF'], r, rfl, reads_of_tokensFrom? h⟩
  · exact ⟨[], source, rfl, reads_of_tokensFrom? h⟩

theorem tokens?_of_reads (h : Reads [] 0 u ts) : tokens? u = some ts := by
  unfold tokens?
  split
  · exact absurd rfl h.head?_ne
  · exact h.tokensFrom? (Nat.lt_succ_self _)

/-! ## Places in a text -/

/-- The tokens of a part of the code, with the comments between them. -/
theorem exists_of_code {P Q : List Token} (h : code all = P ++ (X ++ Q)) (hne : X ≠ []) : ∃ A B C,
    all = A ++ (B ++ C) ∧ code A = P ∧ code B = X ∧ code C = Q ∧ B.head? = X.head? ∧ B.getLast? = X.getLast? := by
  have hskip {l : List Token} (hl : ∀ t ∈ l, ¬(not ∘ Token.isComment) t = true) :
      l.filter (not ∘ Token.isComment) = [] := List.filter_eq_nil_iff.2 hl
  obtain ⟨a, X, rfl⟩ := List.exists_cons_of_ne_nil hne
  obtain ⟨l, m, rfl, hP, hm⟩ := List.filter_eq_append_iff.1 h
  obtain ⟨l', m, rfl, hl', ha, hm⟩ := List.filter_eq_cons_iff.1 hm
  have hfront : code (l ++ l') = P := by
    rw [code, List.filter_append, hP, hskip hl', List.append_nil]
  rcases List.eq_nil_or_concat X with rfl | ⟨X, b, rfl⟩
  · refine ⟨l ++ l', [a], m, by simp, hfront, ?_, hm, rfl, rfl⟩
    rw [code, List.filter_cons_of_pos ha]
    rfl
  · have hm : m.filter (not ∘ Token.isComment) = X ++ b :: Q := by simpa using hm
    obtain ⟨m₁, m₂, rfl, hm₁, hm₂⟩ := List.filter_eq_append_iff.1 hm
    obtain ⟨n₁, n₂, rfl, hn₁, hb, hQ⟩ := List.filter_eq_cons_iff.1 hm₂
    refine ⟨l ++ l', a :: (m₁ ++ n₁ ++ [b]), n₂, by simp, hfront, ?_, hQ, rfl, ?_⟩
    · rw [code, List.filter_cons_of_pos ha, List.filter_append, List.filter_append, hm₁, hskip hn₁,
        List.filter_cons_of_pos hb, List.concat_eq_append, List.append_nil]
      rfl
    · rw [List.concat_eq_append, ← List.cons_append, List.getLast?_concat, ← List.cons_append,
        List.getLast?_concat]

theorem exists_with_comments (hX : X <:+: code all) (hne : X ≠ []) : ∃ A B C, all = A ++ (B ++ C) ∧
    code B = X ∧ B.head? = X.head? ∧ B.getLast? = X.getLast? := by
  obtain ⟨P, Q, hsplit⟩ := hX
  rw [List.append_assoc] at hsplit
  obtain ⟨A, B, C, hall, -, hB, -, hhead, hlast⟩ := exists_of_code hsplit.symm hne
  exact ⟨A, B, C, hall, hB, hhead, hlast⟩

theorem exists_of_code_cons (h : code all = X ++ b :: C) :
    ∃ A B, all = A ++ b :: B ∧ code A = X ∧ b.isComment = false ∧ code B = C := by
  obtain ⟨l, m, rfl, hX, hm⟩ := List.filter_eq_append_iff.1 h
  obtain ⟨l', m, rfl, hl', hb, hC⟩ := List.filter_eq_cons_iff.1 hm
  refine ⟨l ++ l', m, by simp, ?_, by simpa using hb, hC⟩
  rw [code, List.filter_append, hX, List.filter_eq_nil_iff.2 hl', List.append_nil]

/-- The tokens in front of one of the code, with the comments between them and the token. -/
theorem exists_in_front (hX : X ++ [b] <:+: code all) (hne : X ≠ []) : ∃ A a B C, all = A ++ (a :: B ++ b :: C) ∧
    code (a :: B) = X ∧ a ∈ X.head? := by
  obtain ⟨A, B, C, rfl, hcode, hhead, hlast⟩ := exists_with_comments hX (by simp)
  rw [List.getLast?_concat, List.getLast?_eq_some_iff] at hlast
  obtain ⟨B, rfl⟩ := hlast
  have hb : b.isComment = false := by
    have hmem : b ∈ code (B ++ [b]) := hcode ▸ by simp
    simpa using (List.mem_filter.1 hmem).2
  rw [code_append, show code [b] = [b] by simp [code, hb]] at hcode
  obtain rfl := List.append_cancel_right hcode
  cases B with
  | nil => exact absurd rfl hne
  | cons a B =>
    refine ⟨A, a, B, C, by simp, rfl, ?_⟩
    rw [List.head?_append_of_ne_nil _ hne] at hhead
    exact hhead.symm

/-- A text begins and ends with visible characters. -/
structure Neat (u : List Char) : Prop where
  full : u ≠ []
  first : Text.Past Text.isBlank u
  last : Text.Past Text.isBlank u.reverse

theorem Neat.trim (h : Neat u) : Text.trim u = u := Text.trim_of_past h.full h.first h.last

theorem Neat.trimEnd {gap : List Char} (h : Neat u) (hgap : ∀ c ∈ gap, Text.isBlank c = true) :
    Text.trimEnd (u ++ gap) = u := by
  rw [Text.trimEnd, Text.dropEndWhile, List.reverse_append,
    Text.dropWhile_run (fun c hc => hgap c (List.mem_reverse.1 hc)) h.last, List.reverse_reverse]

/-- The text in front of a token is that of the tokens before it, with blanks behind. -/
theorem Neat.trimEnd_slice {x : List Char} (hneat : Neat u) (hdrop : source.drop pos = u ++ back)
    (h : Reads x (pos + u.length) back (t :: ts)) : Text.trimEnd (Tree.slice source pos t.start) = u := by
  obtain ⟨gap, rest, rfl, space, hgap, -⟩ := h.exists_gap
  have hlength : t.start - pos = (u ++ gap).length := by
    rw [hgap, List.length_append]
    omega
  rw [Tree.slice, hdrop, hlength, ← List.append_assoc, List.take_left]
  exact hneat.trimEnd fun c hc => isBlank_of_isSpace (space c hc)

/-- So is that in front of a semicolon, with the semicolon. -/
theorem Neat.trimEnd_semicolon {x : List Char} (hneat : Neat u) (hlast : Text.Past (· == ';') u.reverse)
    (hdrop : source.drop pos = u ++ back) (h : Reads x (pos + u.length) back (t :: ts)) (ht : t.text = ";") :
    Text.trimEnd (Text.dropEndWhile (· == ';') (Tree.slice source pos t.stop)) = u := by
  obtain ⟨gap, rest, rfl, space, hgap, hstop⟩ := h.exists_gap
  have hlength : t.stop - pos = (u ++ gap ++ [';']).length := by
    rw [hstop, hgap, ht, show ";".toList.length = 1 from rfl, List.length_append, List.length_append,
      List.length_singleton]
    omega
  have hpast : Text.Past (· == ';') (u ++ gap).reverse := by
    rcases List.eq_nil_or_concat gap with rfl | ⟨gap, d, rfl⟩
    · rwa [List.append_nil]
    · rw [List.concat_eq_append, ← List.append_assoc, List.reverse_append]
      rintro _ ⟨⟩
      refine Bool.eq_false_iff.2 fun hd => ?_
      have := space d (by simp)
      rw [eq_of_beq hd] at this
      exact absurd this (by decide)
  have hslice : Tree.slice source pos t.stop = u ++ gap ++ [';'] := by
    rw [Tree.slice, hdrop, hlength, ht, show u ++ (gap ++ (";".toList ++ rest)) = u ++ gap ++ [';'] ++ rest by simp,
      List.take_left]
  have hsemicolon : Text.dropEndWhile (· == ';') (u ++ gap ++ [';']) = u ++ gap := by
    rw [Text.dropEndWhile, List.reverse_append, Text.dropWhile_run (by simp) hpast, List.reverse_reverse]
  rw [hslice, hsemicolon]
  exact hneat.trimEnd fun c hc => isBlank_of_isSpace (space c hc)

/-- A token other than a line comment ends with a visible character. -/
theorem Scanned.inked_last (h : Scanned source all) (ht : t ∈ all)
    (hline : t.lexeme ≠ .comment .lineComment) : ∃ c, source[t.stop - 1]? = some c ∧ Inked c := by
  have hlt := h.nonempty ht
  rcases scan?_closed (h.scan t ht) with hzero | ⟨c, -, hc, hinked⟩ | ⟨hcomment, -⟩
  · omega
  · rw [List.getElem?_drop] at hc
    exact ⟨c, by rwa [show t.start + (t.stop - t.start - 1) = t.stop - 1 by omega] at hc, hinked⟩
  · exact absurd hcomment hline

/-- A token that ends in a semicolon is one, or it is a line comment. -/
theorem Scanned.last_ne_semicolon (h : Scanned source all) (ht : t ∈ all)
    (hline : t.lexeme ≠ .comment .lineComment) (hmark : t.mark ≠ ";") : source[t.stop - 1]? ≠ some ';' := by
  intro hlast
  have hlt := h.nonempty ht
  obtain ⟨hlength, hget⟩ := List.getElem?_eq_some_iff.1 hlast
  have hfront : (Tree.slice source t.start (t.stop - 1)).length = t.stop - 1 - t.start := by
    rw [Tree.slice, List.length_take, List.length_drop]
    omega
  have hdrop : source.drop t.start = Tree.slice source t.start (t.stop - 1) ++ ';' :: source.drop (t.stop - 1 + 1) := by
    rw [← Edit.slice_append_drop (show t.start ≤ t.stop - 1 by omega), List.drop_eq_getElem_cons hlength, hget]
  have hscan := h.scan t ht
  rw [hdrop, show t.stop - t.start = t.stop - 1 - t.start + 1 by omega, ← hfront] at hscan
  by_cases hnil : Tree.slice source t.start (t.stop - 1) = []
  · rw [hnil, List.nil_append, scan?_mark (by decide)] at hscan
    have hlexeme : t.lexeme = .symbol := (congrArg Prod.fst (Option.some.inj hscan)).symm
    have htext : t.text = ";" := by
      rw [hnil] at hdrop hfront
      rw [h.text t ht, Tree.slice, hdrop, show t.stop - t.start = 1 by simp at hfront; omega]
      rfl
    rw [Token.mark, hlexeme, htext] at hmark
    exact hmark rfl
  · exact hline (lexeme_of_semicolon hnil hscan)

/-- Tokens in the middle of a text are those of a part of it, which no blanks surround. -/
theorem exists_excerpt (h : tokens? source = some (A ++ (t :: B ++ C))) : ∃ u back,
    source.drop t.start = u ++ back ∧ Reads back t.start u (t :: B) ∧
      Reads [] (t.start + u.length) back C ∧ (∀ b ∈ (t :: B).getLast?, b.stop = t.start + u.length) ∧
      ((∀ b ∈ (t :: B).getLast?, b.lexeme ≠ .comment .lineComment) → Neat u) := by
  obtain ⟨front, s, rfl, hreads⟩ := tokens?_reads h
  obtain ⟨front', u, back, rfl, hstart, hfirst, hback, hlast⟩ := hreads.exists_excerpt
  have hdrop : (front ++ (front' ++ (u ++ back))).drop t.start = u ++ back := by
    rw [hstart, ← List.append_assoc]
    exact List.drop_left' List.length_append
  refine ⟨u, back, hdrop, hfirst, hback, hlast, fun hline => ?_⟩
  have hscanned := tokens?_scanned h
  have hget (i : Nat) : (front ++ (front' ++ (u ++ back)))[t.start + i]? = (u ++ back)[i]? := by
    rw [← List.getElem?_drop, hdrop]
  have hfull : u ≠ [] := by
    rintro rfl
    cases hfirst.eq_nil rfl
  obtain ⟨c, hc, hinked⟩ := hscanned.inked (t := t) (by simp)
  refine ⟨hfull, fun d hd => ?_, fun d hd => ?_⟩
  · rw [← Nat.add_zero t.start, hget, List.getElem?_append_left (List.length_pos_iff.2 hfull),
      ← List.head?_eq_getElem?, hd] at hc
    cases hc
    exact hinked
  · have hb := List.getLast?_eq_some_getLast (List.cons_ne_nil t B)
    have hmem : (t :: B).getLast (List.cons_ne_nil t B) ∈ A ++ (t :: B ++ C) :=
      List.mem_append_right _ (List.mem_append_left _ (List.getLast_mem _))
    obtain ⟨c, hc, hinked⟩ := hscanned.inked_last hmem (hline _ hb)
    have hpos := List.length_pos_iff.2 hfull
    rw [List.head?_reverse, Option.mem_def, List.getLast?_eq_getElem?] at hd
    rw [hlast _ hb, Nat.add_sub_assoc hpos, hget, List.getElem?_append_left (by omega), hd] at hc
    cases hc
    exact hinked

end Testwright.Java
