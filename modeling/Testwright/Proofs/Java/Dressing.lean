import Testwright.Proofs.Java.Moving
import Testwright.Proofs.Java.Stripping

/-!
# The comments in a node

`Tree.dressAll` puts into a tree those of some comments that it spans. Every node of the tree of a text is what the
grammar matched with all comments of the text put into it in this way (`parse?_dressed`), so comments outside of a
node have no part in it. To move a tree and to put comments into it is the same in either order
(`Tree.dressAll_move`): what is matched alike in two texts, with the same comments inside, is the same tree at
another place.
-/

namespace Testwright.Java

namespace Tree

variable {c t u : Tree} {cs ts : List Tree} {f : Nat → Nat} {p : Nat}

/-- A tree with a comment inside, if it spans the place of the comment. -/
def dress (c t : Tree) : Tree := if t.Spans c.start then insertInto c t else t

/-- A tree with those of some comments inside that it spans. -/
def dressAll (cs : List Tree) (t : Tree) : Tree := cs.foldl (fun t c => dress c t) t

theorem dress_of_spans (h : t.Spans c.start) : dress c t = insertInto c t := if_pos h

theorem dress_of_not_spans (h : ¬t.Spans c.start) : dress c t = t := if_neg h

@[simp] theorem kind_dress (c t : Tree) : (dress c t).kind = t.kind := by
  unfold dress
  split <;> simp

@[simp] theorem field_dress (c t : Tree) : (dress c t).field = t.field := by
  unfold dress
  split <;> simp

@[simp] theorem start_dress (c t : Tree) : (dress c t).start = t.start := by
  unfold dress
  split <;> simp

@[simp] theorem stop_dress (c t : Tree) : (dress c t).stop = t.stop := by
  unfold dress
  split <;> simp

theorem isNote_dress (c t : Tree) : (dress c t).isNote = t.isNote := by
  rw [isNote, kind_dress, field_dress, isNote]

theorem stripped_dress (hc : c.isNote = true) (t : Tree) : (dress c t).stripped = t.stripped := by
  unfold dress
  split
  · exact stripped_insertInto hc t
  · rfl

/-- A comment among siblings is put into the one that spans it. -/
theorem insertAmong_of_spans (front back : List Tree) (hfront : ∀ u ∈ front, u.stop ≤ c.start) (ht : t.Spans c.start) :
    insertAmong c (front ++ t :: back) = front ++ insertInto c t :: back := by
  induction front with
  | nil => rw [List.nil_append, insertAmong, if_neg (Nat.not_le_of_lt ht.2), if_pos ht.1, List.nil_append]
  | cons u front ih =>
    obtain ⟨hu, hfront⟩ := List.forall_mem_cons.1 hfront
    rw [List.cons_append, insertAmong, if_pos hu, ih hfront, List.cons_append]

theorem dressAll_append (cs cs' : List Tree) (t : Tree) :
    dressAll (cs ++ cs') t = dressAll cs' (dressAll cs t) := List.foldl_append

/-- Comments that a tree does not span have no part in it. -/
theorem dressAll_of_not_spans (h : ∀ c ∈ cs, ¬t.Spans c.start) : dressAll cs t = t := by
  induction cs with
  | nil => rfl
  | cons c cs ih =>
    obtain ⟨hc, hcs⟩ := List.forall_mem_cons.1 h
    rw [dressAll, List.foldl_cons, dress_of_not_spans hc]
    exact ih hcs

section
variable (cs : List Tree) (t : Tree)

@[simp] theorem start_dressAll : (dressAll cs t).start = t.start :=
  List.foldlRecOn (motive := fun u : Tree => u.start = t.start) cs _ rfl fun _ hu c _ => (start_dress c _).trans hu

@[simp] theorem stop_dressAll : (dressAll cs t).stop = t.stop :=
  List.foldlRecOn (motive := fun u : Tree => u.stop = t.stop) cs _ rfl fun _ hu c _ => (stop_dress c _).trans hu

end

theorem spans_dressAll {pos : Nat} : (dressAll cs t).Spans pos ↔ t.Spans pos := by
  rw [Spans, start_dressAll, stop_dressAll, Spans]

/-! ## The nodes of a tree with a comment in it -/

/-- Siblings with a comment among them are the comment and the old siblings, with the comment in the one that
spans it. -/
theorem exists_of_mem_insertAmong {lo hi : Nat} (h : NestedIn lo hi ts) (hu : u ∈ insertAmong c ts) :
    u = c ∨ ∃ t ∈ ts, u = dress c t := by
  induction ts generalizing lo with
  | nil => exact .inl (List.mem_singleton.1 hu)
  | cons t ts ih =>
    obtain ⟨-, -, ht, hts⟩ := nestedIn_cons.1 h
    have hle := (wellNested_iff.1 ht).1
    -- the siblings behind one that the comment does not follow do not span it
    have behind (hstop : c.start < t.stop) (hu : u ∈ ts) : ∃ v ∈ t :: ts, u = dress c v := by
      refine ⟨u, List.mem_cons_of_mem t hu, (dress_of_not_spans fun hspans => ?_).symm⟩
      exact absurd (Nat.lt_of_le_of_lt (hts.of_mem hu).1 hspans.1) (Nat.not_lt_of_lt hstop)
    rw [insertAmong] at hu
    split at hu
    · next hbehind =>
      rcases List.mem_cons.1 hu with rfl | hu
      · exact .inr ⟨u, List.mem_cons_self,
          (dress_of_not_spans fun hspans => absurd hspans.2 (Nat.not_lt_of_le hbehind)).symm⟩
      · refine (ih hts hu).imp_right ?_
        rintro ⟨v, hv, rfl⟩
        exact ⟨v, List.mem_cons_of_mem t hv, rfl⟩
    · next hbehind =>
      have hstop := Nat.lt_of_not_le hbehind
      split at hu
      · next hinside =>
        rcases List.mem_cons.1 hu with rfl | hu
        · exact .inr ⟨t, List.mem_cons_self, (dress_of_spans ⟨hinside, hstop⟩).symm⟩
        · exact .inr (behind hstop hu)
      · next hinside =>
        rcases List.mem_cons.1 hu with rfl | hu
        · exact .inl rfl
        · rcases List.mem_cons.1 hu with rfl | hu
          · exact .inr ⟨u, List.mem_cons_self, (dress_of_not_spans fun hspans => hinside hspans.1).symm⟩
          · exact .inr (behind hstop hu)

theorem exists_of_mem_dress (h : t.WellNested) (hu : u ∈ (dress c t).children) :
    u = c ∨ ∃ v ∈ t.children, u = dress c v := by
  have hnested := (wellNested_iff.1 h).2
  unfold dress at hu
  split at hu
  · rw [children_insertInto] at hu
    exact exists_of_mem_insertAmong hnested hu
  · next hspans =>
    refine .inr ⟨u, hu, (dress_of_not_spans fun hinside => hspans ?_).symm⟩
    obtain ⟨hstart, hstop, -⟩ := hnested.of_mem hu
    exact ⟨Nat.lt_of_le_of_lt hstart hinside.1, Nat.lt_of_lt_of_le hinside.2 hstop⟩

/-- All nodes of a tree with a comment inside are the comment or old nodes with the comment inside. -/
theorem Forall.dress {q q' : Tree → Prop} (h : t.Forall q) (hnested : t.WellNested)
    (hq : ∀ u, q u → q' (dress c u)) (hc : c.Forall q') : (dress c t).Forall q' := by
  induction h with
  | @node k g s e cs self children ih =>
    refine Forall.iff.2 ⟨hq _ self, fun u hu => ?_⟩
    rcases exists_of_mem_dress hnested hu with rfl | ⟨v, hv, rfl⟩
    · exact hc
    · exact ih v hv ((wellNested_iff.1 hnested).2.of_mem hv).2.2

/-- A node is a comment, or what is left without comments with those of some comments inside that it spans. -/
def Dressed (cs : List Tree) (t : Tree) : Prop := t.isNote = true ∨ t = dressAll cs t.stripped

theorem Dressed.dress (hc : c.isNote = true) (h : Dressed cs t) : Dressed (cs ++ [c]) (dress c t) := by
  refine h.imp (fun hnote => (isNote_dress c t).trans hnote) fun heq => ?_
  rw [stripped_dress hc, dressAll_append, ← heq]
  rfl

/-- The parts of a node are those that are left without comments, with the comments inside. -/
theorem child?_of_dressed (h : t.Forall (Dressed cs)) (part : Field) :
    t.child? part = (t.stripped.child? part).map (dressAll cs) := by
  rw [child?_stripped]
  cases hchild : t.child? part with
  | none => rfl
  | some u =>
    have hfield : u.field = some part := by simpa using List.find?_some hchild
    have hnote : ¬u.isNote = true := by simp [isNote, hfield]
    exact congrArg some ((h.of_mem (List.mem_of_find?_eq_some hchild)).self.resolve_left hnote)

/-! ## Comments in trees at other places -/

/-- A function on places keeps the order of those from a place on. -/
def Rises (f : Nat → Nat) (p : Nat) : Prop := ∀ a b, p ≤ a → p ≤ b → (f a ≤ f b ↔ a ≤ b)

theorem Rises.lt_iff (hf : Rises f p) {a b : Nat} (ha : p ≤ a) (hb : p ≤ b) : f a < f b ↔ a < b := by
  rw [← Nat.not_le, hf b a hb ha, Nat.not_le]

/-- All nodes of a tree lie behind a place. -/
def From (p : Nat) (t : Tree) : Prop := t.Forall fun u => p ≤ u.start ∧ p ≤ u.stop

theorem From.dress (hc : c.From p) (h : t.From p) : (dress c t).From p := by
  unfold Tree.dress
  split
  · exact Forall.insertInto h (fun u hu => by rwa [start_insertInto, stop_insertInto]) hc
  · exact h

mutual

theorem move_insertInto (hf : Rises f p) (hc : c.From p) :
    ∀ {t : Tree}, t.From p → (insertInto c t).move f = insertInto (c.move f) (t.move f)
  | .node k g s e cs, h => by
    have hcs : (insertAmong c cs).map (move f) = _ := map_insertAmong hf hc fun u hu => h.of_mem hu
    rw [insertInto, move_node, move_node, insertInto, hcs]

theorem map_insertAmong (hf : Rises f p) (hc : c.From p) : ∀ {ts : List Tree}, (∀ t ∈ ts, t.From p) →
    (insertAmong c ts).map (move f) = insertAmong (c.move f) (ts.map (move f))
  | [], _ => rfl
  | t :: ts, h => by
    obtain ⟨ht, hts⟩ := List.forall_mem_cons.1 h
    have hbehind : (t.move f).stop ≤ (c.move f).start ↔ t.stop ≤ c.start := by
      rw [stop_move, start_move]
      exact hf _ _ ht.self.2 hc.self.1
    have hinside : (t.move f).start < (c.move f).start ↔ t.start < c.start := by
      rw [start_move, start_move]
      exact hf.lt_iff ht.self.1 hc.self.1
    rw [List.map_cons, insertAmong, insertAmong]
    simp only [hbehind, hinside]
    split
    · rw [List.map_cons, map_insertAmong hf hc hts]
    · split
      · rw [List.map_cons, move_insertInto hf hc ht]
      · rfl

end

theorem dress_move (hf : Rises f p) (hc : c.From p) (h : t.From p) :
    (dress c t).move f = dress (c.move f) (t.move f) := by
  have hspans : (t.move f).Spans (c.move f).start ↔ t.Spans c.start := by
    rw [Spans, Spans, start_move, start_move, stop_move, hf.lt_iff h.self.1 hc.self.1,
      hf.lt_iff hc.self.1 h.self.2]
  unfold dress
  simp only [hspans]
  split
  · exact move_insertInto hf hc h
  · rfl

/-- A tree with comments, moved, is the moved tree with the moved comments. -/
theorem dressAll_move (hf : Rises f p) (hcs : ∀ c ∈ cs, c.From p) (h : t.From p) :
    (dressAll cs t).move f = dressAll (cs.map (move f)) (t.move f) := by
  induction cs generalizing t with
  | nil => rfl
  | cons c cs ih =>
    obtain ⟨hc, hcs⟩ := List.forall_mem_cons.1 hcs
    have hstep := ih hcs (hc.dress h)
    rw [dress_move hf hc h] at hstep
    exact hstep

end Tree

/-! ## The tree of a text -/

open Tree

/-- The nodes of the comments of a text. -/
def remarks (ts : List Token) : List Tree := (ts.filter Token.isComment).map parse?.ofComment

theorem remarks_append (ts us : List Token) : remarks (ts ++ us) = remarks ts ++ remarks us := by
  rw [remarks, List.filter_append, List.map_append]
  rfl

theorem exists_of_mem_remarks {ts : List Token} {c : Tree} (h : c ∈ remarks ts) :
    ∃ a ∈ ts, a.isComment = true ∧ c.start = a.start ∧ c.stop = a.stop ∧ c.children = [] := by
  obtain ⟨a, ha, rfl⟩ := List.mem_map.1 h
  obtain ⟨ha, hcomment⟩ := List.mem_filter.1 ha
  obtain ⟨kind, heq⟩ := ofComment_eq a
  rw [heq]
  exact ⟨a, ha, hcomment, rfl, rfl, rfl⟩

/-- The comments in a node are those among the tokens from its first to its last one. -/
theorem dressAll_remarks {source : List Char} {A B C : List Token} {t : Tree} (h : Placed source (A ++ (B ++ C)))
    (hfirst : ∃ b ∈ B, b.start ≤ t.start) (hlast : ∃ b ∈ B, t.stop ≤ b.stop) :
    dressAll (remarks (A ++ (B ++ C))) t = dressAll (remarks B) t := by
  obtain ⟨b, hb, hstart⟩ := hfirst
  obtain ⟨b', hb', hstop⟩ := hlast
  obtain ⟨hplaced, hplaced_BC, hbefore⟩ := h.of_append
  have hfront : ∀ c ∈ remarks A, ¬t.Spans c.start := by
    rintro c hc ⟨hlt, -⟩
    obtain ⟨a, ha, -, hc, -⟩ := exists_of_mem_remarks hc
    have hbetween := hbefore a ha b (List.mem_append_left _ hb)
    have hnonempty := (hplaced.firm a ha).nonempty
    omega
  have hback : ∀ c ∈ remarks C, ¬(dressAll (remarks B) t).Spans c.start := by
    rintro c hc hspans
    obtain ⟨a, ha, -, hc, -⟩ := exists_of_mem_remarks hc
    have hlt := (spans_dressAll.1 hspans).2
    have hbetween := hplaced_BC.of_append.2.2 b' hb' a ha
    omega
  rw [remarks_append, remarks_append, dressAll_append, dressAll_append, dressAll_of_not_spans hfront,
    dressAll_of_not_spans hback]

theorem ofComment_move (f : Nat → Nat) (c : Token) : parse?.ofComment (c.move f) = (parse?.ofComment c).move f := by
  unfold parse?.ofComment
  cases hlexeme : c.lexeme <;> simp [Token.move, hlexeme] <;> rfl

theorem remarks_map_move (f : Nat → Nat) (ts : List Token) :
    remarks (ts.map (Token.move f)) = (remarks ts).map (Tree.move f) := by
  rw [remarks, List.filter_map, List.map_map, remarks, List.map_map]
  exact List.map_congr_left fun c _ => ofComment_move f c

theorem LaidOut.dressed {source : List Char} {comments : List Token} {t : Tree} (h : LaidOut source t)
    (hplaced : Placed source comments)
    (hclear : ∀ c ∈ comments, ∀ u ∈ t.children, u.Forall (Clear (parse?.ofComment c)))
    (hnotes : ∀ c ∈ comments, (parse?.ofComment c).isNote = true)
    (hbare : ∀ u ∈ t.children, u.Forall fun u => u.isNote = false) :
    ∀ u ∈ (comments.foldl (fun t c => insertInto (parse?.ofComment c) t) t).children,
      u.Forall (Dressed (comments.map parse?.ofComment)) := by
  -- the induction takes away the last comment, since it is put into the tree with all others inside
  induction comments using List.reverseRecOn with
  | nil =>
    refine fun u hu => (hbare u hu).nodes.imp fun v hv => .inr ?_
    exact (stripped_of_forall hv).symm
  | append_singleton comments c ih =>
    obtain ⟨hbefore, -, -⟩ := hplaced.of_append
    obtain ⟨hclear, -⟩ := List.forall_mem_append.1 hclear
    obtain ⟨hnotes, hnote⟩ := List.forall_mem_append.1 hnotes
    have hnested := (wellNested_iff.1 (h.insertComments hbefore hclear).nested).2
    have hdressed := ih hbefore hclear hnotes
    rw [List.foldl_append, List.map_append]
    intro u hu
    rw [List.foldl_cons, List.foldl_nil, children_insertInto] at hu
    have hc := hnote c List.mem_cons_self
    have hself : (parse?.ofComment c).Forall (Dressed (comments.map parse?.ofComment ++ [parse?.ofComment c])) := by
      obtain ⟨kind, heq⟩ := ofComment_eq c
      rw [heq] at hc ⊢
      exact .node (.inl hc) nofun
    rcases exists_of_mem_insertAmong hnested hu with rfl | ⟨t, ht, rfl⟩
    · exact hself
    · exact (hdressed t ht).dress (hnested.of_mem ht).2.2 (fun v hv => hv.dress hc) hself

/-- Every node of the tree of a text is what is left of it without comments, with those comments of the text inside
that it spans. -/
theorem parse?_dressed {source : List Char} {root : Tree} {ts : List Token} (h : parse? source = some root)
    (htokens : tokens? source = some ts) : ∀ t ∈ root.children, t.Forall (Dressed (remarks ts)) := by
  obtain ⟨ts', xs, htokens', hrun, -, hlaid, hclear, rfl⟩ := parse?_matched h
  cases htokens.symm.trans htokens'
  have hmem (p : Token → Bool) : ∀ t ∈ ts.filter p, t ∈ ts := fun t ht => List.mem_of_mem_filter ht
  have hbare : ∀ x ∈ xs, x.Forall fun t => t.isNote = false :=
    Grammar.not_isNote_of_eval (fun t ht => Grammar.sane_of_tokens? htokens t (hmem _ t ht))
      (fun t ht => by simpa using (List.mem_filter.1 ht).2) (Grammar.eval_of_run_program hrun)
  exact hlaid.dressed ((tokens?_placed htokens).filter _) hclear
    (fun c hc => Grammar.isNote_ofComment htokens (hmem _ c hc)) hbare

end Testwright.Java
