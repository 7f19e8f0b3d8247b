import Testwright.Proofs.Java.Derivation
import Testwright.Proofs.Java.Lexing
import Testwright.Proofs.Java.Nesting

/-!
# The trees of the parser

Trees that come from placed tokens are nested between the bounds of these tokens, and each node
begins with one token and ends with one (`nested_of_derives`). Comments keep clear of all of these
boundaries. So the tree of a text is well nested, its nodes are firm parts of the text, and a
declaration of a class neither begins with its body nor ends with a node in it (`parse?_laidOut`).
-/

namespace Testwright.Java

/-- In a declaration of a class, the body is not in front, and the nodes in it end before it ends. -/
def Tree.Braced (t : Tree) : Prop :=
  t.kind.declares = true → ∀ c ∈ t.children, c.field = some .body →
    t.start < c.start ∧ ∀ u ∈ c.children, u.kind.named = true → u.stop < c.stop

/-- A node begins and ends with one of some tokens. -/
structure Bounded (used : List Token) (t : Tree) : Prop where
  start : ∃ a ∈ used, a.start = t.start
  stop : ∃ b ∈ used, b.stop = t.stop
  nonempty : t.start < t.stop
  braced : t.Braced

theorem Bounded.mono {used used' : List Token} {t : Tree} (h : Bounded used t)
    (hsub : ∀ a ∈ used, a ∈ used') : Bounded used' t :=
  let ⟨a, ha, hstart⟩ := h.start
  let ⟨b, hb, hstop⟩ := h.stop
  ⟨⟨a, hsub a ha, hstart⟩, ⟨b, hsub b hb, hstop⟩, h.nonempty, h.braced⟩

/-! ## Placed tokens -/

namespace Placed

variable {source : List Char} {ts us : List Token} {a b : Token}

theorem of_append (h : Placed source (ts ++ us)) :
    Placed source ts ∧ Placed source us ∧ ∀ a ∈ ts, ∀ b ∈ us, a.stop ≤ b.start := by
  obtain ⟨hts, hus, hbetween⟩ := List.pairwise_append.1 h.ordered
  obtain ⟨hfirm, hfirm'⟩ := List.forall_mem_append.1 h.firm
  obtain ⟨hsolid, hsolid'⟩ := List.forall_mem_append.1 h.solid
  exact ⟨⟨hfirm, hsolid, hts⟩, ⟨hfirm', hsolid', hus⟩, hbetween⟩

theorem tail (h : Placed source (a :: ts)) : Placed source ts :=
  have hsplit : Placed source ([a] ++ ts) := h
  hsplit.of_append.2.1

theorem filter (p : Token → Bool) (h : Placed source ts) : Placed source (ts.filter p) :=
  ⟨fun t ht => h.firm t (List.mem_filter.1 ht).1, fun t ht => h.solid t (List.mem_filter.1 ht).1,
    h.ordered.filter p⟩

/-- A first token begins before any of the tokens ends. -/
theorem head_lt (h : Placed source ts) (ha : ts.head? = some a) (hb : b ∈ ts) :
    a.start < b.stop := by
  cases ts with
  | nil => cases hb
  | cons u ts =>
    cases ha
    have hfirst := (h.firm a List.mem_cons_self).nonempty
    rcases List.mem_cons.1 hb with rfl | hb
    · exact hfirst
    · have := (List.pairwise_cons.1 h.ordered).1 b hb
      have := (h.firm b (List.mem_cons_of_mem _ hb)).nonempty
      omega

/-- The tokens that end where a token begins, or earlier, are those in front of it. -/
theorem takeWhile_stop (h : Placed source (ts ++ a :: us)) :
    (ts ++ a :: us).takeWhile (fun t => t.stop ≤ a.start) = ts := by
  obtain ⟨-, -, hbetween⟩ := h.of_append
  have hlt := (h.firm a (by simp)).nonempty
  rw [List.takeWhile_append_of_pos, List.takeWhile_cons_of_neg, List.append_nil]
  · simpa using hlt
  · exact fun t ht => by simpa using hbetween t ht a List.mem_cons_self

/-- If the last token in front of another is no line comment, no part of the tokens in front of it ends in one. -/
theorem last_ne_lineComment {vs : List Token} (h : Placed source (us ++ (ts ++ a :: vs)))
    (hlast : (((us ++ (ts ++ a :: vs)).takeWhile fun t => t.stop ≤ a.start).getLast?.any fun t =>
      t.lexeme == .comment .lineComment) = false) : ∀ t ∈ ts.getLast?, t.lexeme ≠ .comment .lineComment := by
  intro t ht hcomment
  rw [← List.append_assoc] at h hlast
  rw [h.takeWhile_stop, List.getLast?_append, Option.mem_def.1 ht, Option.some_or, Option.any_some, hcomment] at hlast
  cases hlast

/-- There is a position between two lists of tokens that follow one another. -/
theorem exists_between (h : Placed source (ts ++ us)) {lo hi : Nat} (hle : lo ≤ hi)
    (hlo : ∀ a ∈ ts ++ us, lo ≤ a.start) (hhi : ∀ a ∈ ts ++ us, a.stop ≤ hi) :
    ∃ mid, lo ≤ mid ∧ mid ≤ hi ∧ (∀ a ∈ ts, a.stop ≤ mid) ∧ ∀ b ∈ us, mid ≤ b.start := by
  cases us with
  | nil => exact ⟨hi, hle, Nat.le_refl hi, fun a ha => hhi a (List.mem_append_left _ ha), nofun⟩
  | cons u us =>
    have hu : u ∈ ts ++ u :: us := List.mem_append_right _ List.mem_cons_self
    obtain ⟨-, hplaced, hbetween⟩ := h.of_append
    have hnonempty := (h.firm u hu).nonempty
    refine ⟨u.start, hlo u hu, ?_, fun a ha => hbetween a ha u List.mem_cons_self, fun b hb => ?_⟩
    · have := hhi u hu
      omega
    · rcases List.mem_cons.1 hb with rfl | hb
      · exact Nat.le_refl _
      · have := (List.pairwise_cons.1 hplaced.ordered).1 b hb
        omega

end Placed

/-! ## Trees from placed tokens -/

namespace Tree

@[simp] theorem start_withField (f : Field) (t : Tree) : (t.withField f).start = t.start := by
  cases t
  rfl

@[simp] theorem stop_withField (f : Field) (t : Tree) : (t.withField f).stop = t.stop := by
  cases t
  rfl

theorem wellNested_withField {f : Field} {t : Tree} (h : t.WellNested) :
    (t.withField f).WellNested := by
  cases t
  exact h

theorem NestedIn.withField {f : Field} {ts : List Tree} {lo hi : Nat} (h : NestedIn lo hi ts) :
    NestedIn lo hi (ts.map (Tree.withField f)) := by
  rw [nestedIn_iff] at h ⊢
  refine ⟨List.pairwise_map.2 (h.1.imp fun hab => by simpa using hab), fun t ht => ?_⟩
  obtain ⟨u, hu, rfl⟩ := List.mem_map.1 ht
  have := h.2 u hu
  simpa using ⟨this.1, this.2.1, wellNested_withField this.2.2⟩

theorem start_wrap {kind : Kind} {t : Tree} {ts : List Tree} :
    (Rule.wrap kind (t :: ts)).start = t.start := rfl

theorem stop_wrap {kind : Kind} {ts : List Tree} (hts : ts ≠ []) :
    (Rule.wrap kind ts).stop = (ts.getLast hts).stop := by
  simp [Rule.wrap, stop, List.getLast?_eq_some_getLast hts]

theorem eq_or_le_getLast {t : Tree} {ts : List Tree}
    (h : ts.Pairwise fun a b => a.stop ≤ b.start) (hts : ts ≠ []) (ht : t ∈ ts) :
    t = ts.getLast hts ∨ t.stop ≤ (ts.getLast hts).start := by
  rw [← List.dropLast_concat_getLast hts] at h ht
  rcases List.mem_append.1 ht with hinit | hlast
  · exact .inr ((List.pairwise_append.1 h).2.2 t hinit _ List.mem_cons_self)
  · exact .inl (List.mem_singleton.1 hlast)

/-- Siblings begin no earlier than the first of them and end no later than the last. -/
theorem NestedIn.wrap {ts : List Tree} {lo hi : Nat} (h : NestedIn lo hi ts) (hts : ts ≠ [])
    (kind : Kind) : NestedIn (Rule.wrap kind ts).start (Rule.wrap kind ts).stop ts := by
  rw [nestedIn_iff] at h ⊢
  refine ⟨h.1, fun t ht => ⟨?_, ?_, (h.2 t ht).2.2⟩⟩
  · cases ts with
    | nil => cases ht
    | cons u ts =>
      rw [start_wrap]
      rcases List.mem_cons.1 ht with rfl | ht
      · exact Nat.le_refl _
      · have hu := (wellNested_iff.1 (h.2 u List.mem_cons_self).2.2).1
        have := (List.pairwise_cons.1 h.1).1 t ht
        omega
  · rw [stop_wrap hts]
    rcases eq_or_le_getLast h.1 hts ht with rfl | hbefore
    · exact Nat.le_refl _
    · have hle := (wellNested_iff.1 (h.2 _ (List.getLast_mem hts)).2.2).1
      omega

end Tree

open Tree

/-- The nodes in a node that ends in a keyword or punctuation end before it. -/
theorem stop_lt_of_shut {used : List Token} {t u : Tree} (hshut : t.Shut) (hnested : t.WellNested)
    (hbounded : t.Forall (Bounded used)) (hu : u ∈ t.children) (hnamed : u.kind.named = true) :
    u.stop < t.stop := by
  have hchildren := (wellNested_iff.1 hnested).2
  have hne := List.ne_nil_of_mem hu
  have hlast := List.getLast_mem hne
  rcases eq_or_le_getLast (nestedIn_iff.1 hchildren).1 hne hu with rfl | hbefore
  · rw [hshut _ (List.getLast?_eq_some_getLast hne)] at hnamed
    cases hnamed
  · have hnonempty := (hbounded.of_mem hlast).self.nonempty
    have hstop := (hchildren.of_mem hlast).2.1
    omega

/-- Trees that come from placed tokens are nested between the bounds of the tokens, and each node
begins and ends with a token. -/
theorem nested_of_derives {source : List Char} {used : List Token} {xs : List Tree}
    (h : Derives used xs) (hplaced : Placed source used) {lo hi : Nat} (hle : lo ≤ hi)
    (hlo : ∀ a ∈ used, lo ≤ a.start) (hhi : ∀ a ∈ used, a.stop ≤ hi) :
    NestedIn lo hi xs ∧ ∀ x ∈ xs, x.Forall (Bounded used) := by
  induction h generalizing lo hi with
  | nil => exact ⟨trivial, nofun⟩
  | @leaf kind first last used hhead hlast =>
    have hfirst : first ∈ used := List.mem_of_head? hhead
    have hlast' : last ∈ used := List.mem_of_getLast? hlast
    have hlt := hplaced.head_lt hhead hlast'
    refine ⟨⟨hlo first hfirst, hhi last hlast', ⟨Nat.le_of_lt hlt, trivial⟩, trivial⟩, fun x hx => ?_⟩
    rw [List.mem_singleton.1 hx]
    exact .node ⟨⟨first, hfirst, rfl⟩, ⟨last, hlast', rfl⟩, hlt, fun _ => nofun⟩ nofun
  | @append used used' xs ys _ _ ihx ihy =>
    obtain ⟨hused, hused', hbetween⟩ := hplaced.of_append
    -- what the second part used lies behind what the first one did, so the bounds split between them
    obtain ⟨mid, hlomid, hmidhi, hmid, hmid'⟩ := hplaced.exists_between hle hlo hhi
    have hx := ihx hused hlomid (fun a ha => hlo a (List.mem_append_left _ ha)) hmid
    have hy := ihy hused' hmidhi hmid' (fun a ha => hhi a (List.mem_append_right _ ha))
    refine ⟨hx.1.append hy.1 hlomid hmidhi, fun x hmem => ?_⟩
    rcases List.mem_append.1 hmem with hmem | hmem
    · exact (hx.2 x hmem).imp fun _ h => h.mono fun _ ha => List.mem_append_left _ ha
    · exact (hy.2 x hmem).imp fun _ h => h.mono fun _ ha => List.mem_append_right _ ha
  | @node kind used xs _ full plain framed ih =>
    obtain ⟨hnested, hbounded⟩ := ih hplaced hle hlo hhi
    have hwrap := hnested.wrap full kind
    obtain ⟨x, xs, rfl⟩ := List.exists_cons_of_ne_nil full
    have hx := hbounded x List.mem_cons_self
    have hlast := hbounded _ (List.getLast_mem full)
    have hx_inside := (nestedIn_iff.1 hwrap).2 x List.mem_cons_self
    have hlt : (Rule.wrap kind (x :: xs)).start < (Rule.wrap kind (x :: xs)).stop :=
      Nat.lt_of_lt_of_le hx.self.nonempty hx_inside.2.1
    have hbody : (Rule.wrap kind (x :: xs)).Braced := by
      intro hkind c hc hfield
      refine ⟨?_, fun u => stop_lt_of_shut (framed hkind c hc hfield) (hnested.of_mem hc).2.2
        (hbounded c hc)⟩
      rcases List.mem_cons.1 hc with rfl | hc
      · exact absurd hfield (plain hkind c rfl)
      · have := (List.pairwise_cons.1 (nestedIn_iff.1 hnested).1).1 c hc
        exact Nat.lt_of_lt_of_le hx.self.nonempty this
    have hbounded_wrap : Bounded used (Rule.wrap kind (x :: xs)) :=
      ⟨hx.self.start, by rw [stop_wrap full]; exact hlast.self.stop, hlt, hbody⟩
    refine ⟨nestedIn_cons.2 ⟨?_, ?_, wellNested_iff.2 ⟨Nat.le_of_lt hlt, hwrap⟩, trivial⟩,
      fun y hy => ?_⟩
    · exact (nestedIn_iff.1 hnested).2 x List.mem_cons_self |>.1
    · rw [stop_wrap full]
      exact ((nestedIn_iff.1 hnested).2 _ (List.getLast_mem full)).2.1
    · rw [List.mem_singleton.1 hy]
      exact .node hbounded_wrap hbounded
  | @field part used xs _ ih =>
    obtain ⟨hnested, hbounded⟩ := ih hplaced hle hlo hhi
    refine ⟨hnested.withField, fun x hx => ?_⟩
    obtain ⟨y, hy, rfl⟩ := List.mem_map.1 hx
    have := hbounded y hy
    cases this with
    | node self children => exact .node ⟨self.1, self.2, self.3, self.4⟩ children

/-! ## The tree of a text -/

/-- A node is a firm part of a text, and if it has a body, it ends in a solid character and the body,
if it is that of a class, is inside. -/
structure Tree.Sits (source : List Char) (t : Tree) : Prop where
  firm : Firm source t.start t.stop
  solid : ∀ c ∈ t.children, c.field = some .body → SolidBefore source t.stop
  braced : t.Braced

/-- A tree spans a text and is well nested, and all nodes below its root sit in the text. -/
structure LaidOut (source : List Char) (root : Tree) : Prop where
  nested : root.WellNested
  start : root.start = 0
  stop : root.stop = source.length
  nodes : ∀ t ∈ root.children, t.Forall (Tree.Sits source)

theorem Bounded.sits {source : List Char} {used : List Token} {t : Tree} (h : Bounded used t)
    (hplaced : Placed source used) (hcode : ∀ a ∈ used, a.isComment = false) : t.Sits source := by
  obtain ⟨⟨a, ha, hstart⟩, ⟨b, hb, hstop⟩, hlt, hbraced⟩ := h
  rw [← hstart, ← hstop] at hlt
  have hfirm := (hplaced.firm a ha).hull (hplaced.firm b hb) hlt
  have hsolid := hplaced.solid b hb (hcode b hb)
  rw [hstop] at hfirm hsolid
  rw [hstart] at hfirm
  exact ⟨hfirm, fun _ _ _ => hsolid, hbraced⟩

theorem Placed.apart {source : List Char} {ts : List Token} {a b : Token} (h : Placed source ts)
    (ha : a ∈ ts) (hb : b ∈ ts) (hne : a ≠ b) : a.stop ≤ b.start ∨ b.stop ≤ a.start :=
  related_of_pairwise h.ordered ha hb hne

/-- A token keeps clear of the nodes that begin and end with other tokens. -/
theorem Bounded.clear {source : List Char} {ts used : List Token} {c : Token} {t : Tree}
    (h : Bounded used t) (kind : Kind) (hplaced : Placed source ts) (hc : c ∈ ts)
    (hused : ∀ a ∈ used, a ∈ ts ∧ a ≠ c) : Clear (.ofToken kind c) t := by
  obtain ⟨⟨a, ha, hstart⟩, ⟨b, hb, hstop⟩, -, -⟩ := h
  have hfirst := (hplaced.firm a (hused a ha).1).nonempty
  have hlast := (hplaced.firm b (hused b hb).1).nonempty
  show c.stop ≤ t.start ∨ t.stop ≤ c.start ∨ t.start < c.start ∧ c.stop < t.stop
  rcases hplaced.apart hc (hused a ha).1 (hused a ha).2.symm with hbefore | hbehind
  · omega
  · rcases hplaced.apart hc (hused b hb).1 (hused b hb).2.symm with h | h <;> omega

/-- A comment put into a node with a body leaves the body or lies strictly inside of it. -/
theorem Tree.body_insertInto {c t v : Tree} (hle : c.start ≤ c.stop) (hc : c.field = none)
    (hclear : ∀ u ∈ t.children, u.Forall (Clear c)) (hv : v ∈ (insertInto c t).children)
    (hfield : v.field = some .body) : ∃ body ∈ t.children, body.field = some .body ∧
      (v = body ∨ c.stop < body.stop ∧ v = insertInto c body) := by
  rw [children_insertInto] at hv
  rcases mem_insertAmong (fun u hu => (hclear u hu).self) hle hv with
    rfl | hv | ⟨body, hbody, hinside, rfl⟩
  · rw [hc] at hfield
    cases hfield
  · exact ⟨v, hv, hfield, .inl rfl⟩
  · exact ⟨body, hbody, field_insertInto body ▸ hfield, .inr ⟨hinside, rfl⟩⟩

/-- A node sits in a text also with a comment inside. -/
theorem Tree.Sits.insertInto {source : List Char} {c t : Tree} (h : t.Sits source)
    (hle : c.start ≤ c.stop) (hc : c.field = none) (hclear : ∀ u ∈ t.children, u.Forall (Clear c)) :
    (insertInto c t).Sits source := by
  refine ⟨by simpa using h.firm, fun v hv hfield => ?_, fun hkind v hv hfield => ?_⟩
  · obtain ⟨body, hbody, hfield, -⟩ := body_insertInto hle hc hclear hv hfield
    rw [stop_insertInto]
    exact h.solid body hbody hfield
  · rw [kind_insertInto] at hkind
    obtain ⟨body, hbody, hpart, hv⟩ := body_insertInto hle hc hclear hv hfield
    obtain ⟨hstart, hstop⟩ := h.braced hkind body hbody hpart
    rcases hv with rfl | ⟨hinside, rfl⟩
    · exact ⟨by rwa [start_insertInto], hstop⟩
    · rw [start_insertInto, start_insertInto, stop_insertInto, children_insertInto]
      refine ⟨hstart, fun u hu hnamed => ?_⟩
      rcases mem_insertAmong (fun u hu => ((hclear body hbody).of_mem hu).self) hle hu with
        rfl | hu | ⟨w, hw, -, rfl⟩
      · exact hinside
      · exact hstop u hu hnamed
      · rw [kind_insertInto] at hnamed
        rw [stop_insertInto]
        exact hstop w hw hnamed

theorem ofComment_eq (c : Token) : ∃ kind, parse?.ofComment c = .ofToken kind c := by
  unfold parse?.ofComment
  split
  · exact ⟨_, rfl⟩
  · exact ⟨_, rfl⟩

/-- The tree of a text stays laid out when a comment is put into it. -/
theorem LaidOut.insertComment {source : List Char} {c t : Tree} (h : LaidOut source t)
    (hc : c.WellNested) (hsits : c.Forall (Tree.Sits source)) (hfield : c.field = none)
    (hclear : ∀ u ∈ t.children, u.Forall (Clear c)) : LaidOut source (insertInto c t) where
  nested := wellNested_insertInto hc h.nested hclear (h.start ▸ Nat.zero_le _)
    (h.stop ▸ hsits.self.firm.inside)
  start := (start_insertInto t).trans h.start
  stop := (stop_insertInto t).trans h.stop
  nodes :=
    have hle := (wellNested_iff.1 hc).1
    forall_children_insertInto hsits hle (fun hu => hu.insertInto hle hfield) h.nodes hclear

/-- The tree of a text stays laid out while comments that keep clear of its nodes are put into it,
since they keep clear of one another. -/
theorem LaidOut.insertComments {source : List Char} {comments : List Token} {t : Tree}
    (h : LaidOut source t) (hplaced : Placed source comments)
    (hclear : ∀ c ∈ comments, ∀ u ∈ t.children, u.Forall (Clear (parse?.ofComment c))) :
    LaidOut source
      (comments.foldl (fun t c => Tree.insertInto (parse?.ofComment c) t) t) := by
  induction comments generalizing t with
  | nil => exact h
  | cons c comments ih =>
    have hfirm := hplaced.firm c List.mem_cons_self
    have hbefore := (List.pairwise_cons.1 hplaced.ordered).1
    obtain ⟨kind, hcomment⟩ := ofComment_eq c
    have hclear_c := hclear c List.mem_cons_self
    rw [hcomment] at hclear_c
    rw [List.foldl_cons, hcomment]
    have hle : (Tree.ofToken kind c).start ≤ (Tree.ofToken kind c).stop :=
      Nat.le_of_lt hfirm.nonempty
    refine ih (h.insertComment ⟨hle, trivial⟩ ?_ rfl hclear_c)
      hplaced.tail fun c' hc' => ?_
    · exact .node ⟨hfirm, nofun, fun _ => nofun⟩ nofun
    · obtain ⟨kind', hcomment'⟩ := ofComment_eq c'
      have hclear_c' := hclear c' (List.mem_cons_of_mem _ hc')
      rw [hcomment'] at hclear_c' ⊢
      refine forall_children_insertInto ?_ hle (fun {u} hu _ => ?_) hclear_c' hclear_c
      · exact .node (.inr (.inl (hbefore c' hc'))) nofun
      · simpa [Clear] using hu

theorem run_program {n : Nat} {code : List Token} {t : Tree}
    (h : Rule.run grammar n (.var .program) code = some ([t], [])) :
    ∃ xs, t = Rule.wrap .program xs ∧ Derives code xs := by
  cases n with
  | zero => cases h
  | succ n =>
    cases n with
    | zero => cases h
    | succ n =>
      obtain ⟨⟨xs, rest⟩, hrun, heq⟩ := Option.map_eq_some_iff.1 h
      cases heq
      obtain ⟨used, hcode, hderives⟩ :=
        ((Rule.matches_of_run hrun).matched Grammar.holds_known (by decide)).taken
      rw [List.append_nil] at hcode
      exact ⟨xs, rfl, hcode ▸ hderives⟩

/-- What is matched is laid out in the text, and the comments that are put into it keep clear of its nodes. -/
theorem parse?_matched {source : List Char} {root : Tree} (h : parse? source = some root) :
    ∃ ts xs, tokens? source = some ts ∧
      Rule.run grammar (256 * ((ts.filter (not ∘ Token.isComment)).length + 4)) (.var .program)
        (ts.filter (not ∘ Token.isComment)) = some ([Rule.wrap .program xs], []) ∧
      (∀ x ∈ xs, x.Forall (Bounded (ts.filter (not ∘ Token.isComment)))) ∧
      LaidOut source (.node .program none 0 source.length xs) ∧
      (∀ c ∈ ts.filter Token.isComment, ∀ x ∈ xs, x.Forall (Clear (parse?.ofComment c))) ∧
      root = (ts.filter Token.isComment).foldl (fun t c => Tree.insertInto (parse?.ofComment c) t)
        (.node .program none 0 source.length xs) := by
  unfold parse? at h
  split at h
  · cases h
  · next ts htokens =>
    have hplaced := tokens?_placed htokens
    rw [List.partition_eq_filter_filter] at h
    simp only at h
    split at h
    · next t hrun =>
      cases h
      obtain ⟨xs, rfl, hderives⟩ := run_program hrun
      have hcode := hplaced.filter (not ∘ Token.isComment)
      obtain ⟨hnested, hbounded⟩ := nested_of_derives hderives hcode (Nat.zero_le source.length)
        (fun _ _ => Nat.zero_le _) (fun a ha => (hcode.firm a ha).inside)
      refine ⟨ts, xs, htokens, hrun, hbounded, ⟨?_, rfl, rfl, ?_⟩, ?_, rfl⟩
      · exact wellNested_iff.2 ⟨Nat.zero_le _, hnested⟩
      · refine fun x hx => (hbounded x hx).imp fun _ h => h.sits hcode fun a ha => ?_
        simpa using (List.mem_filter.1 ha).2
      · intro c hc x hx
        obtain ⟨hc, hcomment⟩ := List.mem_filter.1 hc
        obtain ⟨kind, heq⟩ := ofComment_eq c
        rw [heq]
        refine (hbounded x hx).imp fun u hu => hu.clear kind hplaced hc fun a ha => ?_
        obtain ⟨ha, hnot⟩ := List.mem_filter.1 ha
        refine ⟨ha, ?_⟩
        rintro rfl
        simp [hcomment] at hnot
    · cases h

/-- The tree of a text is laid out in it. -/
theorem parse?_laidOut {source : List Char} {root : Tree} (h : parse? source = some root) :
    LaidOut source root := by
  obtain ⟨ts, xs, htokens, -, -, hlaid, hclear, rfl⟩ := parse?_matched h
  exact hlaid.insertComments ((tokens?_placed htokens).filter _) hclear

end Testwright.Java
