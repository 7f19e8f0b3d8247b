import Testwright.Proofs.Java.Cuts

/-!
# What pruning leaves of a member

Where no edit is made, tokens and comments move together with the text. So a member that stays is matched as before
and has the same profile (`Prunable.profile?_eq`), and a method that loses its body is matched as its header with a
semicolon (`Prunable.profile?_of_isStubbed`).
-/

namespace Testwright.Java

open Grammar Rule Token Tree

namespace Prune

variable (source : List Char) (wanted : Names) (root : Tree)

/-- The text with all edits of pruning made. -/
def out : List Char := Edit.splice source (edits source wanted root)

/-- What becomes of tokens. -/
def left (ts : List Token) : List Token := Edit.reviseAll source (edits source wanted root) ts

/-- Where the text from a place on is found, up to the next edit. -/
def shift (a q : Nat) : Nat := q - a + Edit.place source (edits source wanted root) a

variable {source wanted root} {a b : Nat}

theorem left_append (ts us : List Token) :
    left source wanted root (ts ++ us) = left source wanted root ts ++ left source wanted root us :=
  Edit.reviseAll_append ts us

theorem code_left (ts : List Token) : code (left source wanted root ts) = left source wanted root (code ts) :=
  Edit.code_reviseAll ts

theorem rises_shift : Rises (shift source wanted root a) a := fun p q hp hq => by
  unfold shift
  omega

end Prune

/-! ## Headers with a semicolon -/

theorem hasModifier_wrap_append {kind : Kind} {xs ys : List Tree} (hys : ∀ y ∈ ys, y.kind ≠ .modifiers)
    (word : String) : (wrap kind (xs ++ ys)).hasModifier word = (wrap kind xs).hasModifier word := by
  have hnone : (ys.find? fun c => c.kind == .modifiers) = none :=
    List.find?_eq_none.2 fun y hy => by simpa using hys y hy
  have hfind : ((xs ++ ys).find? fun c => c.kind == .modifiers) = xs.find? fun c => c.kind == .modifiers := by
    rw [List.find?_append, hnone, Option.or_none]
  have hchildren (zs : List Tree) : (wrap kind zs).children = zs := rfl
  rw [hasModifier, hasModifier, hchildren, hchildren, hfind]

/-- A header with a semicolon has the modifiers of the method. -/
theorem Opening.hasModifier_shorn {source : List Char} {t : Tree} (o : Opening source t) {f : Nat → Nat} {s : Token}
    (word : String) : (o.shorn f s).hasModifier word = t.hasModifier word := by
  have hending : ∀ y ∈ o.ending, y.kind ≠ .modifiers := by
    have hends := o.ends
    generalize o.ending = es at hends
    cases hends with
    | semicolon => exact List.forall_mem_singleton.2 Kind.noConfusion
    | @body b _ _ kind =>
      cases b
      exact List.forall_mem_singleton.2 fun heq => by cases kind.symm.trans heq
  rw [← hasModifier_stripped (t := t), o.stripped, hasModifier_wrap_append hending, Opening.shorn,
    hasModifier_wrap_append (List.forall_mem_singleton.2 Kind.noConfusion), ← move_wrap _ o.stub.gives,
    hasModifier_move]

namespace Prunable

open Prune

variable {source : List Char} {wanted : Names} {root t u : Tree} {all A B C P Y Q : List Token} {x y : Token}
  {a b : Nat} (h : Prunable source wanted root all)
include h

theorem tokens?_out : tokens? (out source wanted root) = some (left source wanted root all) := h.tokens?_splice

theorem placed_left : Placed (out source wanted root) (left source wanted root all) := tokens?_placed h.tokens?_out

/-! ## Parts that no edit touches -/

section
variable (hfree : Free source wanted root a b) (hb : b ≤ source.length)
include hfree hb

theorem left_of_free (hsub : ∀ t ∈ B, t ∈ all) (hB : ∀ t ∈ B, a ≤ t.start ∧ t.stop ≤ b) :
    left source wanted root B = B.map (Token.move (shift source wanted root a)) :=
  Edit.reviseAll_of_clear hfree hb fun t ht => ⟨(hB t ht).1, (h.placed.firm t (hsub t ht)).nonempty, (hB t ht).2⟩

/-- What lies in such a part is carried with its text. -/
theorem carried_of_free (hab : a ≤ b) (hnested : t.WellNested) (hstart : a ≤ t.start) (hstop : t.stop ≤ b) :
    t.Carried source (out source wanted root) (shift source wanted root a) := by
  have hslice : slice (out source wanted root) (Edit.place source (edits source wanted root) a)
      (Edit.place source (edits source wanted root) b) = slice source a b := by
    rw [out, h.independent.slice_splice hab hb, Edit.substituted_of_clear hfree]
  have hdrop : source.drop a = slice source a b ++ source.drop b := (Edit.slice_append_drop hab source).symm
  have hdrop' : (out source wanted root).drop (Edit.place source (edits source wanted root) a) =
      slice source a b ++ (out source wanted root).drop (Edit.place source (edits source wanted root) b) := by
    rw [← hslice, Edit.slice_append_drop (Edit.place_mono hab)]
  have hlength : (slice source a b).length = b - a := by
    rw [slice, List.length_take, List.length_drop]
    omega
  exact hnested.carried hstart (by omega) hdrop hdrop'

/-- A node made of tokens in such a part has the same comments inside. -/
theorem dressAll_left (hall : all = A ++ (B ++ C)) (hB : ∀ t ∈ B, a ≤ t.start ∧ t.stop ≤ b)
    (hfirst : ∃ b ∈ B, b.start ≤ t.start) (hlast : ∃ b ∈ B, t.stop ≤ b.stop) (hnested : t.WellNested)
    (hstart : a ≤ t.start) : dressAll (remarks (left source wanted root all)) (t.move (shift source wanted root a)) =
      (dressAll (remarks all) t).move (shift source wanted root a) := by
  have hplaced := h.placed
  have hplaced_left := h.placed_left
  rw [hall, left_append, left_append] at hplaced_left
  have hB_left := h.left_of_free hfree hb (fun t ht => by rw [hall]; simp [ht]) hB
  have hrises : Rises (shift source wanted root a) a := rises_shift
  have hle := (wellNested_iff.1 hnested).1
  rw [hall] at hplaced ⊢
  rw [left_append, left_append, dressAll_remarks hplaced_left, hB_left, remarks_map_move,
    dressAll_remarks hplaced hfirst hlast]
  · refine (dressAll_move hrises (fun c hc => ?_) ?_).symm
    · obtain ⟨t, ht, -, hstart, hstop, hleaf⟩ := exists_of_mem_remarks hc
      have hinside := hB t ht
      have hnonempty := (hplaced.firm t (by simp [ht])).nonempty
      refine Forall.iff.2 ⟨by omega, ?_⟩
      rw [hleaf]
      nofun
    · exact (forall_within hnested hstart (Nat.le_refl _)).imp fun u hu => ⟨hu.1, Nat.le_trans hu.1 hu.2.1⟩
  · obtain ⟨c, hc, hle'⟩ := hfirst
    refine ⟨c.move _, hB_left ▸ List.mem_map_of_mem hc, ?_⟩
    rw [start_move]
    exact (hrises _ _ (hB c hc).1 hstart).2 hle'
  · obtain ⟨c, hc, hle'⟩ := hlast
    have hnonempty := (hplaced.firm c (by simp [hc])).nonempty
    refine ⟨c.move _, hB_left ▸ List.mem_map_of_mem hc, ?_⟩
    rw [stop_move]
    exact (hrises _ _ (Nat.le_trans hstart hle) (Nat.le_trans (hB c hc).1 (Nat.le_of_lt hnonempty))).2 hle'

end

/-! ## Tokens between two others -/

section
variable (hcode : code all = P ++ (Y ++ Q)) (ha : x ∈ Y.head?) (hb : y ∈ Y.getLast?)
include hcode ha hb

/-- Some tokens in a row with the comments between them. -/
theorem exists_run : ∃ A B C, all = A ++ (B ++ C) ∧ code B = Y ∧ (∀ t ∈ B, x.start ≤ t.start ∧ t.stop ≤ y.stop) ∧
    x ∈ B ∧ y ∈ B ∧ Firm source x.start y.stop := by
  obtain ⟨A, B, C, hall, -, hB, -, hhead, hlast⟩ := exists_of_code hcode (by rintro rfl; cases ha)
  rw [← hhead] at ha
  rw [← hlast] at hb
  have hplaced : Placed source B := (hall ▸ h.placed).of_append.2.1.of_append.1
  have ha_mem := List.mem_of_mem_head? ha
  have hb_mem := List.mem_of_getLast? hb
  exact ⟨A, B, C, hall, hB, fun t ht => hplaced.within ha hb ht, ha_mem, hb_mem,
    (hplaced.firm x ha_mem).hull (hplaced.firm y hb_mem) (hplaced.head_lt ha hb_mem)⟩

/-- Tokens that no edit touches move together. -/
theorem left_run (hfree : Free source wanted root x.start y.stop) :
    left source wanted root Y = Y.map (Token.move (shift source wanted root x.start)) ∧
      Steady (shift source wanted root x.start) Y := by
  obtain ⟨A, B, C, hall, rfl, hB, -, -, hfirm⟩ := h.exists_run hcode ha hb
  have hsub : ∀ t ∈ code B, t ∈ all := fun t ht => by
    rw [hall]
    simp [List.mem_of_mem_filter ht]
  have hinside : ∀ t ∈ code B, x.start ≤ t.start ∧ t.stop ≤ y.stop := fun t ht => hB t (List.mem_of_mem_filter ht)
  exact ⟨h.left_of_free hfree hfirm.inside hsub hinside,
    steady_move _ fun t ht => ⟨(hinside t ht).1, Nat.le_of_lt (h.placed.firm t (hsub t ht)).nonempty⟩⟩

end

/-! ## Members that stay -/

/-- The tokens of a member with the comments between them. -/
theorem exists_run_of_segment {ν : Rule Variable} (hY : Segment ν Y u.stripped) (hcode : code all = P ++ (Y ++ Q)) :
    ∃ A B C, all = A ++ (B ++ C) ∧ code B = Y ∧ (∀ t ∈ B, u.start ≤ t.start ∧ t.stop ≤ u.stop) ∧
      (∃ b ∈ B, b.start = u.start) ∧ (∃ b ∈ B, b.stop = u.stop) ∧ Firm source u.start u.stop := by
  obtain ⟨a, ha, hstart⟩ := hY.spanned.start
  obtain ⟨b, hb, hstop⟩ := hY.spanned.stop
  obtain ⟨A, B, C, hall, hB, hinside, ha_mem, hb_mem, hfirm⟩ := h.exists_run hcode ha hb
  rw [start_stripped] at hstart
  rw [stop_stripped] at hstop
  rw [hstart, hstop] at hfirm
  exact ⟨A, B, C, hall, hB, hstart ▸ hstop ▸ hinside, ⟨a, ha_mem, hstart⟩, ⟨b, hb_mem, hstop⟩, hfirm⟩

theorem wellNested_stripped {ν : Rule Variable} (hY : Segment ν Y u.stripped) (hcode : code all = P ++ (Y ++ Q)) :
    u.stripped.WellNested ∧ u.stripped.Full := by
  obtain ⟨A, B, C, hall, rfl, hB, -, -, hfirm⟩ := h.exists_run_of_segment hY hcode
  have hplaced : Placed source B := (hall ▸ h.placed).of_append.2.1.of_append.1
  obtain ⟨hnested, hbounded⟩ := nested_of_derives hY.derives (hplaced.filter _) (Nat.le_of_lt hfirm.nonempty)
    (fun t ht => (hB t (List.mem_of_mem_filter ht)).1) fun t ht => (hB t (List.mem_of_mem_filter ht)).2
  exact ⟨(hnested.of_mem (List.mem_singleton_self _)).2.2,
    (hbounded _ (List.mem_singleton_self _)).imp fun v hv => Nat.zero_lt_of_lt hv.nonempty⟩

section
variable {ν : Rule Variable} (hY : Segment ν Y u.stripped) (hcode : code all = P ++ (Y ++ Q))
  (hfree : Free source wanted root u.start u.stop)
include hY hcode hfree

/-- A member that no edit touches is matched as before. -/
theorem eval_left (us : List Token) : eval grammar ν (left source wanted root Y ++ us) =
    some ([u.stripped.move (shift source wanted root u.start)], us) := by
  obtain ⟨a, ha, hstart⟩ := hY.spanned.start
  obtain ⟨b, hb, hstop⟩ := hY.spanned.stop
  rw [start_stripped] at hstart
  rw [stop_stripped] at hstop
  rw [← hstart, ← hstop] at hfree
  obtain ⟨hleft, hsteady⟩ := h.left_run hcode ha hb hfree
  obtain ⟨ys, heval, hmoves⟩ := hY.moves _ us hsteady
  rw [hleft, heval, hmoves.eq_move (List.forall_mem_singleton.2 (h.wellNested_stripped hY hcode).2), hstart]
  rfl

/-- Its node is the same node at another place, with the same comments inside. -/
theorem eq_move {v : Tree} (hu : Settled source all u) (hnote : u.isNote = false)
    (hv : v.stripped = u.stripped.move (shift source wanted root u.start))
    (hdressed : v.Forall (Dressed (remarks (left source wanted root all)))) :
    v = u.move (shift source wanted root u.start) := by
  obtain ⟨A, B, C, hall, -, hB, ⟨a, ha, hstart⟩, ⟨b, hb, hstop⟩, hfirm⟩ := h.exists_run_of_segment hY hcode
  have hnote_v : ¬v.isNote = true := by
    have hsame : v.isNote = u.isNote := by
      rw [isNote, ← kind_stripped v, ← field_stripped v, hv, kind_move, field_move, kind_stripped, field_stripped,
        isNote]
    simp [hsame, hnote]
  have hfirst : ∃ b ∈ B, b.start ≤ u.stripped.start := ⟨a, ha, by rw [hstart, start_stripped]⟩
  have hlast : ∃ b ∈ B, u.stripped.stop ≤ b.stop := ⟨b, hb, by rw [hstop, stop_stripped]⟩
  have hmoved := h.dressAll_left hfree hfirm.inside hall hB hfirst hlast (h.wellNested_stripped hY hcode).1
    (by rw [start_stripped])
  rw [hdressed.self.resolve_left hnote_v, hv, hmoved, ← hu.dressed.self.resolve_left (by simp [hnote])]

/-- It has the same profile. -/
theorem profile?_eq {v : Tree} (hu : Settled source all u) (hnote : u.isNote = false)
    (hv : v.stripped = u.stripped.move (shift source wanted root u.start))
    (hdressed : v.Forall (Dressed (remarks (left source wanted root all)))) (inInterface : Bool) :
    v.profile? (out source wanted root) inInterface = u.profile? source inInterface := by
  obtain ⟨A, B, C, hall, -, hB, -, -, hfirm⟩ := h.exists_run_of_segment hY hcode
  rw [h.eq_move hY hcode hfree hu hnote hv hdressed]
  exact Carried.profile? (h.carried_of_free hfree hfirm.inside (Nat.le_of_lt hfirm.nonempty) hu.nested (Nat.le_refl _)
    (Nat.le_refl _))

end

/-! ## Members that are removed -/

/-- Nothing is left of the tokens of a member that is removed. -/
theorem left_of_isRemoved {ν : Rule Variable} {m : Member} (hm : m ∈ Member.all root)
    (hremoved : m.isRemoved source wanted = true) (hY : Segment ν Y m.node.stripped)
    (hcode : code all = P ++ (Y ++ Q)) : left source wanted root Y = [] := by
  have hedit : m.edit? source wanted =
      some ⟨(lineSpan source m.node.start m.node.stop).1, (lineSpan source m.node.start m.node.stop).2, []⟩ := by
    rw [Member.edit?, Member.fate_eq_remove_iff.2 hremoved]
    rfl
  have hmem : _ ∈ edits source wanted root := edits_eq source wanted root ▸ List.mem_filterMap.2 ⟨m, hm, hedit⟩
  obtain ⟨A, B, C, hall, rfl, hB, -, -, hfirm⟩ := h.exists_run_of_segment hY hcode
  obtain ⟨hle, hge⟩ := lineSpan_covers source m.node.start m.node.stop
  refine List.flatMap_eq_nil_iff.2 fun t ht => ?_
  obtain ⟨hstart, hstop⟩ := hB t (List.mem_of_mem_filter ht)
  have hnonempty := (h.placed.firm t (by rw [hall]; simp [List.mem_of_mem_filter ht])).nonempty
  have hcovers : Edit.Covers ⟨(lineSpan source m.node.start m.node.stop).1,
      (lineSpan source m.node.start m.node.stop).2, []⟩ t.start := by
    constructor <;> dsimp only <;> omega
  rw [h.independent.revise_of_covers hmem hcovers]
  split <;> rfl

/-! ## Methods that lose their bodies -/

section
variable {m : Member} (hm : m ∈ Member.all root) (hstubbed : m.isStubbed source wanted = true)
  (o : Opening source m.node)
include hm hstubbed

/-- No edit touches the header. -/
theorem free_of_isStubbed : Free source wanted root m.node.start (m.node.start + o.text.length) := by
  have hedit := h.edit?_of_isStubbed hm hstubbed o
  have hlt : m.node.start + o.text.length < m.node.stop := (around_of_mem_all h.laidOut hm hedit).nonempty
  intro e he
  rcases h.edits_apart hm hedit he with rfl | hbefore | hbehind
  · exact .inr (Nat.le_refl _)
  · exact .inl hbefore
  · exact .inr (by omega)

/-- Of the tokens of such a method, those of the header are left, and a semicolon. -/
theorem left_of_isStubbed : ∃ s : Token, s.mark = ";" ∧
    left source wanted root (code o.header ++ o.mark :: code o.body) =
      (code o.header).map (Token.move (shift source wanted root m.node.start)) ++ [s] := by
  have hedit := h.edit?_of_isStubbed hm hstubbed o
  have hmem : _ ∈ edits source wanted root := edits_eq source wanted root ▸ List.mem_filterMap.2 ⟨m, hm, hedit⟩
  have hcut := h.cut_of_isStubbed hm hstubbed o
  have hinside : m.node.start + o.text.length ≤ source.length := by
    have haround := around_of_mem_all h.laidOut hm hedit
    exact Nat.le_of_lt (Nat.lt_of_lt_of_le haround.nonempty haround.inside)
  have hall : all = o.before ++ (o.header ++ (o.mark :: o.body ++ o.behind)) := by
    rw [Option.some.inj (h.tokens.symm.trans o.tokens)]
    simp
  have hheader : left source wanted root (code o.header) =
      (code o.header).map (Token.move (shift source wanted root m.node.start)) := by
    refine h.left_of_free (h.free_of_isStubbed hm hstubbed o) hinside (fun t ht => ?_) fun t ht => ?_
    · rw [hall]
      simp [List.mem_of_mem_filter ht]
    · have ht := List.mem_of_mem_filter ht
      exact ⟨(o.reads.places t ht).1, o.reads.inside t ht⟩
  -- the tokens of the body are read in the text behind the header
  have hrest : Reads [] (m.node.start + o.text.length) o.back (o.mark :: o.body ++ o.behind) := o.rest
  obtain ⟨v, w, hback, hreads, -⟩ := hrest.split
  have hdrop : v <+: source.drop (m.node.start + o.text.length) := by
    rw [← List.drop_drop, o.drop, List.drop_left, hback]
    exact List.prefix_append v w
  have hplaced : Placed source (o.mark :: o.body) := (hall ▸ h.placed).of_append.2.1.of_append.2.1.of_append.1
  have hbody := hcut.reviseAll_eq h.independent hmem hplaced hreads hdrop
  have hmark : o.mark.isComment = false := isComment_of_mark fun hempty => by
    have hmark := o.ends.mark_mem
    rw [hempty] at hmark
    exact absurd hmark (by decide)
  have hcode : code (o.mark :: o.body) = o.mark :: code o.body := by simp [code, hmark]
  have hleft : left source wanted root (o.mark :: code o.body) = code (left source wanted root (o.mark :: o.body)) := by
    rw [code_left, hcode]
  rw [left_append, hheader, hleft, left, hbody]
  exact ⟨_, rfl, rfl⟩

theorem eval_of_isStubbed {ν : Rule Variable} (hν : ν ∈ memberRules) : ∃ s, ∀ us,
    eval grammar ν (left source wanted root (code o.header ++ o.mark :: code o.body) ++ us) =
      some ([o.shorn (shift source wanted root m.node.start) s], us) := by
  obtain ⟨s, hs, hleft⟩ := h.left_of_isStubbed hm hstubbed o
  refine ⟨s, fun us => ?_⟩
  rw [hleft, List.append_assoc]
  exact o.eval_shorn hν us (steady_move _ fun t ht => o.reads.places t (List.mem_of_mem_filter ht)) hs

/-- The parts of the header are where they were, but for the place. -/
theorem child?_of_isStubbed {s : Token} {v : Tree} (hu : Settled source all m.node)
    (hv : v.stripped = o.shorn (shift source wanted root m.node.start) s)
    (hdressed : v.Forall (Dressed (remarks (left source wanted root all)))) {part : Field} (hpart : part ≠ .body) :
    v.child? part = (m.node.child? part).map (Tree.move (shift source wanted root m.node.start)) := by
  have hall : all = o.before ++ (o.header ++ (o.mark :: (o.body ++ o.behind))) :=
    Option.some.inj (h.tokens.symm.trans o.tokens)
  have hinside : ∀ t ∈ o.header, m.node.start ≤ t.start ∧ t.stop ≤ m.node.start + o.text.length :=
    fun t ht => ⟨(o.reads.places t ht).1, o.reads.inside t ht⟩
  have hedit := h.edit?_of_isStubbed hm hstubbed o
  have haround := around_of_mem_all h.laidOut hm hedit
  obtain ⟨a, ha, hstart, -⟩ := o.first
  obtain ⟨b, hb⟩ := Option.isSome_iff_exists.1 (List.getLast?_isSome.2 o.header_ne_nil)
  have hstop := o.last b hb
  rw [child?_of_dressed hdressed, hv, o.child?_shorn, child?_of_dressed hu.dressed, o.child?_stripped hpart,
    Option.map_map, Option.map_map]
  refine Option.map_congr fun x hx => ?_
  obtain ⟨hx_start, hx_stop, hx_nested⟩ := o.nested.1.of_mem (List.mem_of_find?_eq_some hx)
  exact h.dressAll_left (h.free_of_isStubbed hm hstubbed o)
    (Nat.le_of_lt (Nat.lt_of_lt_of_le haround.nonempty haround.inside)) hall hinside
    ⟨a, List.mem_of_mem_head? ha, by omega⟩ ⟨b, List.mem_of_getLast? hb, by omega⟩ hx_nested hx_start

/-- The profile lacks the body and is the same otherwise. -/
theorem profile?_of_isStubbed {s : Token} {v : Tree} (hu : Settled source all m.node)
    (hv : v.stripped = o.shorn (shift source wanted root m.node.start) s)
    (hdressed : v.Forall (Dressed (remarks (left source wanted root all)))) (inInterface : Bool) :
    v.profile? (out source wanted root) inInterface =
      (m.node.profile? source inInterface).map fun p => { p with body := none } := by
  have hkind := Member.kind_of_isStubbed hstubbed
  have hkind_v : v.kind = .methodDeclaration := by rw [← kind_stripped, hv]; rfl
  have hbody : v.child? .body = none := by
    rw [child?_of_dressed hdressed, hv, o.child?_shorn, o.find?_body]
    rfl
  have hmodifier (word : String) : v.hasModifier word = m.node.hasModifier word := by
    rw [← hasModifier_stripped, hv, o.hasModifier_shorn]
  have hedit := h.edit?_of_isStubbed hm hstubbed o
  have haround := around_of_mem_all h.laidOut hm hedit
  have hinside := Nat.le_of_lt (Nat.lt_of_lt_of_le haround.nonempty haround.inside)
  have hsignature : v.signature? (out source wanted root) = m.node.signature? source := by
    refine signature?_eq_of_carried (f := shift source wanted root m.node.start) fun part hpart => ?_
    have hpart : part ≠ .body := by
      rintro rfl
      rcases hpart with hpart | hpart <;> cases hpart
    refine ⟨h.child?_of_isStubbed hm hstubbed o hu hv hdressed hpart, fun x hx => ?_⟩
    obtain ⟨hstart, -, hnested⟩ := (wellNested_iff.1 hu.nested).2.of_mem (List.mem_of_find?_eq_some hx)
    refine h.carried_of_free (h.free_of_isStubbed hm hstubbed o) hinside (Nat.le_add_right ..) hnested hstart ?_
    rw [o.child?_eq hpart, Option.mem_def, Option.map_eq_some_iff] at hx
    obtain ⟨y, hy, rfl⟩ := hx
    rw [stop_dressAll]
    exact (o.nested.1.of_mem (List.mem_of_find?_eq_some hy)).2.1
  simp only [profile?, hkind, hkind_v, hmodifier, hsignature, hbody]
  simp

end

end Prunable

end Testwright.Java
