import Testwright.Proofs.Java.Profiles
import Testwright.Proofs.Java.Revising

/-!
# Where pruning cuts

Every edit of pruning covers whole tokens (`Prunable.exists_cut`). A member that is removed stands behind a bracket, a
semicolon or another member, so what stands in front of it is not joined with what stands behind. A body is replaced
behind the header of its method, and if the header ended in a line comment, the semicolon would become a part of the
comment. Where no such header is cut, the tokens of the result are what becomes of the tokens of the text
(`Prunable.tokens?_splice`).

The edit of a member stays within each declaration that the member belongs to (`Enclosed`), so no edit is made in the
parts of a class beside its members (`Enclosed.free`).
-/

namespace Testwright.Java

open Grammar Rule Token Tree

variable {source : List Char} {wanted : Names} {root : Tree} {all A B C : List Token} {e : Edit} {m : Member}
  {t : Token}

/-- A line comment ends where its line ends. -/
theorem Scanned.lineEnd (h : Scanned source all) (ht : t ∈ all) (hline : t.lexeme = .comment .lineComment) :
    ∀ c ∈ source[t.stop]?, c = '\n' := by
  intro c hc
  have hscan := h.scan t ht
  have hlt := h.nonempty ht
  rw [hline] at hscan
  rcases comment_of_scan? hscan with ⟨r, hdrop, -, hlength⟩ | ⟨r, -, hkind, -⟩
  · have hget : source[t.stop]? = r[(r.takeWhile (· != '\n')).length]? := by
      rw [show t.stop = t.start + (t.stop - t.start) by omega, ← List.getElem?_drop, hdrop, hlength,
        Nat.add_comm 2]
      rfl
    rw [hget, ← List.head?_drop, drop_length_takeWhile] at hc
    have hnot := List.head?_dropWhile_not (· != '\n') r
    rw [Option.mem_def.1 hc] at hnot
    simpa using hnot
  · cases hkind

theorem Placed.within {a b : Token} (h : Placed source A) (ha : a ∈ A.head?) (hb : b ∈ A.getLast?) (ht : t ∈ A) :
    a.start ≤ t.start ∧ t.stop ≤ b.stop := by
  obtain ⟨front, rfl⟩ := List.head?_eq_some_iff.1 ha
  constructor
  · rcases List.mem_cons.1 ht with rfl | ht
    · exact Nat.le_refl _
    · have hfirst := (h.firm a List.mem_cons_self).nonempty
      have := (List.pairwise_cons.1 h.ordered).1 t ht
      omega
  · obtain ⟨front, hfront⟩ := List.getLast?_eq_some_iff.1 hb
    rw [hfront] at h ht
    rcases List.mem_append.1 ht with ht | ht
    · have hlast := (h.firm b (by simp)).nonempty
      have := h.of_append.2.2 t ht b List.mem_cons_self
      omega
    · cases List.mem_singleton.1 ht
      exact Nat.le_refl _

namespace Prune

/-- No edit is made between two places. -/
def Free (source : List Char) (wanted : Names) (root : Tree) (a b : Nat) : Prop :=
  ∀ e ∈ edits source wanted root, e.stop ≤ a ∨ b ≤ e.start

theorem lineSpan_covers (source : List Char) (start stop : Nat) :
    (lineSpan source start stop).1 ≤ start ∧ stop ≤ (lineSpan source start stop).2 := by
  obtain ⟨indent, trail, -, -, hspan | ⟨-, hspan⟩ | ⟨-, hspan⟩⟩ := lineSpan_cases source start stop <;>
  · rw [hspan]
    constructor <;> dsimp only <;> omega

end Prune

namespace Member

open Prune

theorem mem_all : m ∈ Member.all root ↔ ∃ d ∈ root.declarations, m.decl = d.decl ∧ m.node ∈ d.decl.members := by
  simp only [Member.all, List.mem_flatMap, List.mem_map]
  constructor
  · rintro ⟨d, hd, n, hn, rfl⟩
    exact ⟨d, hd, rfl, hn⟩
  · rintro ⟨d, hd, hdecl, hn⟩
    obtain ⟨decl, node⟩ := m
    cases hdecl
    exact ⟨d, hd, node, hn, rfl⟩

/-- A member that is edited is removed, with blanks around it, or it loses its body. -/
theorem edit?_cases (h : m.edit? source wanted = some e) :
    m.isRemoved source wanted = true ∧
        e = ⟨(lineSpan source m.node.start m.node.stop).1, (lineSpan source m.node.start m.node.stop).2, []⟩ ∨
      m.isStubbed source wanted = true := by
  refine (isRemoved_or_isStubbed_of_edit? h).imp_left fun hremoved => ⟨hremoved, ?_⟩
  rw [edit?, fate_eq_remove_iff.2 hremoved] at h
  exact (Option.some.inj h).symm

theorem kind_of_isRemoved (h : m.isRemoved source wanted = true) :
    m.node.kind = .fieldDeclaration ∨ m.node.kind = .methodDeclaration := by
  rw [isRemoved, Bool.or_eq_true, Bool.and_eq_true, isPrivateField, isUnwanted, Bool.and_eq_true, Bool.and_eq_true,
    beq_iff_eq, beq_iff_eq] at h
  exact h.imp And.left fun h => h.1.1

theorem kind_of_isStubbed (h : m.isStubbed source wanted = true) : m.node.kind = .methodDeclaration := by
  rw [isStubbed, Bool.and_eq_true, Bool.and_eq_true, isUnwanted, Bool.and_eq_true, beq_iff_eq] at h
  exact h.1.1.1

theorem isNote_of_edit? (h : m.edit? source wanted = some e) : m.node.isNote = false := by
  rcases edit?_cases h with ⟨hremoved, -⟩ | hstubbed
  · rcases kind_of_isRemoved hremoved with hkind | hkind <;> exact isNote_of_kind (by rw [hkind]; rfl)
  · exact isNote_of_kind (by rw [kind_of_isStubbed hstubbed]; rfl)

end Member

/-! ## Edits in declarations -/

/-- A node with what it is made of and its place in the text. -/
structure Settled (source : List Char) (all : List Token) (t : Tree) : Prop where
  nested : t.WellNested
  sits : t.Forall (Sits source)
  dressed : t.Forall (Dressed (remarks all))

section
variable {t u : Tree} {n : Member} {a b : Nat}

namespace Settled

theorem firm (ht : Settled source all t) : Firm source t.start t.stop := ht.sits.self.firm

theorem of_mem_interior (ht : Settled source all t) (hclass : t.isClassLike = true) (hu : u ∈ t.interior) :
    Settled source all u where
  nested := ((nestedIn_interior hclass ht.nested ht.sits.self.braced).1.of_mem hu).2.2
  sits := forall_interior (fun _ hv => ht.sits.of_mem hv) u hu
  dressed := forall_interior (fun _ hv => ht.dressed.of_mem hv) u hu

/-- The edit of a member takes the place of a part of each node around it, with blanks around. -/
theorem around (hu : Settled source all u) (hn : n.node = u ∨ n ∈ Member.below u)
    (he : n.edit? source wanted = some e) : Prune.Around source u.start u.stop e.start e.stop := by
  rcases hn with rfl | hn
  · exact Prune.around_edit? hu.nested hu.sits he
  · have hspread := (spread_declaredAt u).self [] hu.nested hu.sits
    have hmem : n.node ∈ membersOf (u.declaredAt []) := by
      obtain ⟨d, hd, hn⟩ := List.mem_flatMap.1 hn
      obtain ⟨v, hv, rfl⟩ := List.mem_map.1 hn
      exact List.mem_flatMap.2 ⟨d, hd, hv⟩
    obtain ⟨hnested, hsits⟩ := hspread.sits _ hmem
    obtain ⟨v, hv, hholds⟩ := hspread.held _ hmem
    cases List.mem_singleton.1 hv
    have haround := Prune.around_edit? hnested hsits he
    obtain ⟨hstart, hstop⟩ := haround.inside_of_lt hu.firm hholds.solid hholds.start hholds.stop
    exact .of_le (Nat.le_of_lt hstart) haround.nonempty (Nat.le_of_lt hstop) haround.inside

/-- So it keeps out of what lies beside the node. -/
theorem edit_apart (hu : Settled source all u) (hn : n.node = u ∨ n ∈ Member.below u)
    (he : n.edit? source wanted = some e) (hfirm : Firm source a b) (hapart : b ≤ u.start ∨ u.stop ≤ a) :
    e.stop ≤ a ∨ b ≤ e.start :=
  hapart.symm.imp ((hu.around hn he).stop_le hfirm) ((hu.around hn he).le_start hfirm hu.firm)

end Settled

/-- All edits in a node are those of members below it. -/
structure Enclosed (source : List Char) (wanted : Names) (root t : Tree) : Prop where
  members : ∀ n ∈ Member.below t, n ∈ Member.all root
  apart : ∀ n ∈ Member.all root, ∀ e, n.edit? source wanted = some e →
    n ∈ Member.below t ∨ e.stop ≤ t.start ∨ t.stop ≤ e.start

namespace Enclosed

open Prune

/-- No edit is made in a part of a node beside all of its members. -/
theorem free (ht : Enclosed source wanted root t) (hsettled : Settled source all t) (hfirm : Firm source a b)
    (ha : t.start ≤ a) (hb : b ≤ t.stop)
    (hmembers : t.isClassLike = true → ∀ u ∈ t.members, u.isNote = false → b ≤ u.start ∨ u.stop ≤ a) :
    Free source wanted root a b := by
  intro e he
  rw [edits_eq] at he
  obtain ⟨n, hn, he⟩ := List.mem_filterMap.1 he
  rcases ht.apart n hn e he with hn | hbefore | hbehind
  · have hclass := (Member.mem_below.1 hn).1
    obtain ⟨u, hu, hnote, hn⟩ := Member.exists_of_mem_below hn (Member.isNote_of_edit? he)
    have hinterior : u ∈ t.interior := List.mem_of_mem_filter (members_eq t ▸ hu)
    exact (hsettled.of_mem_interior hclass hinterior).edit_apart (hn.imp_left (congrArg Member.node)) he hfirm
      (hmembers hclass u hu hnote)
  · exact .inl (Nat.le_trans hbefore ha)
  · exact .inr (Nat.le_trans hb hbehind)

/-- No edit is made in a node without members. -/
theorem free_of_hollow (ht : Enclosed source wanted root t) (hsettled : Settled source all t)
    (hhollow : t.isClassLike = true → t.stripped.members = []) : Free source wanted root t.start t.stop := by
  refine ht.free hsettled hsettled.firm (Nat.le_refl _) (Nat.le_refl _) fun hclass u hu hnote => ?_
  have hmem := mem_members_stripped hu hnote
  rw [hhollow hclass] at hmem
  cases hmem

/-- Nested siblings enclose what none of them undergoes itself. -/
theorem of_siblings {ts : List Tree} {lo hi : Nat} (hnested : NestedIn lo hi ts) (hts : ∀ u ∈ ts, Settled source all u)
    (ht : t ∈ ts) (hmembers : ∀ n ∈ Member.below t, n ∈ Member.all root)
    (happart : ∀ n ∈ Member.all root, ∀ e, n.edit? source wanted = some e →
      (∃ u ∈ ts, n.node = u ∧ u ≠ t ∨ n ∈ Member.below u) ∨ e.stop ≤ t.start ∨ t.stop ≤ e.start) :
    Enclosed source wanted root t := by
  refine ⟨hmembers, fun n hn e he => ?_⟩
  rcases happart n hn e he with ⟨u, hu, hnode⟩ | hbeside
  · by_cases heq : u = t
    · subst heq
      exact .inl (hnode.resolve_left fun hnode => hnode.2 rfl)
    · have hor := related_of_pairwise (nestedIn_iff.1 hnested).1 ht hu (Ne.symm heq)
      exact .inr ((hts u hu).edit_apart (hnode.imp_left And.left) he (hts t ht).firm hor)
  · exact .inr hbeside

/-- A node in the body of a class encloses the edits in it, unless there is one of the node itself. -/
theorem of_mem_interior (ht : Enclosed source wanted root t) (hclass : t.isClassLike = true)
    (hsettled : Settled source all t) (hu : u ∈ t.interior) (hnone : (Member.mk t u).edit? source wanted = none) :
    Enclosed source wanted root u := by
  have hnested := (nestedIn_interior hclass hsettled.nested hsettled.sits.self.braced).1
  refine of_siblings hnested (fun _ => hsettled.of_mem_interior hclass) hu
    (fun n hn => ht.members n (Member.mem_below.2 ⟨hclass, .inr ⟨u, hu, hn⟩⟩)) fun n hn e he => ?_
  obtain ⟨hstart, hstop, -⟩ := hnested.of_mem hu
  rcases ht.apart n hn e he with hbelow | hbefore | hbehind
  · obtain ⟨-, ⟨hdecl, hnode⟩ | ⟨v, hv, hbelow⟩⟩ := Member.mem_below.1 hbelow
    · rw [members_eq] at hnode
      refine .inl ⟨n.node, List.mem_of_mem_filter hnode, .inl ⟨rfl, fun heq => ?_⟩⟩
      obtain ⟨decl, node⟩ := n
      subst hdecl heq
      cases hnone.symm.trans he
    · exact .inl ⟨v, hv, .inr hbelow⟩
  · exact .inr (.inl (by omega))
  · exact .inr (.inr (by omega))

/-- A declaration of a text encloses the edits in it. -/
theorem of_mem_root (hnested : root.WellNested) (hsettled : ∀ u ∈ root.children, Settled source all u)
    (ht : t ∈ root.children) : Enclosed source wanted root t := by
  refine of_siblings (wellNested_iff.1 hnested).2 hsettled ht (fun n hn => ?_) fun n hn e he => ?_
  · rw [Member.all_eq]
    exact List.mem_flatMap.2 ⟨t, ht, hn⟩
  · rw [Member.all_eq] at hn
    obtain ⟨u, hu, hn⟩ := List.mem_flatMap.1 hn
    exact .inl ⟨u, hu, .inr hn⟩

end Enclosed

end

/-! ## Cuts -/

/-- A text with its tokens, where no header of a method that loses its body ends in a line comment. -/
structure Prunable (source : List Char) (wanted : Names) (root : Tree) (all : List Token) : Prop where
  parsed : parse? source = some root
  tokens : tokens? source = some all
  closed : ∀ m ∈ Member.all root, m.isStubbed source wanted = true → m.node.hasOpenBrief source = false

namespace Prunable

open Prune

variable (h : Prunable source wanted root all)
include h

theorem laidOut : LaidOut source root := parse?_laidOut h.parsed

theorem independent : Edit.Independent source (edits source wanted root) := independent_edits h.laidOut

theorem placed : Placed source all := tokens?_placed h.tokens

/-- A member stands in a text behind a bracket or a semicolon. -/
theorem exists_segment (hm : m ∈ Member.all root) (hnote : m.node.isNote = false) : ∃ ν ∈ memberRules, ∃ P Y Q,
    Segment ν Y m.node.stripped ∧ code all = P ++ (Y ++ Q) ∧ ∃ b ∈ P.getLast?, b.mark ∈ marks := by
  obtain ⟨d, hd, -, hnode⟩ := Member.mem_all.1 hm
  obtain ⟨-, -, hclass, -, -⟩ := Index.parsed_of_declared h.parsed hd
  obtain ⟨μ, X, hkept, R, S, hX⟩ := exists_kept_of_declared h.parsed h.tokens hd
  obtain ⟨ν, hν, P, Y, Q, hY, rfl, b, hb, hmark⟩ :=
    hkept.exists_segment (by rwa [isClassLike_stripped]) (mem_members_stripped hnode hnote)
  refine ⟨ν, hν, R ++ P, Y, Q ++ S, hY, by rw [code, ← hX]; simp, b, ?_, hmark⟩
  rw [List.getLast?_append, Option.mem_def.1 hb]
  rfl

/-- A member is cut out with all of its tokens, and what stands in front of it ends with a bracket or semicolon. -/
theorem exists_cut_of_isRemoved (hm : m ∈ Member.all root) (he : m.edit? source wanted = some e)
    (hspan : e = ⟨(lineSpan source m.node.start m.node.stop).1, (lineSpan source m.node.start m.node.stop).2, []⟩) :
    ∃ A B C, all = A ++ (B ++ C) ∧ Edit.Cut source A B C e := by
  obtain ⟨ν, -, P, Y, Q, hY, hcode, z, hz, hmark⟩ := h.exists_segment hm (Member.isNote_of_edit? he)
  obtain ⟨a, ha, hstart⟩ := hY.spanned.start
  obtain ⟨b, hb, hstop⟩ := hY.spanned.stop
  rw [start_stripped] at hstart
  rw [stop_stripped] at hstop
  obtain ⟨A, B, C, rfl, rfl, rfl, rfl, hhead, hlast⟩ := exists_of_code hcode (by rintro rfl; cases ha)
  have haround := around_of_mem_all h.laidOut hm he
  have hfirm := firm_of_mem_all h.laidOut hm
  have hplaced := h.placed
  obtain ⟨hplaced_A, hplaced_BC, hbefore⟩ := hplaced.of_append
  obtain ⟨hplaced_B, hplaced_C, hbehind⟩ := hplaced_BC.of_append
  obtain ⟨hle, hge⟩ := lineSpan_covers source m.node.start m.node.stop
  have hstart_e : e.start ≤ m.node.start := by rw [hspan]; exact hle
  have hstop_e : m.node.stop ≤ e.stop := by rw [hspan]; exact hge
  rw [← hhead] at ha
  rw [← hlast] at hb
  have hfront : ∀ t ∈ A, t.stop ≤ e.start := by
    intro t ht
    refine haround.le_start (hplaced_A.firm t ht) hfirm (hstart ▸ ?_)
    exact hbefore t ht a (List.mem_append_left _ (List.mem_of_mem_head? ha))
  refine ⟨A, B, C, rfl, ?_, hfront, fun t ht => ⟨?_, ?_⟩, fun t ht => ?_, .gap (by rw [hspan]) ?_ ?_⟩
  · rintro rfl
    cases hz
  · exact Nat.le_trans hstart_e (hstart ▸ (hplaced_B.within ha hb ht).1)
  · exact Nat.le_trans (hstop ▸ (hplaced_B.within ha hb ht).2) hstop_e
  · refine haround.stop_le (hplaced_C.firm t ht) (hstop ▸ ?_)
    exact hbehind b (List.mem_of_getLast? hb) t ht
  · intro b hb
    cases hz.symm.trans hb
    exact hmark
  · -- a line comment ends in front of the end of its line, where no blank stands and no token begins
    intro t ht hstop hline
    have hend := (tokens?_scanned h.tokens).lineEnd (List.mem_append_left _ (List.mem_of_getLast? ht)) hline
    rw [hstop] at hend
    rcases Nat.eq_or_lt_of_le hstart_e with heq | hlt
    · obtain ⟨c, hc, hsolid⟩ := hfirm.first
      cases hend c (heq ▸ hc)
      cases hsolid
    · rcases haround.front e.start (Nat.le_refl _) hlt with hblank | hblank <;>
      · cases hend _ hblank

/-- Other edits do not touch a member that is edited. -/
theorem edits_apart {m : Member} {e e' : Edit} (hm : m ∈ Member.all root) (he : m.edit? source wanted = some e)
    (he' : e' ∈ edits source wanted root) : e' = e ∨ e'.stop ≤ m.node.start ∨ m.node.stop ≤ e'.start := by
  rw [edits_eq] at he'
  obtain ⟨n, hn, he'⟩ := List.mem_filterMap.1 he'
  by_cases heq : n = m
  · exact .inl (Option.some.inj (he'.symm.trans (heq ▸ he)))
  have haround := around_of_mem_all h.laidOut hn he'
  have hfirm_n := firm_of_mem_all h.laidOut hn
  have hfirm_m := firm_of_mem_all h.laidOut hm
  have holds {a : Member} {b : Tree} {e : Edit} (hholds : Holds source a.node b) (ha : a.edit? source wanted = some e) :
      False := by cases (Member.edit?_of_isClassLike hholds.isClassLike).symm.trans ha
  refine .inr ?_
  rcases related_of_pairwise (apart_all h.laidOut) hn hm heq with (hle | hle | hholds) | (hle | hle | hholds)
  · exact .inl (haround.stop_le hfirm_m hle)
  · exact .inr (haround.le_start hfirm_m hfirm_n hle)
  · exact (holds hholds he').elim
  · exact .inr (haround.le_start hfirm_m hfirm_n hle)
  · exact .inl (haround.stop_le hfirm_m hle)
  · exact (holds hholds he).elim

theorem exists_opening (hm : m ∈ Member.all root) (hkind : m.node.kind = .methodDeclaration) :
    Nonempty (Opening source m.node) := by
  obtain ⟨d, hd, -, hnode⟩ := Member.mem_all.1 hm
  exact Testwright.Java.exists_opening h.parsed hd hnode hkind

/-- The body of a method is cut out with all of its tokens, and a stopper stands behind the header. -/
theorem cut_of_isStubbed (hm : m ∈ Member.all root) (hstubbed : m.isStubbed source wanted = true)
    (o : Opening source m.node) : Edit.Cut source (o.before ++ o.header) (o.mark :: o.body) o.behind
      ⟨m.node.start + o.text.length, m.node.stop, [';']⟩ := by
  have hopen := h.closed m hm hstubbed
  have hplaced := o.placed
  rw [show o.before ++ (o.header ++ o.mark :: (o.body ++ o.behind)) =
    o.before ++ (o.header ++ (o.mark :: o.body ++ o.behind)) by simp] at hplaced
  obtain ⟨-, hplaced_rest, hbefore⟩ := hplaced.of_append
  obtain ⟨hplaced_B, -, hbehind⟩ := hplaced_rest.of_append.2.1.of_append
  obtain ⟨b, hb, hlast⟩ := o.final
  obtain ⟨a, ha, hstart, -⟩ := o.first
  refine ⟨List.append_ne_nil_of_right_ne_nil _ o.header_ne_nil, fun t ht => ?_, fun t ht => ⟨?_, ?_⟩, fun t ht => ?_,
    .semicolon rfl ?_ ⟨o.mark, rfl, isComment_of_mark ?_⟩ fun t ht => ?_⟩
  · rcases List.mem_append.1 ht with ht | ht
    · have hle := hbefore t ht a (List.mem_append_left _ (List.mem_of_mem_head? ha))
      exact Nat.le_trans (hstart ▸ hle) (Nat.le_add_right ..)
    · exact o.reads.inside t ht
  · exact (o.rest.places t (List.cons_append ▸ List.mem_append_left o.behind ht)).1
  · exact hlast ▸ (hplaced_B.within rfl hb ht).2
  · exact hlast ▸ hbehind b (List.mem_of_getLast? hb) t ht
  · rw [← List.drop_drop, o.drop, List.drop_left]
    exact o.rest.stopped o.ends.mark_mem
  · intro hempty
    have hmark := o.ends.mark_mem
    rw [hempty] at hmark
    exact absurd hmark (by decide)
  · rw [List.getLast?_append_of_ne_nil _ o.header_ne_nil] at ht
    exact o.last_ne hopen t ht

/-- The edit of such a method begins behind its header and ends with the method. -/
theorem edit?_of_isStubbed (hm : m ∈ Member.all root) (hstubbed : m.isStubbed source wanted = true)
    (o : Opening source m.node) :
    m.edit? source wanted = some ⟨m.node.start + o.text.length, m.node.stop, [';']⟩ := by
  have hbody : (m.node.child? .body).isSome = true := (Bool.and_eq_true_iff.1 hstubbed).2
  rw [Member.edit?, Member.fate_eq_stub_iff.2 hstubbed, Prune.edit?, o.header_eq (h.closed m hm hstubbed)]
  rcases o.exists_body with ⟨hnone, -⟩ | ⟨body, hfound, -, hstop⟩
  · rw [hnone] at hbody
    cases hbody
  · rw [hfound, Option.map_some, hstop]

/-- Every edit of pruning covers whole tokens. -/
theorem exists_cut (he : e ∈ edits source wanted root) : ∃ A B C, all = A ++ (B ++ C) ∧ Edit.Cut source A B C e := by
  rw [edits_eq] at he
  obtain ⟨m, hm, he⟩ := List.mem_filterMap.1 he
  rcases Member.edit?_cases he with ⟨-, hspan⟩ | hstubbed
  · exact h.exists_cut_of_isRemoved hm he hspan
  · obtain ⟨o⟩ := h.exists_opening hm (Member.kind_of_isStubbed hstubbed)
    cases he.symm.trans (h.edit?_of_isStubbed hm hstubbed o)
    have hall : all = o.before ++ o.header ++ (o.mark :: o.body ++ o.behind) := by
      rw [Option.some.inj (h.tokens.symm.trans o.tokens)]
      simp
    exact ⟨_, _, _, hall, h.cut_of_isStubbed hm hstubbed o⟩

/-- The tokens of the result are what becomes of the tokens of the text. -/
theorem tokens?_splice : tokens? (Edit.splice source (edits source wanted root)) =
    some (Edit.reviseAll source (edits source wanted root) all) :=
  h.independent.tokens?_splice h.placed (fun _ he => h.exists_cut he) h.tokens

end Prunable

end Testwright.Java
