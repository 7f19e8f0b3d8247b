import Testwright.Proofs.Java.Boundaries
import Testwright.Proofs.Java.Elements
import Testwright.Proofs.Java.Signatures

/-!
# Trees without comments

Comments stand in the tree of a text beside what the grammar matches. `Tree.stripped` takes them out again:
what is left is what was matched (`parse?_eval`), with the same declarations and members. So every declaration
of a text is one that is kept (`exists_kept_of_declared`).
-/

namespace Testwright.Java

namespace Tree

/-- Whether a node is a comment. -/
def isNote (t : Tree) : Bool := t.kind.isComment && t.field.isNone

mutual

/-- A tree without the comments in it. -/
def stripped : Tree → Tree
  | .node k f s e cs => .node k f s e (strippedAll cs)

def strippedAll : List Tree → List Tree
  | [] => []
  | t :: ts => if t.isNote then strippedAll ts else stripped t :: strippedAll ts

end

section
variable (t : Tree)

@[simp] theorem kind_stripped : t.stripped.kind = t.kind := by
  cases t
  rfl

@[simp] theorem field_stripped : t.stripped.field = t.field := by
  cases t
  rfl

@[simp] theorem start_stripped : t.stripped.start = t.start := by
  cases t
  rfl

@[simp] theorem stop_stripped : t.stripped.stop = t.stop := by
  cases t
  rfl

end

theorem strippedAll_eq (ts : List Tree) :
    strippedAll ts = (ts.filter fun t => !t.isNote).map stripped := by
  induction ts with
  | nil => rfl
  | cons t ts ih =>
    rw [strippedAll, ih]
    cases h : t.isNote <;> simp [h]

theorem children_stripped (t : Tree) :
    t.stripped.children = (t.children.filter fun t => !t.isNote).map stripped := by
  cases t
  exact strippedAll_eq _

theorem isNote_insertInto (c t : Tree) : (insertInto c t).isNote = t.isNote := by
  rw [isNote, kind_insertInto, field_insertInto, isNote]

mutual

/-- A comment that is put into a tree is taken out again. -/
theorem stripped_insertInto {c : Tree} (hc : c.isNote = true) :
    ∀ t : Tree, (insertInto c t).stripped = t.stripped
  | .node k f s e cs => congrArg (Tree.node k f s e) (strippedAll_insertAmong hc cs)

theorem strippedAll_insertAmong {c : Tree} (hc : c.isNote = true) :
    ∀ ts : List Tree, strippedAll (insertAmong c ts) = strippedAll ts
  | [] => by simp [insertAmong, strippedAll, hc]
  | t :: ts => by
    rw [insertAmong]
    split
    · rw [strippedAll, strippedAll, strippedAll_insertAmong hc ts]
    · split
      · rw [strippedAll, strippedAll, isNote_insertInto, stripped_insertInto hc t]
      · rw [strippedAll, if_pos hc]

end

theorem stripped_of_forall {t : Tree} (h : t.Forall fun u => u.isNote = false) : t.stripped = t := by
  induction h with
  | @node k f s e cs self children ih =>
    have hfilter : cs.filter (fun t => !t.isNote) = cs :=
      List.filter_eq_self.2 fun t ht => by simp [(children t ht).self]
    rw [stripped, strippedAll_eq, hfilter, List.map_congr_left ih]
    simp

/-! ## Parts and members -/

theorem find?_stripped {p : Tree → Bool} (hp : ∀ t, p t.stripped = p t)
    (hnote : ∀ t, t.isNote = true → p t = false) (ts : List Tree) :
    ((ts.filter fun t => !t.isNote).map stripped).find? p = (ts.find? p).map stripped := by
  have hcomp : p ∘ stripped = p := funext hp
  rw [List.find?_map, hcomp, List.find?_filter]
  congr 2
  funext t
  cases h : t.isNote <;> simp [h, hnote]

theorem child?_stripped (t : Tree) (part : Field) :
    t.stripped.child? part = (t.child? part).map stripped := by
  rw [child?, children_stripped]
  refine find?_stripped (by simp) (fun u hu => ?_) _
  simp only [isNote, Bool.and_eq_true, Option.isNone_iff_eq_none] at hu
  rw [hu.2]
  rfl

theorem namedChildren_stripped (t : Tree) :
    t.stripped.namedChildren = (t.namedChildren.filter fun t => !t.isNote).map stripped := by
  rw [namedChildren, children_stripped, List.filter_map, namedChildren, List.filter_filter,
    List.filter_filter]
  congr 2
  funext u
  simp [Bool.and_comm]

theorem memberContainer?_stripped (t : Tree) :
    t.stripped.memberContainer? = t.memberContainer?.map stripped := by
  rw [memberContainer?, memberContainer?, child?_stripped]
  cases t.child? .body with
  | none => rfl
  | some body =>
    simp only [Option.map_some, kind_stripped, namedChildren_stripped]
    split
    · refine find?_stripped (by simp) (fun u hu => ?_) _
      simp only [isNote, Bool.and_eq_true] at hu
      refine Bool.eq_false_iff.2 fun hkind => ?_
      rw [eq_of_beq hkind] at hu
      exact absurd hu.1 (by decide)
    · rfl

/-- The members of a declaration that are no comments are those that it has without comments. -/
theorem members_stripped (t : Tree) :
    t.stripped.members = (t.members.filter fun t => !t.isNote).map stripped := by
  rw [members, members, memberContainer?_stripped]
  cases t.memberContainer? with
  | none => rfl
  | some container => exact namedChildren_stripped container

theorem chars_stripped (source : List Char) (t : Tree) : t.stripped.chars source = t.chars source := by
  simp [chars]

theorem header_stripped (source : List Char) (t : Tree) : t.stripped.header source = t.header source := by
  rw [header, header, child?_stripped, chars_stripped]
  cases t.child? .body <;> simp

theorem isClassLike_stripped (t : Tree) : t.stripped.isClassLike = t.isClassLike := by
  rw [isClassLike_eq, isClassLike_eq, kind_stripped]

theorem mem_members_stripped {n t : Tree} (hn : n ∈ t.members) (hnote : n.isNote = false) :
    n.stripped ∈ t.stripped.members := by
  rw [members_stripped]
  exact List.mem_map_of_mem (List.mem_filter.2 ⟨hn, by simp [hnote]⟩)

theorem isNote_of_kind {t : Tree} (h : t.kind.isComment = false) : t.isNote = false := by
  rw [isNote, h, Bool.false_and]

theorem isNote_of_isClassLike {t : Tree} (h : t.isClassLike = true) : t.isNote = false := by
  obtain ⟨k, f, s, e, cs⟩ := t
  cases k <;> first
    | rfl
    | cases h

end Tree

/-! ## Texts -/

namespace Grammar

open Rule

/-- A program is as many elements as there are. -/
theorem run_program_eq_eval (ts : List Token) :
    run grammar (256 * (ts.length + 4)) (.var .program) ts =
      (eval grammar (.many element) ts).map fun found => ([wrap .program found.1], found.2) := by
  have hdepth := ready_elements.depth
  have hfuel : 256 * (ts.length + 4) = 256 * ts.length + 1022 + 1 + 1 := by omega
  rw [hfuel, run_var, grammar_program, run_node, run_eq_eval paced ready_elements (by omega)]

variable {source : List Char} {ts : List Token} {xs : List Tree} {root : Tree}

/-- The tree of a text has the elements that are all of it, with the comments put into it. -/
theorem parse?_of_eval (htokens : tokens? source = some ts)
    (heval : eval grammar (.many element) (ts.filter (not ∘ Token.isComment)) = some (xs, [])) :
    parse? source = some ((ts.filter Token.isComment).foldl (fun t c => Tree.insertInto (parse?.ofComment c) t)
      (.node .program none 0 source.length xs)) := by
  unfold parse?
  rw [htokens]
  simp only [List.partition_eq_filter_filter, run_program_eq_eval, heval, Option.map_some]
  rfl

theorem sane_of_tokens? (h : tokens? source = some ts) : Sane ts := by
  have hsuits := tokens?_suits h
  have hscanned := tokens?_scanned h
  intro t ht
  have hsuits_t := hsuits t ht
  constructor
  · intro hword hmem
    rw [hword] at hsuits_t
    have hall : ∀ s ∈ marks, ∃ c ∈ s.toList, Token.isWordContinue c = false := by decide
    obtain ⟨c, hc, hnot⟩ := hall t.text hmem
    rw [hscanned.text t ht, String.toList_ofList] at hc
    rw [hsuits_t c hc] at hnot
    cases hnot
  · intro kind hliteral
    rw [hliteral] at hsuits_t
    have hkinds : ∀ kind ∈ literalKinds, kind.lexeme? = none := by decide
    exact hkinds kind hsuits_t

/-- What is matched has no comments. -/
theorem not_isNote_of_eval (hsane : Sane ts) (hcode : ∀ t ∈ ts, t.isComment = false) {rest : List Token}
    (heval : eval grammar (.many element) ts = some (xs, rest)) :
    ∀ x ∈ xs, x.Forall fun t => t.isNote = false := by
  intro x hx
  have hformed := ((matches_of_run heval).formed holds_forms (fun w hw => (hsane w hw).literal)
    (by decide) (fun _ hw => hw) x hx).2
  refine hformed.imp fun t ht => Bool.eq_false_iff.2 fun hnote => ?_
  have hkind : t.kind.isComment = true := (Bool.and_eq_true_iff.1 hnote).1
  obtain ⟨w, hw, hlexeme, -⟩ := ht.token _ (Kind.lexeme?_of_isComment hkind)
  have := hcode w hw
  rw [Token.isComment, hlexeme] at this
  cases this

theorem isNote_ofComment (h : tokens? source = some ts) {c : Token} (hc : c ∈ ts) :
    (parse?.ofComment c).isNote = true := by
  have hsuits := tokens?_suits h c hc
  unfold parse?.ofComment
  split
  · next kind hlexeme =>
    rw [hlexeme] at hsuits
    exact Bool.and_eq_true_iff.2 ⟨hsuits, rfl⟩
  · rfl

/-- What a text is matched as are its elements. -/
theorem eval_of_run_program
    (h : run grammar (256 * (ts.length + 4)) (.var .program) ts = some ([wrap .program xs], [])) :
    eval grammar (.many element) ts = some (xs, []) := by
  rw [run_program_eq_eval, Option.map_eq_some_iff] at h
  obtain ⟨⟨ys, rest⟩, heval, heq⟩ := h
  have hys : ys = xs := by simpa [wrap, Tree.children] using congrArg (fun found => found.1.map Tree.children) heq
  obtain rfl : rest = [] := congrArg Prod.snd heq
  rw [← hys, heval]

/-- Without comments, the tree of a text is what the grammar matches. -/
theorem parse?_eval (h : parse? source = some root) : ∃ ts xs, tokens? source = some ts ∧
    eval grammar (.many element) (ts.filter (not ∘ Token.isComment)) = some (xs, []) ∧
    root.stripped.children = xs := by
  obtain ⟨ts, xs, htokens, hrun, -, -, -, rfl⟩ := parse?_matched h
  have heval := eval_of_run_program hrun
  refine ⟨ts, xs, htokens, heval, ?_⟩
  have hnotes := not_isNote_of_eval (fun t ht => sane_of_tokens? htokens t (List.mem_of_mem_filter ht))
    (fun t ht => by simpa using (List.mem_filter.1 ht).2) heval
  have hroot : (Tree.node .program none 0 source.length xs).stripped.children = xs := by
    have hfilter : xs.filter (fun t => !t.isNote) = xs :=
      List.filter_eq_self.2 fun t ht => by simp [(hnotes t ht).self]
    rw [Tree.children_stripped, Tree.children, hfilter]
    exact (List.map_congr_left fun t ht => Tree.stripped_of_forall (hnotes t ht)).trans
      (List.map_id xs)
  refine List.foldlRecOn (motive := fun t : Tree => t.stripped.children = xs) _ _ hroot
    fun t ht c hc => ?_
  rwa [Tree.stripped_insertInto (isNote_ofComment htokens (List.mem_of_mem_filter hc))]

/-! ## Declarations -/

/-- A declaration at a node is the node or one at a member. -/
theorem mem_declaredAt {t : Tree} {outer : List Tree} {d : Declared} (hd : d ∈ t.declaredAt outer) :
    t.isClassLike = true ∧ (d = ⟨outer, t⟩ ∨
      ∃ u ∈ t.members, u.isNote = false ∧ d ∈ u.declaredAt (outer ++ [t])) := by
  rw [Tree.declaredAt_eq] at hd
  split at hd
  · next ht =>
    refine ⟨ht, (List.mem_cons.1 hd).imp_right fun hd => ?_⟩
    obtain ⟨u, hu, hd⟩ := Tree.mem_declaredAmong.1 hd
    have hclass : u.isClassLike = true := by
      refine Decidable.byContradiction fun hnot => ?_
      rw [Tree.declaredAt_eq, if_neg hnot] at hd
      cases hd
    rw [Tree.members_eq]
    exact ⟨u, List.mem_filter.2 ⟨hu, Tree.named_of_isClassLike hclass⟩,
      Tree.isNote_of_isClassLike hclass, hd⟩
  · cases hd

/-- All declarations at a node that is kept are kept. -/
theorem exists_kept_of_declaredAt {μ : Rule Variable} {X : List Token} {m : Tree} (h : Kept μ X m)
    {t : Tree} (ht : t.stripped = m) {outer : List Tree} {d : Declared} (hd : d ∈ t.declaredAt outer) :
    ∃ ν Y, Kept ν Y d.decl.stripped ∧ Y <:+: X := by
  induction h generalizing t outer with
  | @plain μ X m segment hollow =>
    subst ht
    obtain ⟨hclass, rfl | ⟨u, hu, hnote, -⟩⟩ := mem_declaredAt hd
    · exact ⟨μ, X, .plain segment hollow, List.infix_rfl⟩
    · have hmem := Tree.mem_members_stripped hu hnote
      rw [hollow (t.isClassLike_stripped.trans hclass)] at hmem
      cases hmem
  | @declaration μ ν F X c m l segment isClassLike split close houses inner shell frame ih =>
    subst ht
    obtain ⟨-, rfl | ⟨u, hu, hnote, hd⟩⟩ := mem_declaredAt hd
    · exact ⟨μ, X, .declaration segment isClassLike split close houses inner shell frame, List.infix_rfl⟩
    · obtain ⟨x, hx, heq⟩ := List.mem_map.1 (houses.mem (Tree.mem_members_stripped hu hnote))
      obtain ⟨ν', Z, hZ, hsub⟩ := ih x hx heq.symm hd
      exact ⟨ν', Z, hZ, hsub.trans (split ▸ infix_flatten hx F [c])⟩

/-- What the index reads of a text is kept as a part of its tokens. -/
theorem exists_kept_of_child (h : parse? source = some root) (htokens : tokens? source = some ts) {t : Tree}
    (ht : t ∈ root.children) (hkind : isIndexed t.kind = true) :
    ∃ X, Kept (.var .declaration) X t.stripped ∧ X <:+: ts.filter (not ∘ Token.isComment) := by
  obtain ⟨ts', xs, htokens', heval, rfl⟩ := parse?_eval h
  cases htokens.symm.trans htokens'
  have hsane : Sane (ts.filter (not ∘ Token.isComment)) := fun t ht =>
    sane_of_tokens? htokens t (List.mem_of_mem_filter ht)
  obtain ⟨l, hsplit, hchildren, hkept⟩ := exists_elements hsane heval
  have hnote : t.isNote = false := by
    refine Bool.eq_false_iff.2 fun hnote => ?_
    have hcomment : t.kind.isComment = true := (Bool.and_eq_true_iff.1 hnote).1
    simp only [Kind.isComment, Bool.or_eq_true, beq_iff_eq] at hcomment
    rcases hcomment with hcomment | hcomment <;>
    · rw [hcomment] at hkind
      exact absurd hkind (by decide)
  have hmem : t.stripped ∈ root.stripped.children := by
    rw [Tree.children_stripped]
    exact List.mem_map_of_mem (List.mem_filter.2 ⟨ht, by simp [hnote]⟩)
  rw [hchildren] at hmem
  obtain ⟨⟨X, m⟩, hx, heq⟩ := List.mem_map.1 hmem
  subst heq
  refine ⟨X, (hkept _ hx).kept_of_isIndexed (by simpa using hkind), ?_⟩
  rw [hsplit]
  exact infix_flatten hx [] []

/-- The declarations of a text are kept as parts of its tokens. -/
theorem exists_kept_of_declared (h : parse? source = some root) (htokens : tokens? source = some ts)
    {d : Declared} (hd : d ∈ root.declarations) :
    ∃ μ X, Kept μ X d.decl.stripped ∧ X <:+: ts.filter (not ∘ Token.isComment) := by
  obtain ⟨t, ht, hd⟩ := Tree.mem_declaredAmong.1 hd
  have hkind : isIndexed t.kind = true := by
    have hclass := (mem_declaredAt hd).1
    rw [Tree.isClassLike_eq] at hclass
    simp [isIndexed, hclass]
  obtain ⟨X, hX, hinfix⟩ := exists_kept_of_child h htokens ht hkind
  obtain ⟨μ, Y, hY, hsub⟩ := exists_kept_of_declaredAt hX rfl hd
  exact ⟨μ, Y, hY, hsub.trans hinfix⟩

/-- A declaration with members is a frame for members like them. -/
theorem Kept.exists_frame {μ : Rule Variable} {X : List Token} {m : Tree} (h : Kept μ X m)
    (hclass : m.isClassLike = true) (hkind : m.kind ≠ .enumDeclaration) (hmembers : m.members ≠ []) :
    ∃ ν H, Frame ν H X m ∧ ∀ n ∈ m.members, ∃ Y, Segment ν Y n ∧ Y <:+: X := by
  cases h with
  | plain _ hollow => exact absurd (hollow hclass) hmembers
  | declaration _ _ split _ houses inner _ frame =>
    obtain ⟨H, hH⟩ := frame hkind
    refine ⟨_, H, hH, fun n hn => ?_⟩
    obtain ⟨x, hx, rfl⟩ := List.mem_map.1 (houses.mem hn)
    exact ⟨x.1, (inner x hx).segment, split ▸ infix_flatten hx _ _⟩

/-- The members of a declaration are parts of it behind brackets or semicolons, also those of an enumeration. -/
theorem Kept.exists_segment {μ : Rule Variable} {X : List Token} {m n : Tree} (h : Kept μ X m)
    (hclass : m.isClassLike = true) (hn : n ∈ m.members) : ∃ ν ∈ memberRules, ∃ P Y Q, Segment ν Y n ∧
      X = P ++ (Y ++ Q) ∧ ∃ b ∈ P.getLast?, b.mark ∈ marks := by
  cases h with
  | plain _ hollow =>
    rw [hollow hclass] at hn
    cases hn
  | @declaration _ ν F _ c _ _ _ _ split _ houses inner shell =>
    obtain ⟨x, hx, rfl⟩ := List.mem_map.1 (houses.mem hn)
    obtain ⟨l₁, l₂, rfl⟩ := List.append_of_mem hx
    refine ⟨ν, shell.host, F ++ (l₁.map Prod.fst).flatten, x.1, (l₂.map Prod.fst).flatten ++ [c],
      (inner x hx).segment, by simp [split], ?_⟩
    rcases List.eq_nil_or_concat l₁ with rfl | ⟨l₁, y, rfl⟩
    · simpa using shell.last
    · obtain ⟨b, hb, hmark⟩ := (inner y (by simp)).segment.ends
      refine ⟨b, ?_, hmark⟩
      rw [List.concat_eq_append, List.map_append, List.flatten_append, ← List.append_assoc, List.getLast?_append]
      simp [Option.mem_def.1 hb]

end Grammar

end Testwright.Java
