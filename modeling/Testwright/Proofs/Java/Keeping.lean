import Testwright.Proofs.Java.Frames

/-!
# Declarations with other members

A declaration of a class is matched with other members as well: its header is a frame (`Frame`), and what stands in
front of its members is a shell (`Shell`). `Hosts.keeps` finds both in all nested declarations.
-/

namespace Testwright.Java

/-- Some trees are all that stands in the body of a declaration but for braces and a semicolon. -/
def Tree.Houses (m : Tree) (ms : List Tree) : Prop :=
  ∃ front back, m.interior = front ++ ms ++ back ∧ ∀ x ∈ front ++ back, x.kind.named = false

theorem Tree.Houses.mem {m n : Tree} {ms : List Tree} (h : m.Houses ms) (hn : n ∈ m.members) : n ∈ ms := by
  obtain ⟨front, back, hinterior, hothers⟩ := h
  rw [members_eq, hinterior, List.mem_filter] at hn
  obtain ⟨hn, hnamed⟩ := hn
  rcases List.mem_append.1 hn with hn | hn
  · rcases List.mem_append.1 hn with hn | hn
    · cases hnamed.symm.trans (hothers n (List.mem_append_left _ hn))
    · exact hn
  · cases hnamed.symm.trans (hothers n (List.mem_append_right _ hn))

namespace Grammar

open Rule

variable {ts rest us : List Token} {xs ms : List Tree} {f : Nat → Nat}

/-- The header of a declaration may stand in front of other members. -/
structure Frame (ν : Rule Variable) (H X : List Token) (m : Tree) : Prop where
  ready : (many ν).Ready known cost
  body : ∃ a b, H ++ [a] <+: X ∧ a.mark = "\x7b" ∧ m.child? .body = some b ∧ b.start = a.start
  nonempty : H ≠ []
  closes : ∀ c us, c.mark = "\x7d" → eval grammar ν (c :: us) = none
  rebuilds : ∀ f a c ts us ms, Steady f H → a.mark = "\x7b" → c.mark = "\x7d" →
    eval grammar (.many ν) (ts ++ c :: us) = some (ms, c :: us) →
    ∃ xs, eval grammar (.var .declaration) (H.map (Token.move f) ++ a :: (ts ++ c :: us)) = some (xs, us)

/-- The rules for members of declarations. -/
def memberRules : List (Rule Variable) := [.var .classMember, interfaceMember]

theorem ready_memberRules : ∀ ν ∈ memberRules, (many ν).Ready known cost := by decide

/-- No member begins with the bracket behind the members. -/
theorem eval_many_of_close {ν : Rule Variable} {c : Token} (hν : ν ∈ memberRules) (hc : c.mark = "\x7d") :
    eval grammar (.many ν) (c :: us) = some ([], c :: us) := by
  have hnone : eval grammar ν (c :: us) = none := by
    obtain ⟨front, back, last, hclass⟩ := hosts_classMember
    obtain ⟨front', back', last', hinterface⟩ := hosts_interfaceMember
    rcases List.mem_pair.1 hν with rfl | rfl
    · exact hclass.eval_eq_none_of_close hc
    · exact hinterface.eval_eq_none_of_close hc
  rw [eval_many paced (ready_memberRules ν hν), hnone]

/-- What stands in front of the members of a declaration may stand in front of other members, wherever it stands. -/
structure Shell (μ ν : Rule Variable) (F : List Token) (m : Tree) : Prop where
  host : ν ∈ memberRules
  last : ∃ b ∈ F.getLast?, b.mark ∈ marks
  rebuilds : ∀ f c ts us ms, Steady f F → c.mark = "\x7d" →
    eval grammar (.many ν) (ts ++ c :: us) = some (ms, c :: us) →
    ∃ m', eval grammar μ (F.map (Token.move f) ++ (ts ++ c :: us)) = some ([m'], us) ∧ m'.kind = m.kind ∧ m'.Houses ms

/-- A rule matches a member wherever it stands, and declarations of classes have such members as well and
may have others. -/
inductive Kept : Rule Variable → List Token → Tree → Prop
  | plain {μ X m} (segment : Segment μ X m) (hollow : m.isClassLike = true → m.members = []) :
    Kept μ X m
  | declaration {μ ν F X c m} {l : List (List Token × Tree)} (segment : Segment μ X m)
      (isClassLike : m.isClassLike = true) (split : X = F ++ (l.map Prod.fst).flatten ++ [c]) (close : c.mark = "\x7d")
      (houses : m.Houses (l.map Prod.snd)) (inner : ∀ x ∈ l, Kept ν x.1 x.2) (shell : Shell μ ν F m)
      (frame : m.kind ≠ .enumDeclaration → ∃ H, Frame ν H X m) : Kept μ X m

theorem Kept.segment {μ : Rule Variable} {X : List Token} {m : Tree} (h : Kept μ X m) :
    Segment μ X m := by
  cases h <;> assumption

/-- What is repeated gives members of the tokens one after the other. -/
theorem exists_of_many {ν : Rule Variable} {P : List Token → Tree → Prop} {ms : List Tree}
    (hready : (many ν).Ready known cost)
    (hν : ∀ us xs rest, us.length ≤ ts.length → Sane us → eval grammar ν us = some (xs, rest) →
      ∃ m X, xs = [m] ∧ us = X ++ rest ∧ P X m)
    (hsane : Sane ts) (heval : eval grammar (.many ν) ts = some (ms, rest)) :
    ∃ l : List (List Token × Tree), ts = (l.map Prod.fst).flatten ++ rest ∧ ms = l.map Prod.snd ∧
      ∀ x ∈ l, P x.1 x.2 := by
  induction hlength : ts.length using Nat.strong_induction_on generalizing ts ms with
  | _ n ih =>
    subst hlength
    rw [eval_many paced hready] at heval
    split at heval
    · cases heval
      exact ⟨[], rfl, rfl, nofun⟩
    · next found hfirst =>
      obtain ⟨⟨ms, rest'⟩, hmany, heq⟩ := Option.map_eq_some_iff.1 heval
      cases heq
      obtain ⟨m, X, hm, hts, hmember⟩ := hν ts found.1 found.2 (Nat.le_refl _) hsane hfirst
      have hgives : ν.gives known = true := (Bool.and_eq_true_iff.1 hready.fits).2
      have matched := matched_of_eval paced hready.item hfirst
      have hlt := matched.taken.length_lt (matched.gives hgives)
      have hsane' : Sane found.2 := (hts ▸ hsane).of_append.2
      obtain ⟨l, hsplit, rfl, hmembers⟩ := ih _ hlt
        (fun us xs rest hus hsane => hν us xs rest (Nat.le_trans hus (Nat.le_of_lt hlt)) hsane) hsane'
        hmany rfl
      refine ⟨(X, m) :: l, ?_, ?_, List.forall_mem_cons.2 ⟨hmember, hmembers⟩⟩
      · rw [hts]
        simp [hsplit]
      · simp [hm]

theorem infix_flatten {l : List (List Token × Tree)} {x : List Token × Tree} (hx : x ∈ l)
    (A B : List Token) : x.1 <:+: A ++ (l.map Prod.fst).flatten ++ B := by
  obtain ⟨l₁, l₂, rfl⟩ := List.append_of_mem hx
  refine ⟨A ++ (l₁.map Prod.fst).flatten, (l₂.map Prod.fst).flatten ++ B, ?_⟩
  simp

/-- A match of the body of a declaration with members. -/
theorem exists_of_membersIn {ν : Rule Variable} {kind : Kind} {bs : List Tree}
    (hready : (membersIn kind ν).Ready known cost)
    (heval : eval grammar (membersIn kind ν) ts = some (bs, rest)) : ∃ a c ms us,
      ts = a :: us ∧ isPiece "\x7b" a = true ∧ eval grammar (.many ν) us = some (ms, c :: rest) ∧
      isPiece "\x7d" c = true ∧ bs = [wrap kind (leafOf "\x7b" a :: (ms ++ [leafOf "\x7d" c]))] := by
  obtain ⟨ys, hys, rfl⟩ := eq_singleton_of_node paced hready heval
  obtain ⟨os, zs, us, hopen, hzs, rfl⟩ := exists_of_seq paced hready.inner hys
  obtain ⟨ms, cs, vs, hmany, hclose, rfl⟩ := exists_of_seq paced hready.inner.right hzs
  obtain ⟨a, rfl, ha, rfl⟩ := eval_tok_eq_some hopen
  obtain ⟨c, rfl, hc, rfl⟩ := eval_tok_eq_some hclose
  exact ⟨a, c, ms, us, rfl, ha, hmany, hc, rfl⟩

theorem eval_membersIn {ν : Rule Variable} {kind : Kind} {a c : Token} {ms : List Tree}
    (hready : (membersIn kind ν).Ready known cost) (ha : isPiece "\x7b" a = true)
    (hc : isPiece "\x7d" c = true) (hmany : eval grammar (.many ν) ts = some (ms, c :: rest)) :
    eval grammar (membersIn kind ν) (a :: ts) =
      some ([wrap kind (leafOf "\x7b" a :: (ms ++ [leafOf "\x7d" c]))], rest) := by
  have hinner : (seq (tok "\x7b") (seq (many ν) (tok "\x7d"))).Ready known cost := hready.inner
  have hall : eval grammar (.seq (tok "\x7b") (.seq (.many ν) (tok "\x7d"))) (a :: ts) =
      some ([leafOf "\x7b" a] ++ (ms ++ [leafOf "\x7d" c]), rest) := by
    rw [eval_seq paced hinner, eval_tok_cons ha, Option.bind_some,
      eval_seq paced hinner.right, hmany, Option.bind_some, eval_tok_cons hc]
    rfl
  exact (eval_node paced hready).trans (congrArg (Option.map _) hall)

/-- Every match of a rule is a member that is kept. -/
def Keeps (ν : Rule Variable) (ts : List Token) : Prop :=
  ∀ xs rest, eval grammar ν ts = some (xs, rest) → ∃ m X, xs = [m] ∧ ts = X ++ rest ∧ Kept ν X m

theorem houses_of_membersIn {kind : Kind} {m : Tree} {a c : Token} (hkind : kind ≠ .enumBody)
    (hchild : m.child? .body = some ((wrap kind (leafOf "\x7b" a :: (ms ++ [leafOf "\x7d" c]))).withField .body)) :
    m.Houses ms := by
  refine ⟨[leafOf "\x7b" a], [leafOf "\x7d" c], ?_, by simp [leafOf, Tree.kind, Kind.named]⟩
  have hcontainer : m.memberContainer? =
      some ((wrap kind (leafOf "\x7b" a :: (ms ++ [leafOf "\x7d" c]))).withField .body) := by
    rw [Tree.memberContainer?, hchild]
    exact if_neg hkind
  rw [Tree.interior, hcontainer]
  rfl

/-- A header is matched in front of a brace and other members as well. -/
theorem Opened.exists_rebuilt {v : Variable} {kw : String} {kind bk : Kind} {body ν : Rule Variable} {H : List Token}
    {m b : Tree} (h : Opened v kw kind body H m b)
    (hin : ∀ us, eval grammar body us = eval grammar (membersIn bk ν) us)
    (hready : (membersIn bk ν).Ready known cost) (hbk : bk ≠ .enumBody) {f : Nat → Nat} {a c : Token}
    {ms : List Tree} (hsteady : Steady f H) (ha : a.mark = "\x7b") (hc : c.mark = "\x7d")
    (hmany : eval grammar (.many ν) (ts ++ c :: us) = some (ms, c :: us)) :
    (∀ stance, (Policy.mk stance .bar).Bars .base (a :: (ts ++ c :: us))) ∧
      ∃ m', eval grammar (.var v) (H.map (Token.move f) ++ a :: (ts ++ c :: us)) = some ([m'], us) ∧
        m'.kind = kind ∧ m'.Houses ms := by
  have hbars (stance : Stance) : (Policy.mk stance .bar).Bars .base (a :: (ts ++ c :: us)) :=
    bars_of_mark (ha ▸ rfl)
  have hbs := eval_membersIn hready (isPiece_of_mark ha (by decide)) (isPiece_of_mark hc (by decide)) hmany
  obtain ⟨m', hm', hkind, hchild⟩ := h.rebuilds f _ _ us hsteady (hbars .bar) ((hin _).trans hbs)
  exact ⟨hbars, m', hm', hkind, houses_of_membersIn hbk hchild⟩

/-- A declaration whose body holds members. -/
theorem kept_of_membersIn {μ : Rule Variable} {v : Variable} {kw : String} {kind bk : Kind}
    {body ν last last' : Rule Variable} {front back front' back' : List (Rule Variable)} {m : Tree} {X : List Token}
    (hbody : HasBody v kw kind body bk)
    (hin : ∀ us, eval grammar body us = eval grammar (membersIn bk ν) us)
    (hready : (membersIn bk ν).Ready known cost) (hkind : kind.declares = true) (hbk : bk ≠ .enumBody)
    (hμ : Hosts μ front' back' last') (hν : Hosts ν front back last) (hhost : ν ∈ memberRules)
    (hinner : ∀ us : List Token, us.length < (X ++ rest).length → Sane us → Keeps ν us)
    (hsane : Sane (X ++ rest)) (hsegment : Segment μ X m)
    (heval : eval grammar (.var v) (X ++ rest) = some ([m], rest)) : Kept μ X m := by
  obtain ⟨H, mid, m', b, hm, hts, -, hb, hopened⟩ := hbody.exists_opened heval hsane
  cases hm
  rw [hin] at hb
  obtain ⟨a, c, ms, us, rfl, ha, hmany, hc, hbs⟩ := exists_of_membersIn hready hb
  cases hbs
  have hsane_mid : Sane (a :: us) := (hts ▸ hsane).of_append.2
  have hsane_us : Sane us := fun t ht => hsane_mid t (List.mem_cons_of_mem a ht)
  have hlength : us.length < (X ++ rest).length := by
    rw [hts, List.length_append, List.length_cons]
    omega
  obtain ⟨l, rfl, rfl, hmembers⟩ := exists_of_many (P := Kept ν) hready.inner.right.left
    (fun vs xs rest hvs hsane => hinner vs (Nat.lt_of_le_of_lt hvs hlength) hsane xs rest) hsane_us hmany
  have ha_mark : a.mark = "\x7b" := mark_of_isPiece ha (hsane_mid a List.mem_cons_self) (by decide)
  have hc_mark : c.mark = "\x7d" := mark_of_isPiece hc (hsane_us c (by simp)) (by decide)
  have hX : X = H ++ [a] ++ (l.map Prod.fst).flatten ++ [c] := by
    refine List.append_cancel_right (hts.trans ?_)
    simp
  have hclass : m.isClassLike = true := by rwa [Tree.isClassLike_eq, hopened.kind_eq]
  refine .declaration (ν := ν) hsegment hclass hX hc_mark (houses_of_membersIn hbk hopened.child) hmembers
    ⟨hhost, ⟨a, by simp, by rw [ha_mark]; decide⟩, fun f c ts us ms hsteady hc hmany => ?_⟩ fun _ => ⟨H, ?_⟩
  · obtain ⟨hbars, m', hm', hkind, hhouses⟩ := hopened.exists_rebuilt hin hready hbk (a := a.move f)
      hsteady.of_append.1 ha_mark hc hmany
    refine ⟨m', ?_, hkind.trans hopened.kind_eq.symm, hhouses⟩
    rw [List.map_append, List.append_assoc]
    exact hμ.eval_of_keyword hbody.keyword hopened.header hsteady.of_append.1 hbars hm'
  · have hprefix : H ++ [a] <+: X := by
      rw [hX, List.append_assoc (H ++ [a])]
      exact List.prefix_append ..
    refine ⟨hready.inner.right.left, ⟨a, _, hprefix, ha_mark, hopened.child, rfl⟩,
      hopened.header.ne_nil, fun c us hc => hν.eval_eq_none_of_close hc,
      fun f a c ts us ms hsteady ha hc hmany => ?_⟩
    obtain ⟨hbars, m', hm', -⟩ := hopened.exists_rebuilt hin hready hbk hsteady ha hc hmany
    exact ⟨[m'], hosts_declaration.eval_of_keyword hbody.keyword hopened.header hsteady hbars hm'⟩

/-! ## Enumerations -/

/-- The constants of an enumeration and a comma. -/
def constantPart : Rule Variable := .seq constants (opt (tok ","))

theorem ready_enumBody : enumBody.Ready known cost := by decide

theorem ready_constantPart : constantPart.Ready known cost := by decide

/-- A match of the body of an enumeration. -/
theorem exists_of_enumBody {bs : List Tree} (heval : eval grammar enumBody ts = some (bs, rest)) :
    ∃ a us hs vs ds c, ts = a :: us ∧ isPiece "\x7b" a = true ∧ eval grammar constantPart us = some (hs, vs) ∧
      eval grammar (opt enumMembers) vs = some (ds, c :: rest) ∧ isPiece "\x7d" c = true ∧
      bs = [wrap .enumBody (leafOf "\x7b" a :: (hs ++ (ds ++ [leafOf "\x7d" c])))] := by
  have hready := ready_enumBody.inner
  obtain ⟨ys, hys, rfl⟩ := eq_singleton_of_node paced ready_enumBody heval
  obtain ⟨os, zs₁, us, hopen, hzs₁, rfl⟩ := exists_of_seq paced hready hys
  obtain ⟨cs, zs₂, vs, hconstants, hzs₂, rfl⟩ := exists_of_seq paced hready.right hzs₁
  obtain ⟨ks, zs₃, ws, hcomma, hzs₃, rfl⟩ := exists_of_seq paced hready.right.right hzs₂
  obtain ⟨ds, es, ws', hmembers, hclose, rfl⟩ := exists_of_seq paced hready.right.right.right hzs₃
  obtain ⟨a, rfl, ha, rfl⟩ := eval_tok_eq_some hopen
  obtain ⟨c, rfl, hc, rfl⟩ := eval_tok_eq_some hclose
  have hpart : eval grammar constantPart us = some (cs ++ ks, ws) := by
    rw [constantPart, eval_seq paced ready_constantPart, hconstants, Option.bind_some, hcomma]
    rfl
  exact ⟨a, us, cs ++ ks, ws, ds, c, rfl, ha, hpart, hmembers, hc, by simp⟩

theorem eval_enumBody {a c : Token} {vs : List Token} {hs ds : List Tree} (ha : isPiece "\x7b" a = true)
    (hc : isPiece "\x7d" c = true) (hpart : eval grammar constantPart us = some (hs, vs))
    (hmembers : eval grammar (opt enumMembers) vs = some (ds, c :: rest)) : eval grammar enumBody (a :: us) =
      some ([wrap .enumBody (leafOf "\x7b" a :: (hs ++ (ds ++ [leafOf "\x7d" c])))], rest) := by
  have hready : (seq (tok "\x7b") (seq constants (seq (opt (tok ",")) (seq (opt enumMembers) (tok "\x7d"))))).Ready
      known cost := ready_enumBody.inner
  obtain ⟨cs, ks, ws, hconstants, hcomma, rfl⟩ := exists_of_seq paced ready_constantPart hpart
  have hall : eval grammar (seq (tok "\x7b") (seq constants (seq (opt (tok ",")) (seq (opt enumMembers) (tok "\x7d")))))
      (a :: us) = some ([leafOf "\x7b" a] ++ (cs ++ (ks ++ (ds ++ [leafOf "\x7d" c]))), rest) := by
    rw [eval_seq paced hready, eval_tok_cons ha, Option.bind_some, eval_seq paced hready.right, hconstants,
      Option.bind_some, eval_seq paced hready.right.right, hcomma, Option.bind_some,
      eval_seq paced hready.right.right.right, hmembers, Option.bind_some, eval_tok_cons hc]
    rfl
  rw [List.append_assoc]
  exact (eval_node paced ready_enumBody).trans (congrArg (Option.map _) hall)

/-- No constant holds members. -/
theorem kind_ne_of_constantPart {vs : List Token} {hs : List Tree} (hsane : Sane us)
    (hpart : eval grammar constantPart us = some (hs, vs)) : ∀ x ∈ hs, x.kind ≠ .enumBodyDeclarations := by
  have hconforms : constantPart.conforms kinds = true := by decide
  have hshapes : ∀ s ∈ constantPart.shapes kinds, s.kind.any (· != .enumBodyDeclarations) = true := by decide
  intro x hx
  obtain ⟨s, hs, hfits⟩ := fits_of_eval hconforms hsane hpart x hx
  obtain ⟨k, hk, hne⟩ := (Option.any_eq_true ..).1 (hshapes s hs)
  rw [hfits.kind k hk]
  exact bne_iff_ne.1 hne

/-- The trees of an enumeration that hold members stand behind its constants. -/
theorem memberContainer?_of_enumBody {m : Tree} {hs ds : List Tree} {a c : Token} (hchild : m.child? .body =
      some ((wrap .enumBody (leafOf "\x7b" a :: (hs ++ (ds ++ [leafOf "\x7d" c])))).withField .body))
    (hhs : ∀ x ∈ hs, x.kind ≠ .enumBodyDeclarations) : m.memberContainer? =
      (ds.filter fun d => d.kind.named).find? fun d => d.kind == .enumBodyDeclarations := by
  have hcontainer : m.memberContainer? = List.find? (fun d => d.kind == .enumBodyDeclarations)
      ((leafOf "\x7b" a :: (hs ++ (ds ++ [leafOf "\x7d" c]))).filter fun d => d.kind.named) := by
    rw [Tree.memberContainer?, hchild]
    rfl
  have hnone : ((hs.filter fun d => d.kind.named).find? fun d => d.kind == .enumBodyDeclarations) = none :=
    List.find?_eq_none.2 fun x hx => by simpa using hhs x (List.mem_of_mem_filter hx)
  have hleaf (s : String) (t : Token) : ((leafOf s t).kind.named) = false := rfl
  rw [hcontainer, List.filter_cons_of_neg (by simp [hleaf]), List.filter_append, List.find?_append, hnone,
    Option.none_or, List.filter_append, List.filter_cons_of_neg (by simp [hleaf]), List.filter_nil, List.append_nil]

theorem ready_optMembers : (opt enumMembers).Ready known cost := by decide

/-- A match of the members of an enumeration, if there are any. -/
theorem exists_of_enumMembers {ds : List Tree} (heval : eval grammar (opt enumMembers) ts = some (ds, rest)) :
    (∃ s us ms, ts = s :: us ∧ isPiece ";" s = true ∧ eval grammar (.many (.var .classMember)) us = some (ms, rest) ∧
      ds = [wrap .enumBodyDeclarations ([leafOf ";" s] ++ ms)]) ∨ ds = [] := by
  have hready := ready_optMembers
  rw [opt, eval_alt paced hready, Option.or_eq_some_iff] at heval
  rcases heval with heval | ⟨-, heval⟩
  · obtain ⟨ys, hys, rfl⟩ := eq_singleton_of_node paced hready.first heval
    obtain ⟨os, ms, us, hsemicolon, hmany, rfl⟩ := exists_of_seq paced hready.first.inner hys
    obtain ⟨s, rfl, hs, rfl⟩ := eval_tok_eq_some hsemicolon
    exact .inl ⟨s, us, ms, rfl, hs, hmany, rfl⟩
  · cases heval
    exact .inr rfl

theorem eval_enumMembers {s : Token} {ms : List Tree} (hs : isPiece ";" s = true)
    (hmany : eval grammar (.many (.var .classMember)) us = some (ms, rest)) :
    eval grammar (opt enumMembers) (s :: us) =
      some ([wrap .enumBodyDeclarations ([leafOf ";" s] ++ ms)], rest) := by
  have hready := ready_optMembers
  have hseq : eval grammar (seq (tok ";") (many (.var .classMember))) (s :: us) =
      some ([leafOf ";" s] ++ ms, rest) := by
    rw [eval_seq paced hready.first.inner, eval_tok_cons hs, Option.bind_some, hmany]
    rfl
  have hfirst : eval grammar enumMembers (s :: us) =
      some ([wrap .enumBodyDeclarations ([leafOf ";" s] ++ ms)], rest) :=
    (eval_node paced hready.first).trans (congrArg (Option.map _) hseq)
  rw [opt, eval_alt paced hready, hfirst, Option.some_or]

theorem houses_of_enumBody {m : Tree} {hs ms : List Tree} {a s c : Token}
    (hhs : ∀ x ∈ hs, x.kind ≠ .enumBodyDeclarations)
    (hchild : m.child? .body = some ((wrap .enumBody (leafOf "\x7b" a ::
      (hs ++ ([wrap .enumBodyDeclarations ([leafOf ";" s] ++ ms)] ++ [leafOf "\x7d" c])))).withField .body)) :
    m.Houses ms := by
  refine ⟨[leafOf ";" s], [], ?_, by simp [leafOf, Tree.kind, Kind.named]⟩
  rw [Tree.interior, memberContainer?_of_enumBody hchild hhs, List.append_nil]
  rfl

/-- The constants in front of a semicolon are matched at other places as before. -/
theorem exists_moved_constants {A : List Token} {s d : Token} {hs : List Tree} {f : Nat → Nat}
    (hpart : eval grammar constantPart (A ++ s :: us) = some (hs, s :: us)) (hsane : Sane (A ++ s :: us))
    (hsteady : Steady f A) (hs_mark : s.mark = ";") (hd_mark : d.mark = ";") (vs : List Token) :
    ∃ hs', eval grammar constantPart (A.map (Token.move f) ++ d :: vs) = some (hs', d :: vs) ∧
      ∀ x ∈ hs', x.kind ≠ .enumBodyDeclarations := by
  have hwalk : constantPart.walk ⟨.bar, .pass⟩ ofClause .base = some .base := by decide
  obtain ⟨A', hA, hlevels⟩ := crosses_of_eval (charts_clause .bar) hpart hwalk hsane
  cases List.append_cancel_right hA
  have hbar (s : Token) (us : List Token) (hs : s.mark = ";") : (Policy.mk .bar .pass).Bars .base (s :: us) :=
    bars_of_mark (hs ▸ rfl)
  have hmoved : ∃ hs', eval grammar constantPart (A.map (Token.move f) ++ d :: vs) = some (hs', d :: vs) ∧
      Moves f hs hs' :=
    eval_moved_eq_some (charts_clause .bar) ready_constantPart hwalk ⟨hlevels, hsteady, hsane.of_append.1⟩
      (hbar _ _ hs_mark) (hbar _ _ hd_mark) hpart
  obtain ⟨hs', hpart', hmoves⟩ := hmoved
  refine ⟨hs', hpart', fun x hx hkind => ?_⟩
  have hmem : Kind.enumBodyDeclarations ∈ hs'.map Tree.kind := hkind ▸ List.mem_map_of_mem hx
  rw [hmoves.kinds] at hmem
  obtain ⟨y, hy, hkind'⟩ := List.mem_map.1 hmem
  exact kind_ne_of_constantPart hsane hpart y hy hkind'

/-- An enumeration with its members. -/
theorem kept_of_enumDeclaration {μ last : Rule Variable} {front back : List (Rule Variable)} {m : Tree} {X : List Token}
    (hμ : Hosts μ front back last)
    (hinner : ∀ us : List Token, us.length < (X ++ rest).length → Sane us →
      Keeps (.var .classMember) us)
    (hsane : Sane (X ++ rest)) (hsegment : Segment μ X m)
    (heval : eval grammar (.var .enumDeclaration) (X ++ rest) = some ([m], rest)) : Kept μ X m := by
  obtain ⟨H, mid, m', b, hm, hts, -, hb, hopened⟩ :=
    hasBody_enumDeclaration.exists_opened heval hsane
  cases hm
  have hsane_mid : Sane mid := (hts ▸ hsane).of_append.2
  obtain ⟨a, us, hs, vs, ds, c, rfl, ha, hpart, hds, hc, hbs⟩ := exists_of_enumBody hb
  cases hbs
  have ha_mark : a.mark = "\x7b" := mark_of_isPiece ha (hsane_mid a List.mem_cons_self) (by decide)
  have hsane_us : Sane us := fun t ht => hsane_mid t (List.mem_cons_of_mem a ht)
  have hhs := kind_ne_of_constantPart hsane_us hpart
  rcases exists_of_enumMembers hds with ⟨s, us', ms, rfl, hs_piece, hmany, rfl⟩ | rfl
  · obtain ⟨A, rfl, -⟩ := (matched_of_eval paced ready_constantPart hpart).taken
    have hsane_vs := hsane_us.of_append.2
    have hs_mark : s.mark = ";" := mark_of_isPiece hs_piece (hsane_vs s List.mem_cons_self) (by decide)
    have hsane_us' : Sane us' := fun t ht => hsane_vs t (List.mem_cons_of_mem s ht)
    have hlength : us'.length < (X ++ rest).length := by
      rw [hts]
      simp only [List.length_append, List.length_cons]
      omega
    obtain ⟨l, rfl, rfl, hkept⟩ := exists_of_many (P := Kept (.var .classMember)) ready_optMembers.first.inner.right
      (fun vs xs rest hvs hsane => hinner vs (Nat.lt_of_le_of_lt hvs hlength) hsane xs rest) hsane_us' hmany
    have hc_mark : c.mark = "\x7d" := mark_of_isPiece hc (hsane_us' c (by simp)) (by decide)
    have hX : X = (H ++ a :: (A ++ [s])) ++ (l.map Prod.fst).flatten ++ [c] := by
      refine List.append_cancel_right (hts.trans ?_)
      simp
    have hclass : m.isClassLike = true := by
      rw [Tree.isClassLike_eq, hopened.kind_eq]
      rfl
    refine .declaration hsegment hclass hX hc_mark (houses_of_enumBody hhs hopened.child) hkept
      ⟨List.mem_cons_self, ⟨s, by rw [← List.cons_append, ← List.append_assoc, List.getLast?_concat]; rfl, by
        rw [hs_mark]; decide⟩, fun f c ts us ms hsteady hc hmany => ?_⟩
      fun hkind => absurd hopened.kind_eq hkind
    obtain ⟨hsteady_H, hsteady_A⟩ := hsteady.of_append
    have hbars (stance : Stance) (ts : List Token) : (Policy.mk stance .bar).Bars .base (a.move f :: ts) :=
      bars_of_mark (t := a.move f) ((show (a.move f).mark = "\x7b" from ha_mark) ▸ rfl)
    obtain ⟨hs', hpart', hhs'⟩ := exists_moved_constants (d := s.move f) hpart hsane_us
      (List.isChain_cons.1 hsteady_A).2.left_of_append hs_mark hs_mark (ts ++ c :: us)
    have hbody := eval_enumBody (a := a.move f) ha (isPiece_of_mark hc (by decide)) hpart'
      (eval_enumMembers (s := s.move f) hs_piece hmany)
    obtain ⟨m', hm', hkind, hchild⟩ := hopened.rebuilds f _ _ us hsteady_H (hbars .bar _) hbody
    refine ⟨m', ?_, hkind.trans hopened.kind_eq.symm, houses_of_enumBody hhs' hchild⟩
    have heval' := hμ.eval_of_keyword rfl hopened.header hsteady_H (fun stance => hbars stance _) hm'
    simpa using heval'
  · refine .plain hsegment fun _ => ?_
    rw [Tree.members, memberContainer?_of_enumBody hopened.child hhs]
    rfl

/-- Every member is kept. The induction is on the number of tokens, since the members of a declaration
are shorter than the declaration. -/
theorem Hosts.keeps {μ last : Rule Variable} {front back : List (Rule Variable)}
    (h : Hosts μ front back last) (hsane : Sane ts) : Keeps μ ts := by
  induction hlength : ts.length using Nat.strong_induction_on generalizing ts μ front back last with
  | _ n ih =>
    subst hlength
    obtain ⟨front₁, back₁, last₁, hclass⟩ := hosts_classMember
    obtain ⟨front₂, back₂, last₂, hinterface⟩ := hosts_interfaceMember
    have hinner_class (us : List Token) (hus : us.length < ts.length) (hsane : Sane us) :
        Keeps (.var .classMember) us := ih us.length hus hclass hsane rfl
    have hinner_interface (us : List Token) (hus : us.length < ts.length) (hsane : Sane us) :
        Keeps interfaceMember us := ih us.length hus hinterface hsane rfl
    have hclassBody (us : List Token) : eval grammar (.var .classBody) us =
        eval grammar (membersIn .classBody (.var .classMember)) us := eval_var paced (ready_var (by decide))
    have hready_class : (membersIn .classBody (.var .classMember)).Ready known cost := by decide
    have hready_interface : (membersIn .interfaceBody interfaceMember).Ready known cost := by
      decide
    intro xs rest heval
    obtain ⟨m, X, rfl, rfl, hsegment, r, hr, hr_eval⟩ := h.exists_segment heval hsane
    refine ⟨m, X, rfl, rfl, ?_⟩
    have plain (hother : givesOther r = true) : Kept μ X m := by
      obtain ⟨hconforms, hshapes⟩ := Bool.and_eq_true_iff.1 hother
      obtain ⟨s, hs, hfits⟩ := fits_of_eval hconforms hsane hr_eval m List.mem_cons_self
      obtain ⟨k, hk, hnot⟩ := (Option.any_eq_true ..).1 (List.all_eq_true.1 hshapes s hs)
      refine .plain hsegment fun hclass => ?_
      rw [Tree.isClassLike_eq, hfits.kind k hk] at hclass
      rw [hclass] at hnot
      cases hnot
    have hothers := h.others r
    simp only [List.mem_append] at hr hothers
    rcases hr with ((hr | hr) | hr) | hr
    · exact plain (hothers (.inl (.inl hr)))
    · obtain ⟨v, hv, rfl⟩ := List.mem_map.1 hr
      simp only [keyed, List.mem_cons, List.not_mem_nil, or_false] at hv
      rcases hv with rfl | rfl | rfl | rfl | rfl
      · exact kept_of_membersIn hasBody_classDeclaration hclassBody hready_class rfl (by decide) h hclass
          List.mem_cons_self hinner_class hsane hsegment hr_eval
      · exact kept_of_membersIn hasBody_interfaceDeclaration (fun _ => rfl) hready_interface rfl (by decide) h
          hinterface (List.mem_cons_of_mem _ List.mem_cons_self) hinner_interface hsane hsegment hr_eval
      · exact kept_of_enumDeclaration h hinner_class hsane hsegment hr_eval
      · exact kept_of_membersIn hasBody_recordDeclaration hclassBody hready_class rfl (by decide) h hclass
          List.mem_cons_self hinner_class hsane hsegment hr_eval
      · exact plain (by decide)
    · exact plain (hothers (.inl (.inr hr)))
    · exact plain (hothers (.inr hr))

end Grammar

end Testwright.Java
