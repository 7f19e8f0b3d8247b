import Testwright.Java.Decision
import Testwright.Proofs.Java.Openings

/-!
# Methods without bodies in a class of their own

The header of a method with a semicolon behind it, alone in a class, declares a method without a body that has the
same signature (`Opening.declaresAlone`): the header is read as its tokens, moved, and what is made of them is the
same as before, moved, with the same comments inside. A node keeps its text with its place (`Carried`), and so a
signature is the same if it is read off moved parts (`signature?_eq_of_carried`).
-/

namespace Testwright.Java

open Grammar Rule Token

/-! ## Nodes with the same text -/

namespace Tree

variable {source source' u back back' : List Char} {f : Nat → Nat} {p p' i j : Nat} {t t' : Tree}

theorem slice_eq_of_drop (hdrop : source.drop p = u ++ back) (hi : p ≤ i) (hj : j ≤ p + u.length) :
    slice source i j = slice u (i - p) (j - p) := by
  have hlength : j - i ≤ (u.drop (i - p)).length := by
    rw [List.length_drop]
    omega
  rw [slice, ← Nat.add_sub_cancel' hi, ← List.drop_drop, hdrop, List.drop_append, Nat.add_sub_cancel' hi,
    List.take_append_of_le_length hlength, slice, Nat.sub_sub_sub_cancel_right hi]

/-- The nodes of a tree have the same text at another place of another source. -/
def Carried (source source' : List Char) (f : Nat → Nat) (t : Tree) : Prop :=
  t.Forall fun u => (u.move f).chars source' = u.chars source

/-- A tree is carried with the text that it lies in. -/
theorem WellNested.carried (h : t.WellNested) (hstart : p ≤ t.start) (hstop : t.stop ≤ p + u.length)
    (hdrop : source.drop p = u ++ back) (hdrop' : source'.drop p' = u ++ back') :
    t.Carried source source' fun q => q - p + p' := by
  refine (forall_within h hstart hstop).imp fun v hv => ?_
  rw [chars, start_move, stop_move, slice_eq_of_drop hdrop' (by omega) (by omega), chars,
    slice_eq_of_drop hdrop hv.1 hv.2.2]
  simp

namespace Carried

theorem squeezed (h : t.Carried source source' f) : (t.move f).squeezed source' = t.squeezed source := by
  rw [Tree.squeezed, h.self, Tree.squeezed]

theorem squeezed_child (h : t.Carried source source' f) {v : Tree} (hv : v ∈ t.children) :
    (v.move f).squeezed source' = v.squeezed source :=
  Carried.squeezed (h.of_mem hv)

theorem parameterType? (h : t.Carried source source' f) :
    (t.move f).parameterType? source' = t.parameterType? source := by
  have part (part : Field) : ((t.move f).child? part).map (Tree.squeezed source') =
      (t.child? part).map (Tree.squeezed source) := by
    rw [child?_move, Option.map_map]
    exact Option.map_congr fun v hv => h.squeezed_child (List.mem_of_find?_eq_some hv)
  unfold Tree.parameterType?
  rw [kind_move]
  split
  · rw [part .dimensions, child?_move, Option.map_map]
    exact Option.map_congr fun v hv =>
      congrArg (· ++ _) (h.squeezed_child (List.mem_of_find?_eq_some hv))
  · rw [spreadType?, namedChildren_move, List.find?_map, Option.map_map]
    simp only [Function.comp_def, kind_move]
    refine Option.map_congr fun v hv => congrArg (· ++ _) (h.squeezed_child ?_)
    exact (List.mem_filter.1 (List.mem_of_find?_eq_some hv)).1
  · rfl

end Carried

/-- A signature is that of the name and the parameters, wherever they stand. -/
theorem signature?_eq_of_carried (hpart : ∀ part, part = .name ∨ part = .parameters →
    t'.child? part = (t.child? part).map (move f) ∧ ∀ v ∈ t.child? part, v.Carried source source' f) :
    t'.signature? source' = t.signature? source := by
  obtain ⟨hname, hname_carried⟩ := hpart .name (.inl rfl)
  obtain ⟨hparameters, hcarried⟩ := hpart .parameters (.inr rfl)
  have htypes : t'.parameterTypes source' = t.parameterTypes source := by
    unfold parameterTypes
    rw [hparameters]
    cases hchild : t.child? .parameters with
    | none => rfl
    | some v =>
      simp only [Option.map_some, namedChildren_move, List.filterMap_map]
      refine List.filterMap_congr fun w hw => Carried.parameterType? ?_
      exact (hcarried v hchild).of_mem (List.mem_filter.1 hw).1
  rw [signature?, hname, Option.map_map, signature?]
  refine Option.map_congr fun v hv => ?_
  show text source' (v.move f) ++ _ ++ _ ++ _ = _
  rw [text, (hname_carried v hv).self, htypes, text]

end Tree

/-! ## A class with one member -/

/-- What stands in front of the members of a class. -/
def shellFront : List Char := "class __Wrapper__ \x7b\n".toList

/-- A text as the only member of a class. -/
def inClass (member : List Char) : List Char := shellFront ++ (member ++ ['\n', '\x7d', '\n'])

/-- A text declares one class with one member, a method that has a signature and no body. -/
def DeclaresAlone (source : List Char) (signature : String) : Prop :=
  ∃ root d m, parse? source = some root ∧ root.declarations = [d] ∧ d.decl.members = [m] ∧
    m.kind = .methodDeclaration ∧ m.child? .body = none ∧ m.signature? source = some signature

open Tree

variable {source u x : List Char} {cs : List Tree} {m t : Tree} {c : Token} {n : Nat}

theorem length_shellFront : shellFront.length = 20 := by decide

theorem reads_shellFront : Reads x 0 shellFront (shellWords ++ [shellBrace]) := by
  have h : tokensFrom? 0 shellFront 32 = some (shellWords ++ [shellBrace]) := by decide
  have hmoved : Reads x 0 shellFront ((shellWords ++ [shellBrace]).map (Token.move id)) :=
    (reads_of_tokensFrom? h).move_mark ⟨shellBrace, rfl, by decide⟩ fun k => rfl
  rwa [map_move_id] at hmoved

/-- The braces of the class with the members between them. -/
def shellBody (ms : List Tree) (c : Token) : Tree :=
  .node .classBody (some .body) 18 c.stop (leafOf "\x7b" shellBrace :: (ms ++ [leafOf "\x7d" c]))

theorem shell_eq (ms : List Tree) (c : Token) :
    shell ms c = .node .classDeclaration none 0 c.stop (shellLeaves ++ [shellBody ms c]) := by
  have hstop : (wrap .classBody (leafOf "\x7b" shellBrace :: (ms ++ [leafOf "\x7d" c]))).stop = c.stop := by
    show ((leafOf "\x7b" shellBrace :: (ms ++ [leafOf "\x7d" c])).getLast?.map Tree.stop).getD 0 = c.stop
    rw [← List.cons_append, List.getLast?_concat]
    rfl
  rw [shellBody, ← hstop]
  rfl

/-- A comment inside of the member of a class is put into the member. -/
theorem insertInto_shell {d : Tree} (hd : m.Spans d.start) (hm : 19 ≤ m.start) (hc : m.stop ≤ c.stop) :
    insertInto d (.node .program none 0 n [shell [m] c]) = .node .program none 0 n [shell [insertInto d m] c] := by
  have hplace : 19 < d.start ∧ d.start < c.stop := ⟨Nat.lt_of_le_of_lt hm hd.1, Nat.lt_of_lt_of_le hd.2 hc⟩
  have hbody : insertInto d (shellBody [m] c) = shellBody [insertInto d m] c := by
    refine congrArg (Tree.node _ _ _ _) (insertAmong_of_spans [_] _ (List.forall_mem_singleton.2 ?_) hd)
    exact Nat.le_of_lt hplace.1
  have hclass : insertInto d (shell [m] c) = shell [insertInto d m] c := by
    rw [shell_eq, shell_eq, ← hbody]
    refine congrArg (Tree.node _ _ _ _) (insertAmong_of_spans shellLeaves [] ?_ ⟨?_, hplace.2⟩)
    · refine List.forall_mem_cons.2 ⟨?_, List.forall_mem_singleton.2 ?_⟩
      · show 5 ≤ d.start
        omega
      · show 17 ≤ d.start
        omega
    · show 18 < d.start
      omega
  rw [← hclass]
  refine congrArg (Tree.node _ _ _ _) (insertAmong_of_spans [] [] nofun ?_)
  rw [shell_eq]
  exact ⟨Nat.zero_lt_of_lt hplace.1, hplace.2⟩

/-- So are all comments that it spans. -/
theorem foldl_insertInto_shell (hcs : ∀ d ∈ cs, m.Spans d.start) (hm : 19 ≤ m.start) (hc : m.stop ≤ c.stop) :
    cs.foldl (fun t d => insertInto d t) (.node .program none 0 n [shell [m] c]) =
      .node .program none 0 n [shell [dressAll cs m] c] := by
  induction cs generalizing m with
  | nil => rfl
  | cons d cs ih =>
    obtain ⟨hd, hcs⟩ := List.forall_mem_cons.1 hcs
    rw [List.foldl_cons, insertInto_shell hd hm hc, ← dress_of_spans hd,
      ih (fun e he => ?_) (by rwa [start_dress]) (by rwa [stop_dress])]
    · rfl
    · rw [Spans, start_dress, stop_dress]
      exact hcs e he

theorem interior_shell (m : Tree) (c : Token) :
    (shell [m] c).interior = [leafOf "\x7b" shellBrace, m, leafOf "\x7d" c] := by
  rw [shell_eq]
  rfl

/-- A class with a method declares itself. -/
theorem declarations_shell (hm : m.kind = .methodDeclaration) :
    (Tree.node .program none 0 n [shell [m] c]).declarations = [⟨[], shell [m] c⟩] := by
  have hclass : m.isClassLike = false := by
    rw [isClassLike_eq, hm]
    rfl
  have hleaf (s : String) (t : Token) : (leafOf s t).isClassLike = false := rfl
  have hshell : (shell [m] c).isClassLike = true := rfl
  simp [declarations, Tree.children, declaredAmong_eq_flatMap, declaredAt_eq, interior_shell, hclass, hleaf, hshell]

theorem members_shell (hm : m.kind = .methodDeclaration) : (shell [m] c).members = [m] := by
  have hleaf (s : String) (t : Token) : (leafOf s t).kind.named = false := rfl
  have hnamed : m.kind.named = true := by
    rw [hm]
    rfl
  simp [members_eq, interior_shell, hleaf, hnamed]

/-! ## A header in a class -/

namespace Opening

variable (o : Opening source t)

/-- Where the text of a header stands in a class. -/
def place (_ : Opening source t) (q : Nat) : Nat := q - t.start + 20

/-- The semicolon behind the header. -/
def semicolon : Token := ⟨.symbol, ";", 20 + o.text.length, 20 + o.text.length + 1⟩

/-- The brace behind the member. -/
def close : Token := ⟨.symbol, "\x7d", 20 + o.text.length + 2, 20 + o.text.length + 3⟩

/-- What the grammar makes of the header and the semicolon. -/
def bare : Tree := o.shorn o.place o.semicolon

/-- The method in the class, with the comments of its header. -/
def alone : Tree := dressAll ((remarks o.header).map (Tree.move o.place)) o.bare

/-- The text of the class. -/
def wrapped : List Char := inClass (o.text ++ [';'])

def wrappedTokens : List Token :=
  shellWords ++ [shellBrace] ++ (o.header.map (Token.move o.place) ++ ([o.semicolon] ++ [o.close]))

theorem code_wrappedTokens : code o.wrappedTokens =
    shellWords ++ shellBrace :: ((code o.header).map (Token.move o.place) ++ o.semicolon :: [o.close]) := by
  rw [wrappedTokens, code_append, code_append, code_append, code_map_move]
  rfl

theorem remarks_wrappedTokens : remarks o.wrappedTokens = (remarks o.header).map (Tree.move o.place) := by
  rw [wrappedTokens, remarks_append, remarks_append, remarks_append, remarks_map_move]
  exact List.append_nil _

theorem drop_wrapped : o.wrapped.drop 20 = o.text ++ [';', '\n', '\x7d', '\n'] := by
  rw [wrapped, inClass, List.drop_left' length_shellFront, List.append_assoc]
  rfl

theorem tokens?_wrapped (hopen : t.hasOpenBrief source = false) : tokens? o.wrapped = some o.wrappedTokens := by
  have hheader : Reads ([';'] ++ ['\n', '\x7d', '\n'] ++ []) 20 o.text (o.header.map (Token.move o.place)) :=
    o.reads.move (o.rest.stopped o.ends.mark_mem) (.cons (by decide)) (.inl (o.last_ne hopen)) fun k => by
      show t.start + k - t.start + 20 = 20 + k
      omega
  have hsemicolon : Reads (['\n', '\x7d', '\n'] ++ []) (20 + o.text.length) [';'] [o.semicolon] :=
    .mark [] [] (by decide) nofun nofun
  have hclose : Reads [] (20 + o.text.length + 1) ['\n', '\x7d', '\n'] [o.close] :=
    .mark ['\n'] ['\n'] (by decide) (by simp [isSpace]) (by simp [isSpace])
  refine tokens?_of_reads ?_
  rw [wrapped, inClass, List.append_assoc]
  refine reads_shellFront.append ?_
  rw [length_shellFront, Nat.zero_add]
  exact hheader.append (hsemicolon.append hclose)

theorem eval_wrapped : eval grammar (.many element) (code o.wrappedTokens) = some ([shell [o.bare] o.close], []) := by
  have hready : (many (.var .classMember) : Rule Variable).Ready known cost := by decide
  obtain ⟨front, back, last, hosts⟩ := hosts_classMember
  have hsteady : Steady o.place (code o.header) :=
    steady_move 20 fun a ha => o.reads.places a (List.mem_of_mem_filter ha)
  have heval : eval grammar (.var .classMember) _ = some ([o.bare], [o.close]) :=
    o.eval_shorn List.mem_cons_self [o.close] hsteady rfl
  have hmembers : eval grammar (.many (.var .classMember))
      ((code o.header).map (Token.move o.place) ++ o.semicolon :: [o.close]) = some ([o.bare], [o.close]) := by
    have hnone : eval grammar (.many (.var .classMember)) [o.close] = some ([], [o.close]) := by
      rw [eval_many paced hready, hosts.eval_eq_none_of_close rfl]
    rw [eval_many paced hready, heval]
    exact congrArg (Option.map (andThen _)) hnone
  rw [code_wrappedTokens, eval_many paced ready_elements, eval_shell rfl hmembers]
  exact congrArg (Option.map (andThen _)) eval_elements_nil

theorem bare_start : o.bare.start = 20 := by
  obtain ⟨x, xs, hnodes⟩ := List.exists_cons_of_ne_nil o.stub.gives
  have hstart : x.start = t.start := by
    rw [← start_stripped t, o.stripped, hnodes]
    rfl
  rw [bare, shorn, hnodes]
  show (x.move o.place).start = 20
  rw [start_move, place, hstart, Nat.sub_self]

theorem bare_stop : o.bare.stop = 20 + o.text.length + 1 := by
  rw [bare, shorn, stop_wrap (by simp), List.getLast_append_singleton]
  rfl

theorem start_of_mem_remarks {c : Tree} (hc : c ∈ remarks o.header) :
    t.start < c.start ∧ c.stop ≤ t.start + o.text.length ∧ c.start < c.stop := by
  obtain ⟨a, ha, hcomment, hstart, hstop, -⟩ := exists_of_mem_remarks hc
  obtain ⟨b, hb, hfirst, hcode⟩ := o.first
  obtain ⟨B, hB⟩ := List.head?_eq_some_iff.1 hb
  obtain ⟨-, hplaced, -⟩ := o.placed.of_append
  obtain ⟨hplaced, -, -⟩ := hplaced.of_append
  have hinside := o.reads.inside a ha
  have hfirm := (hplaced.firm a ha).nonempty
  have hfirm' := (hplaced.firm b (List.mem_of_mem_head? hb)).nonempty
  have hordered := hplaced.ordered
  rw [hB] at ha hordered
  rcases List.mem_cons.1 ha with rfl | ha
  · rw [hcode] at hcomment
    cases hcomment
  · have := (List.pairwise_cons.1 hordered).1 a ha
    omega

theorem parse?_wrapped (hopen : t.hasOpenBrief source = false) : parse? o.wrapped =
    some (.node .program none 0 o.wrapped.length [shell [o.alone] o.close]) := by
  have hcomments : ∀ c ∈ remarks o.wrappedTokens, o.bare.Spans c.start := by
    intro c hc
    rw [remarks_wrappedTokens] at hc
    obtain ⟨d, hd, rfl⟩ := List.mem_map.1 hc
    obtain ⟨hstart, hstop, hlt⟩ := o.start_of_mem_remarks hd
    rw [Spans, o.bare_start, o.bare_stop, start_move, place]
    omega
  rw [parse?_of_eval (o.tokens?_wrapped hopen) o.eval_wrapped, alone, ← remarks_wrappedTokens,
    ← foldl_insertInto_shell hcomments, remarks, List.foldl_map]
  · rw [o.bare_start]
    decide
  · rw [o.bare_stop]
    exact Nat.add_le_add_left (by decide) _

@[simp] theorem kind_alone : o.alone.kind = .methodDeclaration :=
  List.foldlRecOn (motive := fun u : Tree => u.kind = .methodDeclaration) _ _ rfl fun _ hu c _ =>
    (kind_dress c _).trans hu

theorem rises_place : Rises o.place t.start := fun a b ha hb => by
  unfold place
  omega

section
variable (hopen : t.hasOpenBrief source = false)
include hopen

theorem stripped_alone : o.alone.stripped = o.bare := by
  obtain ⟨ts, xs, htokens, heval, hchildren⟩ := parse?_eval (o.parse?_wrapped hopen)
  cases (o.tokens?_wrapped hopen).symm.trans htokens
  cases o.eval_wrapped.symm.trans heval
  have hnote : o.alone.isNote = false := isNote_of_kind (by rw [kind_alone]; rfl)
  have hshell : (shell [o.alone] o.close).stripped = shell [o.bare] o.close := by
    have hnote : (shell [o.alone] o.close).isNote = false := rfl
    rw [children_stripped] at hchildren
    change ([shell [o.alone] o.close].filter fun t => !t.isNote).map Tree.stripped = _ at hchildren
    simpa [hnote] using hchildren
  have hmembers := members_stripped (shell [o.alone] o.close)
  rw [hshell, members_shell rfl, members_shell o.kind_alone] at hmembers
  simpa [hnote] using hmembers.symm

theorem child?_alone (part : Field) : o.alone.child? part = (o.nodes.find? fun c => c.field == some part).map fun x =>
    (dressAll (remarks o.header) x).move o.place := by
  have hdressed : o.alone.Forall (Dressed (remarks o.wrappedTokens)) := by
    refine forall_members (d := ⟨[], shell [o.alone] o.close⟩)
      (parse?_dressed (o.parse?_wrapped hopen) (o.tokens?_wrapped hopen)) ?_ ?_
    · rw [declarations_shell o.kind_alone]
      exact List.mem_singleton_self _
    · rw [members_shell o.kind_alone]
      exact List.mem_singleton_self _
  rw [child?_of_dressed hdressed, o.stripped_alone hopen, bare, o.child?_shorn, Option.map_map, remarks_wrappedTokens]
  refine Option.map_congr fun x hx => ?_
  obtain ⟨hstart, -, hnested⟩ := o.nested.1.of_mem (List.mem_of_find?_eq_some hx)
  refine (dressAll_move o.rises_place (fun c hc => ?_) ?_).symm
  · obtain ⟨hlt, hstop, hle⟩ := o.start_of_mem_remarks hc
    obtain ⟨a, -, -, hstart, -, hleaf⟩ := exists_of_mem_remarks hc
    refine Forall.iff.2 ⟨by omega, ?_⟩
    rw [hleaf]
    nofun
  · exact (forall_within hnested hstart (Nat.le_refl _)).imp fun u hu => ⟨hu.1, Nat.le_trans hu.1 hu.2.1⟩

theorem signature?_alone : o.alone.signature? o.wrapped = t.signature? source := by
  refine signature?_eq_of_carried (f := o.place) fun part hpart => ?_
  have hbody : part ≠ .body := by
    rintro rfl
    rcases hpart with hpart | hpart <;> cases hpart
  refine ⟨?_, fun v hv => ?_⟩
  · rw [o.child?_alone hopen, o.child?_eq hbody, Option.map_map]
    rfl
  · obtain ⟨hstart, -, hnested⟩ := (wellNested_iff.1 o.wellNested).2.of_mem (List.mem_of_find?_eq_some hv)
    refine hnested.carried hstart ?_ o.drop o.drop_wrapped
    rw [o.child?_eq hbody, Option.mem_def, Option.map_eq_some_iff] at hv
    obtain ⟨x, hx, rfl⟩ := hv
    rw [stop_dressAll]
    exact (o.nested.1.of_mem (List.mem_of_find?_eq_some hx)).2.1

end

end Opening

variable {root : Tree} {d : Declared} {signature : String}

/-- **Methods without bodies.** The header of a method with a semicolon behind it, alone in a class, declares a
method without a body that has the same signature. -/
theorem declaresAlone_brief (h : parse? source = some root) (hd : d ∈ root.declarations) (ht : t ∈ d.decl.members)
    (hkind : t.kind = .methodDeclaration) (hopen : t.hasOpenBrief source = false)
    (hsignature : t.signature? source = some signature) :
    DeclaresAlone (inClass (t.brief source).toList) signature := by
  obtain ⟨o⟩ := exists_opening h hd ht hkind
  have hbrief : (t.brief source).toList = o.text ++ [';'] := by
    rw [brief, o.header_eq hopen, String.toList_ofList]
  have hbody : o.alone.child? .body = none := by
    rw [o.child?_alone hopen, o.find?_body]
    rfl
  rw [hbrief]
  exact ⟨_, _, o.alone, o.parse?_wrapped hopen, declarations_shell o.kind_alone, members_shell o.kind_alone,
    o.kind_alone, hbody, (o.signature?_alone hopen).trans hsignature⟩

end Testwright.Java
