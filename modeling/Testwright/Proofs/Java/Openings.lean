import Testwright.Proofs.Java.Dressing
import Testwright.Proofs.Java.Excerpts
import Testwright.Proofs.Java.Stubs
import Testwright.Proofs.Project.Recording

/-!
# Headers of methods

Every method of a text begins with a header of its own tokens, comments between them included, in front of the
brace of its body or of its semicolon (`exists_opening`). Unless the header ends in a line comment, it is what the
index takes for the text of the method without its body (`Opening.header_eq`). The name and the parameters lie in
the header, so comments elsewhere have no part in them (`Opening.child?_eq`).
-/

namespace Testwright.Java

namespace Tree

/-- Where the header of a method ends at the latest: at its body or its semicolon. -/
def headerEnd (decl : Tree) : Nat :=
  match decl.child? .body with
  | some body => body.start
  | none => decl.stop - 1

/-- Whether the header of a method ends in a line comment, which takes in what is put behind it. -/
def hasOpenBrief (source : List Char) (decl : Tree) : Bool :=
  match tokens? source with
  | some ts => (ts.takeWhile fun t => t.stop ≤ decl.headerEnd).getLast?.any fun t => t.lexeme == .comment .lineComment
  | none => false

end Tree

open Grammar Rule Token Tree

/-- The header of a method in a text: its tokens, comments included, in front of a brace or semicolon, what the
grammar makes of both, and its text; behind it, the tokens of the body. -/
structure Opening (source : List Char) (t : Tree) where
  {before header body behind : List Token}
  {mark : Token}
  {nodes ending : List Tree}
  {text back : List Char}
  tokens : tokens? source = some (before ++ (header ++ mark :: (body ++ behind)))
  stripped : t.stripped = wrap .methodDeclaration (nodes ++ ending)
  stub : Stub (code header) nodes
  ends : Ending mark ending
  first : ∃ b ∈ header.head?, b.start = t.start ∧ b.isComment = false
  final : ∃ b ∈ (mark :: body).getLast?, b.stop = t.stop
  drop : source.drop t.start = text ++ back
  reads : Reads back t.start text header
  rest : Reads [] (t.start + text.length) back (mark :: (body ++ behind))
  last : ∀ b ∈ header.getLast?, b.stop = t.start + text.length
  neat : (∀ b ∈ header.getLast?, b.lexeme ≠ .comment .lineComment) → Neat text
  wellNested : t.WellNested
  dressed : t.Forall (Dressed (remarks (before ++ (header ++ mark :: (body ++ behind)))))

variable {source : List Char} {root t : Tree} {d : Declared}

/-- The tokens of a method begin with its header. -/
theorem exists_opening_of_segment {all P Y Q : List Token} {ν : Rule Variable} (htokens : tokens? source = some all)
    (hY : Segment ν Y t.stripped) (hcode : code all = P ++ (Y ++ Q)) (hkind : t.kind = .methodDeclaration)
    (hnested : t.WellNested) (hdressed : t.Forall (Dressed (remarks all))) :
    ∃ o : Opening source t, code o.before = P ∧ Y = code o.header ++ o.mark :: code o.body ∧ code o.behind = Q := by
  have hsub : ∀ a ∈ Y, a ∈ all := fun a ha => List.mem_of_mem_filter (hcode.symm ▸ by simp [ha] : a ∈ code all)
  obtain ⟨H, e, E, hs, es, rfl, hstripped, hstub, hending⟩ :=
    exists_stub (fun a ha => sane_of_tokens? htokens a (hsub a ha)) (hY.method (by rwa [kind_stripped]))
  obtain ⟨A, B, C, rfl, rfl, hB, rfl, hhead, hlast⟩ := exists_of_code hcode (by simp)
  obtain ⟨B, E', rfl, rfl, he, rfl⟩ := exists_of_code_cons hB
  rw [List.head?_append_of_ne_nil _ hstub.nonempty] at hhead
  obtain ⟨b, B, rfl⟩ := List.exists_cons_of_ne_nil (l := B) fun hnil => hstub.nonempty (by rw [hnil]; rfl)
  rw [show A ++ (b :: B ++ e :: E' ++ C) = A ++ (b :: B ++ e :: (E' ++ C)) by simp] at htokens hdressed
  obtain ⟨u, back, hdrop, hreads, hrest, hend, hneat⟩ := exists_excerpt htokens
  obtain ⟨a, ha, hstart⟩ := hY.spanned.start
  rw [List.head?_append_of_ne_nil _ hstub.nonempty, ← hhead] at ha
  cases ha
  rw [start_stripped] at hstart
  rw [hstart] at hdrop hreads hrest hend
  obtain ⟨z, hz, hstop⟩ := hY.spanned.stop
  rw [← hlast, List.getLast?_append_cons] at hz
  have hcomment : b.isComment = false := by simpa using (List.mem_filter.1 (List.mem_of_mem_head? hhead.symm)).2
  exact ⟨⟨htokens, hstripped, hstub, hending, ⟨b, rfl, hstart, hcomment⟩, ⟨z, hz, by rw [hstop, stop_stripped]⟩,
    hdrop, hreads, hrest, hend, hneat, hnested, hdressed⟩, rfl, rfl, rfl⟩

/-- Every method of a text begins with its header. -/
theorem exists_opening (h : parse? source = some root) (hd : d ∈ root.declarations) (ht : t ∈ d.decl.members)
    (hkind : t.kind = .methodDeclaration) : Nonempty (Opening source t) := by
  obtain ⟨all, htokens, hclass, -, hparsed⟩ := Index.parsed_of_declared h hd
  obtain ⟨μ, X, hkept, A, C, hX⟩ := exists_kept_of_declared h htokens hd
  have hmember : t.stripped ∈ d.decl.stripped.members :=
    mem_members_stripped ht (isNote_of_kind (by rw [hkind]; rfl))
  obtain ⟨ν, -, P, Y, Q, hY, rfl, -⟩ := hkept.exists_segment (by rwa [isClassLike_stripped]) hmember
  obtain ⟨o, -⟩ := exists_opening_of_segment (P := A ++ P) (Q := Q ++ C) htokens hY
    (by rw [code, ← hX]; simp) hkind (hparsed t ht).nested (forall_members (parse?_dressed h htokens) hd ht)
  exact ⟨o⟩

theorem child?_wrap_append {kind : Kind} {xs ys : List Tree} (part : Field) :
    (wrap kind (xs ++ ys)).child? part =
      (xs.find? fun c => c.field == some part).or (ys.find? fun c => c.field == some part) := List.find?_append

/-- No semicolon leads to the level at which a header ends. -/
theorem turn_semicolon_ne {q : Level} : heading.turn q ";" ≠ some .base := by
  cases q <;> simp [Policy.turn, heading, openers, closers]

namespace Opening

variable (o : Opening source t)

theorem placed : Placed source (o.before ++ (o.header ++ o.mark :: (o.body ++ o.behind))) := tokens?_placed o.tokens

theorem mark_stop : o.mark.stop = o.mark.start + 1 := by
  obtain ⟨-, -, -, ends, -, -, -, -, rest, -⟩ := o
  cases rest with
  | token _ _ _ _ _ hstop =>
    obtain ⟨-, c, -, rfl, -⟩ := Reads.char_of_mark ends.mark_mem
    exact hstop

theorem find?_body : (o.nodes.find? fun c => c.field == some .body) = none :=
  List.find?_eq_none.2 fun x hx => by simpa using o.stub.lacks x hx

/-- A method with a semicolon has no body, and the body of another is all that stands behind its header. -/
theorem exists_body : t.child? .body = none ∧ o.mark.mark = ";" ∧ t.stop = o.mark.stop ∨
    ∃ body, t.child? .body = some body ∧ body.start = o.mark.start ∧ body.stop = t.stop := by
  have hstripped := o.stripped
  have hends := o.ends
  have hbody := child?_stripped t .body
  rw [hstripped, child?_wrap_append, o.find?_body, Option.none_or] at hbody
  generalize o.ending = es at hstripped hends hbody
  cases hends with
  | semicolon mark =>
    refine .inl ⟨by simpa [leafOf, Tree.field] using hbody.symm, mark, ?_⟩
    rw [← stop_stripped, hstripped, stop_wrap (by simp), List.getLast_append_singleton]
    rfl
  | @body b _ start _ =>
    have hsome : (t.child? .body).map Tree.stripped = some (b.withField .body) := by
      rw [← hbody]
      cases b
      rfl
    obtain ⟨body, hfound, hbody'⟩ := Option.map_eq_some_iff.1 hsome
    refine .inr ⟨body, hfound, by rw [← start_stripped, hbody', start_withField, start], ?_⟩
    rw [← stop_stripped, hbody', ← stop_stripped t, hstripped, stop_wrap (by simp), List.getLast_append_singleton]

theorem headerEnd_eq : t.headerEnd = o.mark.start := by
  rcases o.exists_body with ⟨hnone, -, hstop⟩ | ⟨body, hbody, hstart, -⟩
  · simp only [headerEnd, hnone, hstop, o.mark_stop, Nat.add_sub_cancel]
  · simp only [headerEnd, hbody, hstart]

theorem header_ne_nil : o.header ≠ [] := fun hnil => o.stub.nonempty (by rw [hnil]; rfl)

theorem text_ne_nil : o.text ≠ [] := fun hnil => o.header_ne_nil (o.reads.eq_nil hnil)

section
variable (hopen : t.hasOpenBrief source = false)
include hopen

theorem last_ne : ∀ b ∈ o.header.getLast?, b.lexeme ≠ .comment .lineComment := by
  refine o.placed.last_ne_lineComment ?_
  simpa only [hasOpenBrief, o.tokens, o.headerEnd_eq] using hopen

/-- No header ends in a semicolon. -/
theorem past_semicolon : Text.Past (· == ';') o.text.reverse := by
  intro c hc
  refine Bool.eq_false_iff.2 fun hsemicolon => ?_
  obtain rfl : c = ';' := eq_of_beq hsemicolon
  obtain ⟨b, hb⟩ := Option.isSome_iff_exists.1 (List.getLast?_isSome.2 o.header_ne_nil)
  obtain ⟨B, hB⟩ := List.getLast?_eq_some_iff.1 hb
  refine (tokens?_scanned o.tokens).last_ne_semicolon (t := b) (by simp [hB]) (o.last_ne hopen b hb) ?_ ?_
  · intro hmark
    have hcode : b.isComment = false := isComment_of_mark (hmark ▸ by decide)
    have hlevels := o.stub.levels
    rw [hB, code_append, show code [b] = [b] by simp [code, hcode], Policy.levels_append,
      Option.bind_eq_some_iff] at hlevels
    obtain ⟨q, -, hturn⟩ := hlevels
    rw [Policy.levels_singleton, hmark] at hturn
    exact turn_semicolon_ne hturn
  · have hpos := List.length_pos_iff.2 o.text_ne_nil
    rw [o.last b hb, Nat.add_sub_assoc hpos, ← List.getElem?_drop, o.drop,
      List.getElem?_append_left (by omega), ← List.getLast?_eq_getElem?, ← List.head?_reverse]
    exact hc

/-- The header of a method is the text that the index takes for the method without its body. -/
theorem header_eq : t.header source = o.text := by
  have hneat := o.neat (o.last_ne hopen)
  rcases o.exists_body with ⟨hnone, hmark, hstop⟩ | ⟨body, hbody, hstart, -⟩
  · simp only [Tree.header, hnone, Tree.chars, hstop]
    exact hneat.trimEnd_semicolon (o.past_semicolon hopen) o.drop o.rest
      (text_of_isPiece (isPiece_of_mark hmark (by decide)))
  · simp only [Tree.header, hbody, hstart]
    exact hneat.trimEnd_slice o.drop o.rest

end

/-! ## Parts of methods -/

/-- The nodes of a header lie in its text. -/
theorem nested : NestedIn t.start (t.start + o.text.length) o.nodes ∧ ∀ x ∈ o.nodes, x.Full := by
  obtain ⟨-, hplaced, -⟩ := o.placed.of_append
  obtain ⟨hplaced, -, -⟩ := hplaced.of_append
  obtain ⟨hnested, hbounded⟩ := nested_of_derives o.stub.derives (hplaced.filter _) (Nat.le_add_right ..)
    (fun a ha => (o.reads.places a (List.mem_of_mem_filter ha)).1)
    fun a ha => o.reads.inside a (List.mem_of_mem_filter ha)
  exact ⟨hnested, fun x hx => (hbounded x hx).imp fun u hu => Nat.zero_lt_of_lt hu.nonempty⟩

/-- The parts of a method other than its body are those of its header. -/
theorem child?_stripped {part : Field} (hpart : part ≠ .body) :
    t.stripped.child? part = o.nodes.find? fun c => c.field == some part := by
  have hending : (o.ending.find? fun c => c.field == some part) = none := by
    have hends := o.ends
    generalize o.ending = es at hends
    cases hends with
    | semicolon => rfl
    | @body b =>
      cases b
      simp [withField, Tree.field, hpart.symm]
  rw [o.stripped, child?_wrap_append, hending, Option.or_none]

/-- They have the comments of the header inside. -/
theorem child?_eq {part : Field} (hpart : part ≠ .body) :
    t.child? part = (o.nodes.find? fun c => c.field == some part).map (dressAll (remarks o.header)) := by
  rw [child?_of_dressed o.dressed, o.child?_stripped hpart]
  refine Option.map_congr fun x hx => ?_
  obtain ⟨hstart, hstop, -⟩ := o.nested.1.of_mem (List.mem_of_find?_eq_some hx)
  obtain ⟨a, ha, hfirst, -⟩ := o.first
  obtain ⟨b, hb⟩ := Option.isSome_iff_exists.1 (List.getLast?_isSome.2 o.header_ne_nil)
  exact dressAll_remarks o.placed ⟨a, List.mem_of_mem_head? ha, hfirst ▸ hstart⟩
    ⟨b, List.mem_of_getLast? hb, o.last b hb ▸ hstop⟩

/-! ## Headers with a semicolon -/

/-- What the grammar makes of the header, moved, with a semicolon behind it. -/
def shorn (f : Nat → Nat) (s : Token) : Tree :=
  wrap .methodDeclaration (o.nodes.map (Tree.move f) ++ [leafOf ";" s])

variable {f : Nat → Nat} {s : Token}

theorem eval_shorn {ν : Rule Variable} (hν : ν ∈ memberRules) (us : List Token) (hsteady : Steady f (code o.header))
    (hs : s.mark = ";") :
    eval grammar ν ((code o.header).map (Token.move f) ++ s :: us) = some ([o.shorn f s], us) := by
  obtain ⟨hs', hmoves, heval⟩ := o.stub.rebuilds f s us hsteady hs
  rw [hmoves.eq_move o.nested.2] at heval
  exact heval ν hν

theorem child?_shorn (part : Field) :
    (o.shorn f s).child? part = (o.nodes.find? fun c => c.field == some part).map (Tree.move f) := by
  have hleaf : ([leafOf ";" s].find? fun c => c.field == some part) = none := rfl
  rw [shorn, child?_wrap_append, hleaf, Option.or_none, List.find?_map]
  simp only [Function.comp_def, field_move]

end Opening

end Testwright.Java
