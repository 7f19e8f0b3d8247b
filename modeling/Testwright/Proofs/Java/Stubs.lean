import Testwright.Proofs.Java.Elements

/-!
# Methods without their bodies

The header of a method in front of a semicolon is a member of a class, whatever stood behind the header
(`exists_stub`): what is tried before methods and is no semicolon ends with a block. Around members, a class with
a fixed name is an element of a text (`eval_shell`).
-/

namespace Testwright.Java

namespace Grammar

open Rule

variable {X ts us : List Token} {m : Tree} {ms : List Tree} {c s : Token}

/-! ## In front of a semicolon -/

/-- A member that ends with a block and has no semicolon in front of it. -/
def bodied : Policy := ⟨.bar, .finish⟩

/-- The variables that end with a block. -/
def endsWithBlock : Variable → Bool
  | .block | .classDeclaration | .interfaceDeclaration | .enumDeclaration | .recordDeclaration
  | .annotationTypeDeclaration | .classBody | .constructorBody => true
  | _ => false

def ofBodied (v : Variable) : Option Level :=
  if inHeading v then some .base else if endsWithBlock v then some .done else none

theorem charts_bodied : bodied.Charts ofBodied grammar :=
  .of_plain balanced fun v q h => by
    cases v <;> first
      | (cases h; done)
      | (cases h; decide)

/-- A method is a header, which lacks a body, and a block or a semicolon. -/
theorem exists_methodDeclaration : ∃ r, grammar .methodDeclaration = .node .methodDeclaration r ∧ r.isSeq = true ∧
    r.final = .alt (.field .body (.var .block)) (tok ";") ∧ r.initial.Ready known cost ∧
    r.final.Ready known cost ∧ r.initial.gives known = true ∧
    r.initial.walk heading ofHeading .base = some .base ∧ r.initial.conforms kinds = true ∧
    (∀ s ∈ r.initial.shapes kinds, s.part ≠ some .body) ∧
    ∃ a b c d, r.initial = .seq a (.seq b (.seq c (.seq (.field .name anyName) d))) :=
  ⟨_, rfl, rfl, rfl, by decide, by decide, by decide, by decide, by decide,
    by decide, _, _, _, _, rfl⟩

/-- What is matched with a name in the fourth place has a name. -/
theorem exists_name {a b c d : Rule Variable} {rest : List Token} {hs : List Tree}
    (hready : (seq a (seq b (seq c (seq (field .name anyName) d)))).Ready known cost)
    (h : eval grammar (.seq a (.seq b (.seq c (.seq (.field .name anyName) d)))) ts = some (hs, rest)) :
    ∃ x ∈ hs, x.field = some .name := by
  obtain ⟨as, zs₁, ts₁, -, h₁, rfl⟩ := exists_of_seq paced hready h
  obtain ⟨bs, zs₂, ts₂, -, h₂, rfl⟩ := exists_of_seq paced hready.right h₁
  obtain ⟨cs, zs₃, ts₃, -, h₃, rfl⟩ := exists_of_seq paced hready.right.right h₂
  obtain ⟨ns, ds, ts₄, hfield, -, rfl⟩ := exists_of_seq paced hready.right.right.right h₃
  obtain ⟨ns, hname, rfl⟩ := exists_of_field paced hready.right.right.right.left hfield
  obtain ⟨x, rfl⟩ := (matches_of_run hname).lone lone_of_ones rfl
  refine ⟨x.withField .name, by simp, ?_⟩
  cases x
  rfl

/-- What stands behind the header of a method, and what is made of it. -/
inductive Ending (e : Token) : List Tree → Prop
  | semicolon (mark : e.mark = ";") : Ending e [leafOf ";" e]
  | body {b : Tree} (mark : e.mark = "\x7b") (start : b.start = e.start) (kind : b.kind = .block) :
    Ending e [b.withField .body]

theorem Ending.mark_mem {es : List Tree} {e : Token} (h : Ending e es) : e.mark ∈ marks := by
  cases h with
  | semicolon mark | body mark =>
    rw [mark]
    decide

/-- The header of a method, of which some trees are made, is a member of a class or interface in front of a
semicolon. -/
structure Stub (H : List Token) (hs : List Tree) : Prop where
  levels : heading.levels .base H = some .base
  nonempty : H ≠ []
  gives : hs ≠ []
  derives : Derives H hs
  lacks : ∀ x ∈ hs, x.field ≠ some .body
  named : ∃ x ∈ hs, x.field = some .name
  rebuilds : ∀ f s us, Steady f H → s.mark = ";" → ∃ hs', Moves f hs hs' ∧ ∀ ν ∈ memberRules,
    eval grammar ν (H.map (Token.move f) ++ s :: us) =
      some ([wrap .methodDeclaration (hs' ++ [leafOf ";" s])], us)

/-- What is tried before methods, a semicolon apart, ends with a block. -/
theorem exists_options {ν : Rule Variable} (hν : ν ∈ memberRules) : ∃ blocks back,
    (∀ ts, eval grammar ν ts =
      (tok ";" :: blocks ++ var Variable.methodDeclaration :: back).findSome? fun r => eval grammar r ts) ∧
    ∀ r ∈ blocks, r.Ready known cost ∧ r.walk bodied ofBodied .base = some .done := by
  rcases List.mem_cons.1 hν with rfl | hν
  · exact ⟨((grammar .classMember).options.drop 1).take 7, (grammar .classMember).options.drop 9,
      fun ts => eval_var_options nofun rfl, by decide⟩
  · cases List.mem_singleton.1 hν
    exact ⟨(interfaceMember.options.drop 1).take 5, [interfaceConstant],
      fun ts => eval_options paced ready_interfaceMember, by decide⟩

/-- In front of a semicolon, a header is a method if anything. -/
theorem eval_member_of_header {ν : Rule Variable} (hν : ν ∈ memberRules) {found : List Tree × List Token}
    {H : List Token} {f : Nat → Nat} (hlevels : heading.levels .base H = some .base) (hne : H ≠ [])
    (hsteady : Steady f H) (hsane : Sane H) (hs : s.mark = ";")
    (h : eval grammar (.var .methodDeclaration) (H.map (Token.move f) ++ s :: us) = some found) :
    eval grammar ν (H.map (Token.move f) ++ s :: us) = some found := by
  obtain ⟨blocks, back, hoptions, hblocks⟩ := exists_options hν
  rw [hoptions, List.findSome?_eq_some_iff]
  refine ⟨_, _, _, rfl, h, fun r hr => ?_⟩
  rcases List.mem_cons.1 hr with rfl | hr
  · obtain ⟨t, H, rfl⟩ := List.exists_cons_of_ne_nil hne
    refine eval_tok_eq_none (Bool.eq_false_iff.2 fun hpiece => ?_)
    have hmark : t.mark = ";" := mark_of_isPiece (t := t) hpiece (hsane t List.mem_cons_self) (by decide)
    rw [Policy.levels_cons, hmark] at hlevels
    cases hlevels
  · obtain ⟨hready, hwalk⟩ := hblocks r hr
    exact eval_eq_none_of_done charts_bodied hready hwalk
      ⟨Policy.Stricter.levels ⟨.inl rfl, .inl rfl⟩ hlevels, hsteady, hsane⟩ rfl nofun (bars_of_mark (hs ▸ rfl))

theorem exists_stub (hsane : Sane X) (h : eval grammar (.var .methodDeclaration) X = some ([m], [])) :
    ∃ H e E hs es, X = H ++ e :: E ∧ m = wrap .methodDeclaration (hs ++ es) ∧ Stub H hs ∧ Ending e es := by
  obtain ⟨r, hrule, hseq, hfinal, hinitial, hready_final, hgives, hwalk, hconforms, hparts,
    a, b, c, d, hname⟩ := exists_methodDeclaration
  have hvar : (var .methodDeclaration : Rule Variable).Ready known cost := ready_var nofun
  have hready := hvar.body paced
  rw [hrule] at hready
  have hsplit (ts : List Token) : eval grammar r ts = (eval grammar r.initial ts).bind fun found =>
      (eval grammar r.final found.2).map (andThen found.1) :=
    eval_split paced hready.inner hinitial hseq
  rw [eval_var paced hvar, hrule] at h
  obtain ⟨ys, hys, hm⟩ := eq_singleton_of_node paced hready h
  cases hm
  rw [hsplit, Option.bind_eq_some_iff] at hys
  obtain ⟨⟨hs, mid⟩, hhead, hmap⟩ := hys
  obtain ⟨⟨es, rest⟩, hend, heq⟩ := Option.map_eq_some_iff.1 hmap
  cases heq
  obtain ⟨H, rfl, hlevels⟩ := crosses_of_eval (charts_heading .bar) hhead hwalk hsane
  obtain ⟨hsane_H, hsane_mid⟩ := hsane.of_append
  have matched := matched_of_eval paced hinitial hhead
  have hne : H ≠ [] := by
    rintro rfl
    exact absurd (matched.taken.length_lt (matched.gives hgives)) (Nat.lt_irrefl _)
  have hderives : Derives H hs := by
    obtain ⟨used, hused, hderives⟩ := matched.taken
    exact List.append_cancel_right hused ▸ hderives
  have hlacks : ∀ x ∈ hs, x.field ≠ some .body := by
    intro x hx hfield
    obtain ⟨s, hs, hfits⟩ := fits_of_eval hconforms hsane hhead x hx
    exact hparts s hs (hfits.part.symm.trans hfield)
  have hnamed : ∃ x ∈ hs, x.field = some .name := by
    rw [hname] at hinitial hhead
    exact exists_name hinitial hhead
  obtain ⟨e, E, rfl, hending⟩ : ∃ e E, mid = e :: E ∧ Ending e es := by
    rw [hfinal] at hready_final hend
    rw [eval_alt paced hready_final, Option.or_eq_some_iff] at hend
    rcases hend with hfield | ⟨-, hsemicolon⟩
    · have hready_block := hready_final.first
      obtain ⟨bs, hblock, rfl⟩ := exists_of_field paced hready_block hfield
      obtain ⟨b, rfl⟩ := (matches_of_run hblock).lone lone_of_ones rfl
      obtain ⟨used, hused, hderives⟩ := (matched_of_eval paced hready_block.part hblock).taken
      rw [List.append_nil] at hused
      obtain ⟨e, he, hstart⟩ := (hused ▸ hderives.spannedBy).start
      obtain ⟨E, rfl⟩ := List.head?_eq_some_iff.1 he
      obtain ⟨e', he', w, hw, hpiece⟩ := begins_of_eval hready_block.part rfl rfl hblock
      cases he'
      cases List.mem_singleton.1 hw
      have hconforms : (Rule.var .block : Rule Variable).conforms kinds = true := by decide
      obtain ⟨s, hs, hfits⟩ := fits_of_eval hconforms hsane_mid hblock b List.mem_cons_self
      cases List.mem_singleton.1 hs
      exact ⟨e, E, rfl, .body (mark_of_isPiece hpiece (hsane_mid e List.mem_cons_self) (by decide)) hstart.symm
        (hfits.kind _ rfl)⟩
    · obtain ⟨e, rfl, he, rfl⟩ := eval_tok_eq_some hsemicolon
      exact ⟨e, [], rfl, .semicolon (mark_of_isPiece he (hsane_mid e List.mem_cons_self) (by decide))⟩
  have hbars : heading.Bars .base (e :: E) := by
    cases hending with
    | semicolon mark => exact bars_of_mark (mark ▸ rfl)
    | body mark => exact bars_of_mark (mark ▸ rfl)
  refine ⟨H, e, E, hs, es, rfl, rfl,
    ⟨hlevels, hne, matched.gives hgives, hderives, hlacks, hnamed, fun f s us hsteady hs => ?_⟩, hending⟩
  have hbars' : heading.Bars .base (s :: us) := bars_of_mark (hs ▸ rfl)
  obtain ⟨hs', hmoved, hmoves⟩ := eval_moved_eq_some (charts_heading .bar) hinitial hwalk ⟨hlevels, hsteady, hsane_H⟩
    hbars hbars' hhead
  refine ⟨hs', hmoves, fun ν hν => eval_member_of_header hν hlevels hne hsteady hsane_H hs ?_⟩
  have hsemicolon : eval grammar r.final (s :: us) = some ([leafOf ";" s], us) := by
    have hpiece := isPiece_of_mark hs (by decide)
    have hnone : eval grammar (.field .body (.var .block)) (s :: us) = none :=
      eval_eq_none_of_not_begins (hfinal ▸ hready_final).first rfl rfl (not_begins hpiece (by decide))
    rw [hfinal, eval_alt paced (hfinal ▸ hready_final), hnone, eval_tok_cons hpiece]
    rfl
  rw [eval_var paced hvar, hrule, eval_node paced hready, hsplit, hmoved, Option.bind_some, hsemicolon]
  rfl

/-! ## A class around members -/

/-- The words in front of the members of a class. -/
def shellWords : List Token := [⟨.word, "class", 0, 5⟩, ⟨.word, "__Wrapper__", 6, 17⟩]

/-- The brace behind them. -/
def shellBrace : Token := ⟨.symbol, "\x7b", 18, 19⟩

def shellLeaves : List Tree :=
  [.node (.token "class") none 0 5 [], .node .identifier (some .name) 6 17 []]

/-- A class with some members. -/
def shell (ms : List Tree) (c : Token) : Tree :=
  wrap .classDeclaration (shellLeaves ++
    [(wrap .classBody (leafOf "\x7b" shellBrace :: (ms ++ [leafOf "\x7d" c]))).withField .body])

theorem exists_classDeclaration : ∃ r, grammar .classDeclaration = .node .classDeclaration r ∧ r.isSeq = true ∧
    r.final = .field .body (.var .classBody) ∧ r.initial.Ready known cost ∧ r.final.Ready known cost ∧
    r.initial.walk heading ofHeading .base = some .base ∧
    eval grammar r.initial (shellWords ++ [shellBrace]) = some (shellLeaves, [shellBrace]) :=
  ⟨_, rfl, rfl, rfl, by decide, by decide, by decide, rfl⟩

/-- Members in the braces of the class are an element of a text. -/
theorem eval_shell (hc : c.mark = "\x7d")
    (h : eval grammar (.many (.var .classMember)) ts = some (ms, c :: us)) :
    eval grammar element (shellWords ++ shellBrace :: ts) = some ([shell ms c], us) := by
  obtain ⟨r, hrule, hseq, hfinal, hinitial, hready_final, hwalk, hwords⟩ := exists_classDeclaration
  have hvar : (var .classDeclaration : Rule Variable).Ready known cost := ready_var nofun
  have hready := hvar.body paced
  rw [hrule] at hready
  have hbody : eval grammar (.var .classBody) (shellBrace :: ts) =
      some ([wrap .classBody (leafOf "\x7b" shellBrace :: (ms ++ [leafOf "\x7d" c]))], us) :=
    have hmembers : (membersIn .classBody (.var .classMember)).Ready known cost := by decide
    (eval_var (v := .classBody) paced (ready_var nofun)).trans
      (eval_membersIn hmembers rfl (isPiece_of_mark hc (by decide)) h)
  have hsane : Sane shellWords :=
    List.forall_mem_cons.2 ⟨⟨fun _ => by decide, nofun⟩, List.forall_mem_singleton.2 ⟨fun _ => by decide, nofun⟩⟩
  -- the words in front of the brace are matched as they are without anything behind it
  have hbars (us : List Token) : heading.Bars .base (shellBrace :: us) := bars_of_mark rfl
  obtain ⟨ys, hmoved, hmoves⟩ := eval_moved_eq_some (charts_heading .bar) hinitial hwalk
    ⟨rfl, steady_id shellWords, hsane⟩ (hbars []) (hbars ts) hwords
  rw [map_move_id, hmoves.eq_of_id] at hmoved
  have hclass : eval grammar (.var .classDeclaration) (shellWords ++ shellBrace :: ts) =
      some ([shell ms c], us) := by
    rw [eval_var paced hvar, hrule, eval_node paced hready, eval_split paced hready.inner hinitial hseq, hmoved,
      Option.bind_some, hfinal, eval_field paced (hfinal ▸ hready_final), hbody]
    rfl
  refine eval_element_of_declaration ?_
  have hdeclaration : (var .declaration : Rule Variable).Ready known cost := ready_var nofun
  have hword : isPiece "class" ⟨.word, "class", 0, 5⟩ = true := by decide
  have other {r : Rule Variable} {ss : List String} (hr : r ∈ (grammar .declaration).options)
      (hfirsts : r.firsts known starts = some ss) (hgives : r.gives known = true) (hss : "class" ∉ ss) :
      eval grammar r (shellWords ++ shellBrace :: ts) = none :=
    eval_eq_none_of_not_begins ((hdeclaration.body paced).of_mem_options hr) hfirsts hgives (not_begins hword hss)
  rw [eval_var_options (v := .declaration) nofun rfl, List.findSome?_eq_some_iff]
  refine ⟨[packageDeclaration, importDeclaration], .var .classDeclaration, _, rfl, hclass, fun r hr => ?_⟩
  rcases List.mem_cons.1 hr with rfl | hr
  · exact other (by exact List.mem_cons_self) rfl rfl (by decide)
  · cases List.mem_singleton.1 hr
    exact other (by exact List.mem_cons_of_mem _ List.mem_cons_self) rfl rfl (by decide)

end Grammar

end Testwright.Java
