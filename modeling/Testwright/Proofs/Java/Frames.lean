import Testwright.Java.Declaration
import Testwright.Proofs.Java.Charts
import Testwright.Proofs.Java.Gaps
import Testwright.Proofs.Java.Members

/-!
# Declarations as frames

A member is matched in the same way wherever it stands (`Hosts.exists_segment`), and the header of a declaration in
front of another body as well (`HasBody.exists_opened`). What matches the rule of a declaration is a member, since no
other alternative has the same header (`Hosts.eval_of_keyword`).
-/

namespace Testwright.Java

/-! ## Bounds -/

/-- A tree begins with the first of some tokens and ends with the last. -/
structure Tree.SpannedBy (t : Tree) (ts : List Token) : Prop where
  start : ∃ a ∈ ts.head?, a.start = t.start
  stop : ∃ b ∈ ts.getLast?, b.stop = t.stop

/-- Trees begin with the first of their tokens and end with the last. -/
theorem Derives.bounds {used : List Token} {xs : List Tree} (h : Derives used xs) :
    (∀ x ∈ xs.head?, ∃ a ∈ used.head?, a.start = x.start) ∧
      ∀ x ∈ xs.getLast?, ∃ b ∈ used.getLast?, b.stop = x.stop := by
  induction h with
  | nil => exact ⟨nofun, nofun⟩
  | @leaf kind first last used hhead hlast =>
    refine ⟨fun x hx => ⟨first, hhead, ?_⟩, fun x hx => ⟨last, hlast, ?_⟩⟩ <;>
    · cases hx
      rfl
  | @append used used' xs ys hxs hys ihx ihy =>
    constructor
    · intro x hx
      by_cases hnil : xs = []
      · cases hnil
        cases hxs.eq_nil_iff.2 rfl
        exact ihy.1 x hx
      · rw [List.head?_append_of_ne_nil _ hnil] at hx
        rw [List.head?_append_of_ne_nil _ (hxs.eq_nil_iff.not.2 hnil)]
        exact ihx.1 x hx
    · intro x hx
      by_cases hnil : ys = []
      · cases hnil
        cases hys.eq_nil_iff.2 rfl
        rw [List.append_nil] at hx ⊢
        exact ihx.2 x hx
      · rw [List.getLast?_append_of_ne_nil _ hnil] at hx
        rw [List.getLast?_append_of_ne_nil _ (hys.eq_nil_iff.not.2 hnil)]
        exact ihy.2 x hx
  | @node kind used xs _ full _ _ ih =>
    obtain ⟨x, xs, rfl⟩ := List.exists_cons_of_ne_nil full
    obtain ⟨a, ha, hstart⟩ := ih.1 x rfl
    obtain ⟨b, hb, hstop⟩ := ih.2 _ (List.getLast?_eq_some_getLast full)
    refine ⟨fun y hy => ⟨a, ha, ?_⟩, fun y hy => ⟨b, hb, ?_⟩⟩ <;>
      obtain rfl : Rule.wrap kind (x :: xs) = y := Option.some.inj hy
    · exact hstart
    · rw [hstop, Tree.stop_wrap full]
  | field _ ih =>
    constructor <;> intro x hx
    · rw [List.head?_map, Option.mem_def, Option.map_eq_some_iff] at hx
      obtain ⟨y, hy, rfl⟩ := hx
      rw [Tree.start_withField]
      exact ih.1 y hy
    · rw [List.getLast?_map, Option.mem_def, Option.map_eq_some_iff] at hx
      obtain ⟨y, hy, rfl⟩ := hx
      rw [Tree.stop_withField]
      exact ih.2 y hy

theorem Derives.spannedBy {used : List Token} {t : Tree} (h : Derives used [t]) : t.SpannedBy used :=
  ⟨h.bounds.1 t rfl, h.bounds.2 t rfl⟩

/-! ## Symbols -/

namespace Rule

variable {s s' : String} {t : Token} {ts : List Token}

theorem isPiece_inj (h : isPiece s t = true) (h' : isPiece s' t = true) : s = s' :=
  (text_of_isPiece h).symm.trans (text_of_isPiece h')

theorem isPiece_of_ne (h : isPiece s t = true) (hne : s ≠ s') : isPiece s' t = false :=
  Bool.eq_false_iff.2 fun h' => hne (isPiece_inj h h')

theorem not_begins {ss : List String} (h : isPiece s t = true) (hs : s ∉ ss) : ¬Begins ss (t :: ts) := by
  rintro ⟨u, hu, s', hs', hpiece⟩
  cases hu
  exact hs (isPiece_inj h hpiece ▸ hs')

theorem isPiece_of_mark (h : t.mark = s) (hs : s ≠ "") : isPiece s t = true := by
  unfold Token.mark at h
  unfold isPiece
  split at h
  · next hsymbol => simp [hsymbol, h]
  · exact absurd h.symm hs

theorem isComment_of_mark (h : t.mark ≠ "") : t.isComment = false := by
  unfold Token.mark at h
  split at h
  · next hsymbol => simp [Token.isComment, hsymbol]
  · exact absurd rfl h

theorem mark_of_isPiece (h : isPiece s t = true) (hsane : t.Sane) (hs : s ∈ marks) : t.mark = s := by
  unfold isPiece at h
  unfold Token.mark
  split at h
  · next hword => exact absurd (beq_iff_eq.1 h ▸ hs) (hsane.word hword)
  · next hsymbol => simpa [hsymbol] using h
  · cases h

end Rule

theorem bars_of_mark {p : Policy} {q : Level} {t : Token} {us : List Token}
    (h : p.turn q t.mark = none) : p.Bars q (t :: us) := by
  intro u hu
  cases hu
  exact h

namespace Grammar

open Rule

/-- The leaf of a keyword or symbol. -/
def leafOf (s : String) (t : Token) : Tree := .node (.token (String.join [s])) none t.start t.stop []

variable {s : String} {t : Token} {ts rest us : List Token} {xs : List Tree} {f : Nat → Nat}

theorem eval_tok_cons (h : isPiece s t = true) :
    eval grammar (tok s) (t :: ts) = some ([leafOf s t], ts) := by
  change takeToken [s] (t :: ts) = _
  simp [takeToken, takePieces, h, leafOf]

theorem eval_tok_eq_some (h : eval grammar (tok s) ts = some (xs, rest)) :
    ∃ t, ts = t :: rest ∧ isPiece s t = true ∧ xs = [leafOf s t] := by
  change takeToken [s] ts = _ at h
  cases ts with
  | nil => cases h
  | cons t ts =>
    by_cases hpiece : isPiece s t = true
    · simp only [takeToken, takePieces, hpiece, BEq.rfl, Bool.and_true, if_true, Option.map_some,
        Option.some.injEq, Prod.mk.injEq] at h
      exact ⟨t, by rw [h.2], hpiece, h.1.symm⟩
    · simp [takeToken, takePieces, hpiece] at h

theorem eval_tok_eq_none (h : isPiece s t = false) : eval grammar (tok s) (t :: ts) = none := by
  refine Option.eq_none_iff_forall_ne_some.2 fun ⟨xs, rest⟩ hfound => ?_
  obtain ⟨u, heq, hpiece, -⟩ := eval_tok_eq_some hfound
  cases heq
  rw [h] at hpiece
  cases hpiece

/-! ## Rules at other places -/

section
variable {p : Policy} {effect : Variable → Option Level} {r : Rule Variable} {X : List Token}
  {q q' last : Level} (hcharts : p.Charts effect grammar) (hready : r.Ready known cost)
  (hwalk : r.walk p effect q = some q') (h : Readable p f q last X)
include hcharts hready hwalk h

/-- What does not match some tokens does not match them elsewhere. -/
theorem eval_moved_eq_none (hrest : p.Bars last rest) (hus : p.Bars last us)
    (heval : eval grammar r (X ++ rest) = none) : eval grammar r (X.map (Token.move f) ++ us) = none := by
  have hfollows := follows_eval paced hready hcharts hwalk h hrest hus
  rw [heval] at hfollows
  exact hfollows.eq_none

/-- What matches some tokens matches them elsewhere, and makes the same of them. -/
theorem eval_moved_eq_some (hrest : p.Bars last rest) (hus : p.Bars last us)
    (heval : eval grammar r (X ++ rest) = some (xs, rest)) :
    ∃ ys, eval grammar r (X.map (Token.move f) ++ us) = some (ys, us) ∧ Moves f xs ys := by
  have hfollows := follows_eval paced hready hcharts hwalk h hrest hus
  rw [heval] at hfollows
  obtain ⟨used, back, ys, -, -, hback, hmoved, hmoves⟩ := hfollows.eq_some
  cases List.self_eq_append_left.1 hback
  exact ⟨ys, hmoved, hmoves⟩

/-- What ends with a semicolon or block does not match before one. -/
theorem eval_eq_none_of_done (hdone : q' = .done) (hlast : last ≠ .done) (hus : p.Bars last us) :
    eval grammar r (X.map (Token.move f) ++ us) = none := by
  subst hdone
  have hfollows := follows_eval paced hready hcharts hwalk h hus hus
  generalize eval grammar r (X ++ us) = found at hfollows
  cases found with
  | none => exact hfollows.eq_none
  | some found =>
    obtain ⟨used, back, -, rfl, hused, -⟩ := hfollows.eq_some
    have hback := (h.drop hused).levels
    cases back with
    | nil => exact absurd (Option.some.inj hback).symm hlast
    | cons t back => cases hback

end

/-! ## Headers -/

/-- The keyword of a declaration with members. -/
def keyword : Variable → Option String
  | .classDeclaration => some "class"
  | .interfaceDeclaration => some "interface"
  | .enumDeclaration => some "enum"
  | .recordDeclaration => some "record"
  | .annotationTypeDeclaration => some "@interface"
  | _ => none

/-- The declarations with a keyword, in the order in which they are tried. -/
def keyed : List Variable :=
  [.classDeclaration, .interfaceDeclaration, .enumDeclaration, .recordDeclaration,
    .annotationTypeDeclaration]

/-- The rules of declarations with a keyword. -/
def types : List (Rule Variable) := keyed.map .var

theorem mem_keyed_iff {v : Variable} : v ∈ keyed ↔ (keyword v).isSome = true := by
  cases v <;> simp [keyed, keyword]

theorem keyword_inj : ∀ v ∈ keyed, ∀ v' ∈ keyed, keyword v = keyword v' → v = v' := by decide

theorem keyword_spec {v : Variable} {kw : String} (h : keyword v = some kw) : v ≠ .program ∧
    ∃ kind r, grammar v = .node kind (.seq (opt (.var .modifiers)) (.seq (tok kw) r)) := by
  cases v <;> first
    | (cases h; done)
    | (cases h; exact ⟨nofun, _, _, rfl⟩)

/-- A header of a declaration: behind its modifiers it goes on with a keyword, and this does not depend on
what stands behind the header. -/
structure Header (kw : String) (H : List Token) : Prop where
  levels : heading.levels .base H = some .base
  sane : Sane H
  after : ∃ t B, isPiece kw t = true ∧ t :: B <:+ H ∧ ∀ f us, Steady f H → heading.Bars .base us →
    ∃ xs, eval grammar (opt (.var .modifiers)) (H.map (Token.move f) ++ us) =
      some (xs, (t :: B).map (Token.move f) ++ us)

theorem ready_modifiers : (opt (.var .modifiers) : Rule Variable).Ready known cost := by decide

/-- What is matched behind modifiers and a keyword is a header. -/
theorem header_of_eval {kw : String} {r : Rule Variable}
    (hready : (seq (opt (.var .modifiers)) (seq (tok kw) r)).Ready known cost)
    (hwalk : (seq (tok kw) r).walk heading ofHeading .base = some .base)
    (h : eval grammar (.seq (opt (.var .modifiers)) (.seq (tok kw) r)) ts = some (xs, us))
    (hsane : Sane ts) (hbars : heading.Bars .base us) : ∃ H, ts = H ++ us ∧ Header kw H := by
  have hwalk_seq : (seq (opt (.var .modifiers)) (seq (tok kw) r)).walk heading ofHeading .base =
      some .base := walk_seq.2 ⟨.base, rfl, hwalk⟩
  obtain ⟨H, rfl, hlevels⟩ := crosses_of_eval (charts_heading .bar) h hwalk_seq hsane
  have hsane_H := hsane.of_append.1
  obtain ⟨ms, ys, mid, hmodifiers, hr, rfl⟩ := exists_of_seq paced hready h
  obtain ⟨ks, zs, mid', hkw, hrest, rfl⟩ := exists_of_seq paced hready.right hr
  obtain ⟨t, rfl, hpiece, rfl⟩ := eval_tok_eq_some hkw
  obtain ⟨B, rfl, -⟩ := (matched_of_eval paced hready.right.right hrest).taken
  obtain ⟨A, hsplit, -⟩ := (matched_of_eval paced hready.left hmodifiers).taken
  rw [← List.cons_append, ← List.append_assoc] at hsplit
  refine ⟨H, rfl, hlevels, hsane_H, t, B, hpiece, ⟨A, (List.append_cancel_right hsplit).symm⟩,
    fun f us' hsteady hbars' => ?_⟩
  have hwalk_modifiers : (opt (.var .modifiers)).walk heading ofHeading .base = some .base := rfl
  have hfollows := follows_eval paced ready_modifiers (charts_heading .bar) hwalk_modifiers
    ⟨hlevels, hsteady, hsane_H⟩ hbars hbars'
  rw [hmodifiers] at hfollows
  obtain ⟨used, back, ys, -, -, hback, hmoved, -⟩ := hfollows.eq_some
  rw [← List.cons_append] at hback
  cases List.append_cancel_right hback
  exact ⟨_, hmoved⟩

namespace Header

variable {kw : String} {H : List Token} (h : Header kw H)
include h

theorem readable (hsteady : Steady f H) (stance : Stance) :
    Readable ⟨stance, .bar⟩ f .base .base H :=
  ⟨Policy.Stricter.levels ⟨.inl rfl, .inl rfl⟩ h.levels, hsteady, h.sane⟩

/-- No other declaration has the same header. -/
theorem eval_keyword_eq_none (hsteady : Steady f H) (hbars : heading.Bars .base us)
    {v : Variable} {kw' : String} (hkw : keyword v = some kw') (hne : kw ≠ kw') :
    eval grammar (.var v) (H.map (Token.move f) ++ us) = none := by
  obtain ⟨hv, kind, r, hrule⟩ := keyword_spec hkw
  have hready := ready_var hv
  have hbody := hready.body paced
  obtain ⟨t, B, ht, -, hafter⟩ := h.after
  obtain ⟨xs, hmodifiers⟩ := hafter f us hsteady hbars
  rw [eval_var paced hready]
  rw [hrule] at hbody ⊢
  rw [eval_node paced hbody, eval_seq paced hbody.inner, hmodifiers, Option.bind_some,
    eval_seq paced hbody.inner.right, List.map_cons, List.cons_append,
    eval_tok_eq_none (t := t.move f) (isPiece_of_ne ht hne)]
  rfl

theorem ne_nil : H ≠ [] := by
  obtain ⟨t, B, -, hsuffix, -⟩ := h.after
  rintro rfl
  cases List.suffix_nil.1 hsuffix

/-- No header begins with a brace. -/
theorem not_begins : ¬Begins ["\x7b"] (H.map (Token.move f) ++ us) := by
  obtain ⟨t, H, rfl⟩ := List.exists_cons_of_ne_nil h.ne_nil
  rintro ⟨u, hu, s, hs, hpiece⟩
  cases hu
  cases List.mem_singleton.1 hs
  have hmark : t.mark = "\x7b" := mark_of_isPiece (t := t) hpiece (h.sane t List.mem_cons_self) (by decide)
  have hlevels := h.levels
  rw [Policy.levels_cons, hmark] at hlevels
  cases hlevels

end Header

/-- A rule matches no declaration with a keyword. -/
def Refuses (r : Rule Variable) : Prop :=
  ∀ v kw H f us, keyword v = some kw → Header kw H → Steady f H →
    (∀ stance, (Policy.mk stance .bar).Bars .base us) → eval grammar r (H.map (Token.move f) ++ us) = none

theorem refuses_of_done {r : Rule Variable} (hready : r.Ready known cost)
    (hwalk : r.walk ⟨.finish, .bar⟩ ofHeading .base = some .done) : Refuses r :=
  fun _ _ _ _ _ _ hheader hsteady hbars =>
    eval_eq_none_of_done (charts_heading .finish) hready hwalk (hheader.readable hsteady .finish) rfl nofun
      (hbars .finish)

theorem refuses_block : Refuses (.var .block) := fun _ _ _ _ _ _ hheader _ _ =>
  eval_eq_none_of_not_begins (ready_var nofun) rfl rfl hheader.not_begins

/-- The rule for an initializer of a class. -/
def staticInitializer : Rule Variable := .node .staticInitializer (.seq (tok "static") (.var .block))

theorem refuses_staticInitializer : Refuses staticInitializer := by
  intro v kw H f us hkw hheader _ _
  have hready : staticInitializer.Ready known cost := by decide
  refine Option.eq_none_iff_forall_ne_some.2 fun ⟨xs, rest⟩ heval => ?_
  obtain ⟨ys, hys, -⟩ := eq_singleton_of_node paced hready heval
  obtain ⟨ks, zs, mid, hstatic, hblock, -⟩ := exists_of_seq paced hready.inner hys
  obtain ⟨s, hsplit, hs, -⟩ := eval_tok_eq_some hstatic
  obtain ⟨b, hb, w, hw, hbrace⟩ := begins_of_eval hready.inner.right rfl rfl hblock
  cases List.mem_singleton.1 hw
  obtain ⟨a, A, rfl⟩ := List.exists_cons_of_ne_nil hheader.ne_nil
  cases hsplit
  cases A with
  | nil =>
    obtain ⟨t, B, ht, hsuffix, -⟩ := hheader.after
    obtain ⟨C, hC⟩ := hsuffix
    obtain rfl : t = a := by
      cases C with
      | nil => exact (List.cons.inj hC).1
      | cons c C => simp at hC
    have hstatic : kw = "static" := isPiece_inj ht hs
    exact absurd (hstatic ▸ hkw) (by cases v <;> simp [keyword])
  | cons b' A =>
    cases hb
    have hmark : b'.mark = "\x7b" := mark_of_isPiece (t := b') hbrace (hheader.sane b' (by simp)) (by decide)
    have hlevels := hheader.levels
    rw [Policy.levels_cons, Policy.turn_of_isPiece (t := a) hs (hheader.sane a List.mem_cons_self)] at hlevels
    change (Policy.levels heading .base (b' :: A)) = _ at hlevels
    rw [Policy.levels_cons, hmark] at hlevels
    cases hlevels

/-! ## Members -/

/-- A rule matches some tokens wherever they stand and whatever follows. -/
def Retains (μ : Rule Variable) (X : List Token) : Prop :=
  ∀ f us, Steady f X → ∃ xs, eval grammar μ (X.map (Token.move f) ++ us) = some (xs, us)

/-- The tokens of a member, which begins with no closing bracket and ends with a bracket or a semicolon. Wherever
they stand, the same is made of them. -/
structure Segment (μ : Rule Variable) (X : List Token) (m : Tree) : Prop where
  spanned : m.SpannedBy X
  begins : ∀ a ∈ X.head?, a.mark ∉ closers
  ends : ∃ b ∈ X.getLast?, b.mark ∈ marks
  derives : Derives X [m]
  moves : ∀ f us, Steady f X →
    ∃ ys, eval grammar μ (X.map (Token.move f) ++ us) = some (ys, us) ∧ Moves f [m] ys
  method : m.kind = .methodDeclaration → eval grammar (.var .methodDeclaration) X = some ([m], [])

theorem Segment.retains {μ : Rule Variable} {X : List Token} {m : Tree} (h : Segment μ X m) : Retains μ X :=
  fun f us hsteady => (h.moves f us hsteady).imp fun _ => And.left

/-- Whether a rule gives nodes that declare no class. -/
def givesOther (r : Rule Variable) : Bool :=
  r.conforms kinds && (r.shapes kinds).all fun s => s.kind.any fun k => !k.declares

/-- Whether a rule may give a method. -/
def mayGiveMethod (r : Rule Variable) : Bool :=
  !(r.conforms kinds && (r.shapes kinds).all fun s => s.kind.any fun k => k != .methodDeclaration)

/-- What the alternatives of a rule for members are like. -/
structure Hosts (μ : Rule Variable) (front back : List (Rule Variable)) (last : Rule Variable) :
    Prop where
  eval_eq : ∀ ts, eval grammar μ ts =
    (front ++ types ++ back ++ [last]).findSome? fun r => eval grammar r ts
  ready : ∀ r ∈ front ++ types ++ back ++ [last], r.Ready known cost
  lone : ∀ r ∈ front ++ types ++ back ++ [last], r.lone ones = true
  walk : ∀ r ∈ front ++ types ++ back, r.walk item ofItem .base = some .done
  walk_last : last.walk item ofItem .base = some .done ∨ last.walk sentence ofClause .base = some .done
  refuses : ∀ r ∈ front, Refuses r
  others : ∀ r ∈ front ++ back ++ [last], givesOther r = true
  methods : ∀ r ∈ (front ++ types ++ back ++ [last]).filter mayGiveMethod, r = .var .methodDeclaration

theorem eval_var_options {v : Variable} {rules : List (Rule Variable)} (hv : v ≠ .program)
    (hoptions : (grammar v).options = rules) :
    eval grammar (.var v) ts = rules.findSome? fun r => eval grammar r ts := by
  have hready := ready_var hv
  rw [eval_var paced hready, eval_options paced (hready.body paced), hoptions]

/-- The rule for a constant of an interface. -/
def interfaceConstant : Rule Variable :=
  .node .constantDeclaration (all [opt (.var .modifiers), memberType, .var .declarators, tok ";"])

/-- The rule for the members of an interface. -/
def interfaceMember : Rule Variable :=
  any
    [tok ";", .var .classDeclaration, .var .interfaceDeclaration, .var .enumDeclaration,
      .var .recordDeclaration, .var .annotationTypeDeclaration, .var .methodDeclaration,
      interfaceConstant]

theorem ready_interfaceMember : interfaceMember.Ready known cost := by decide

theorem hosts_classMember : ∃ front back last, Hosts (.var .classMember) front back last := by
  have hready : (var .classMember : Rule Variable).Ready known cost := ready_var nofun
  exact ⟨(grammar .classMember).options.take 3, ((grammar .classMember).options.drop 8).take 3,
    (grammar .classMember).options.getLast (by decide), fun ts => eval_var_options nofun rfl,
    fun r hr => (hready.body paced).of_mem_options hr, by decide, by decide,
    .inr (by decide), List.forall_mem_cons.2 ⟨refuses_of_done (by decide) (by decide),
      List.forall_mem_cons.2 ⟨refuses_block, List.forall_mem_singleton.2 refuses_staticInitializer⟩⟩,
    by decide, fun _ hr => List.mem_singleton.1 hr⟩

theorem hosts_interfaceMember : ∃ front back last, Hosts interfaceMember front back last :=
  ⟨[tok ";"], [.var .methodDeclaration], interfaceConstant,
    fun _ => eval_options paced ready_interfaceMember,
    fun _ hr => ready_interfaceMember.of_mem_options hr, by decide, by decide,
    .inr (by decide),
    List.forall_mem_singleton.2 (refuses_of_done (by decide) (by decide)),
    by decide, fun _ hr => List.mem_singleton.1 hr⟩

theorem hosts_declaration :
    Hosts (.var .declaration) [packageDeclaration, importDeclaration] [] moduleDeclaration :=
  have hready : (var .declaration : Rule Variable).Ready known cost := ready_var nofun
  ⟨fun _ => eval_var_options nofun rfl, fun _ hr => (hready.body paced).of_mem_options hr,
    by decide, by decide, .inl (by decide),
    List.forall_mem_cons.2 ⟨refuses_of_done (by decide) (by decide),
      List.forall_mem_singleton.2 (refuses_of_done (by decide) (by decide))⟩,
    by decide, fun _ hr => absurd hr List.not_mem_nil⟩

/-- No policy allows a closing bracket outside of all brackets. -/
theorem begins_of_levels {p : Policy} {q : Level} {X : List Token} (h : p.levels .base X = some q) :
    ∀ a ∈ X.head?, a.mark ∉ closers := by
  intro a ha hclose
  obtain ⟨X, rfl⟩ := List.head?_eq_some_iff.1 ha
  rw [Policy.levels_cons, Option.bind_eq_some_iff] at h
  obtain ⟨mid, hturn, -⟩ := h
  generalize a.mark = s at hturn hclose
  simp only [closers, List.mem_cons, List.not_mem_nil, or_false] at hclose
  rcases hclose with rfl | rfl | rfl <;> cases hturn

/-- A text that is done ends with a symbol that counts. -/
theorem ends_of_levels {p : Policy} {q : Level} {X : List Token} (hq : q ≠ .done)
    (h : p.levels q X = some .done) : ∃ b ∈ X.getLast?, b.mark ∈ marks := by
  rcases List.eq_nil_or_concat X with rfl | ⟨X, b, rfl⟩
  · cases h
    exact absurd rfl hq
  · rw [List.concat_eq_append, Policy.levels_append, Option.bind_eq_some_iff] at h
    obtain ⟨q', -, hb⟩ := h
    rw [Policy.levels_singleton] at hb
    exact ⟨b, by simp, Policy.mem_marks_of_turn hb⟩

namespace Hosts

variable {μ last : Rule Variable} {front back : List (Rule Variable)} (h : Hosts μ front back last)
include h

/-- A member is matched by one of the alternatives, and in the same way wherever it stands. -/
theorem exists_segment (heval : eval grammar μ ts = some (xs, rest)) (hsane : Sane ts) :
    ∃ m X, xs = [m] ∧ ts = X ++ rest ∧ Segment μ X m ∧
      ∃ r ∈ front ++ types ++ back ++ [last], eval grammar r ts = some ([m], rest) := by
  rw [h.eval_eq, List.findSome?_eq_some_iff] at heval
  obtain ⟨l₁, r, l₂, hsplit, hr, hnone⟩ := heval
  have hmem : r ∈ front ++ types ++ back ++ [last] := by rw [hsplit]; simp
  have hready := h.ready r hmem
  obtain ⟨m, rfl⟩ := (matches_of_run hr).lone lone_of_ones (h.lone r hmem)
  obtain ⟨X, rfl, hderives⟩ := (matched_of_eval paced hready hr).taken
  have hsane_X := hsane.of_append.1
  -- whatever policy the alternative keeps to, the earlier ones end no later than the member does
  have retains (p : Policy) (effect) (hcharts : p.Charts effect grammar)
      (hwalk : r.walk p effect .base = some .done)
      (hfirst : ∀ {X}, p.levels .base X = some .done →
        ∃ X₁ X₂, X = X₁ ++ X₂ ∧ item.levels .base X₁ = some .done)
      (hearlier : ∀ a ∈ l₁, a ∈ front ++ types ++ back) : Segment μ X m := by
    obtain ⟨used, hused, hX⟩ := crosses_of_eval hcharts hr hwalk hsane
    cases List.append_cancel_right hused
    have moved {f : Nat → Nat} (us : List Token) (hsteady : Steady f X) := eval_moved_eq_some hcharts hready
      hwalk ⟨hX, hsteady, hsane_X⟩ (p.bars_done _) (p.bars_done us) hr
    refine ⟨hderives.spannedBy, begins_of_levels hX, ends_of_levels (by decide) hX, hderives,
      fun f us hsteady => ?_, fun hkind => ?_⟩
    case refine_2 =>
      obtain ⟨ys, hys, hmoves⟩ := moved [] (steady_id X)
      rw [map_move_id, List.append_nil, hmoves.eq_of_id] at hys
      have hmay : mayGiveMethod r = true := by
        unfold mayGiveMethod
        rw [Bool.not_eq_true']
        refine Bool.eq_false_iff.2 fun hother => ?_
        obtain ⟨hconforms, hshapes⟩ := Bool.and_eq_true_iff.1 hother
        obtain ⟨s, hs, hfits⟩ := fits_of_eval hconforms hsane hr m List.mem_cons_self
        obtain ⟨k, hk, hne⟩ := (Option.any_eq_true ..).1 (List.all_eq_true.1 hshapes s hs)
        exact bne_iff_ne.1 hne ((hfits.kind k hk).symm.trans hkind)
      rwa [← h.methods r (List.mem_filter.2 ⟨hmem, hmay⟩)]
    obtain ⟨ys, hys, hmoves⟩ := moved us hsteady
    refine ⟨ys, ?_, hmoves⟩
    rw [h.eval_eq, List.findSome?_eq_some_iff]
    refine ⟨l₁, r, l₂, hsplit, hys, fun a ha => ?_⟩
    obtain ⟨X₁, X₂, rfl, hX₁⟩ := hfirst hX
    have ha_mem := List.mem_append_left [last] (hearlier a ha)
    have hnone_a := hnone a ha
    rw [List.append_assoc] at hnone_a
    rw [List.map_append, List.append_assoc]
    exact eval_moved_eq_none charts_item (h.ready a ha_mem) (h.walk a (hearlier a ha))
      ⟨hX₁, hsteady.of_append.1, hsane_X.of_append.1⟩ (item.bars_done _) (item.bars_done _) hnone_a
  have hitem (hwalk : r.walk item ofItem .base = some .done)
      (hearlier : ∀ a ∈ l₁, a ∈ front ++ types ++ back) : Segment μ X m :=
    retains item ofItem charts_item hwalk (fun hX => ⟨_, [], (List.append_nil _).symm, hX⟩) hearlier
  suffices hsegment : Segment μ X m from ⟨m, X, rfl, rfl, hsegment, r, hmem, hr⟩
  rcases List.eq_nil_or_concat l₂ with rfl | ⟨l₂, z, rfl⟩
  · obtain ⟨hitems, hlast⟩ := List.append_inj' hsplit rfl
    cases hlast
    have hearlier : ∀ a ∈ l₁, a ∈ front ++ types ++ back := fun a ha => hitems ▸ ha
    rcases h.walk_last with hwalk | hwalk
    · exact hitem hwalk hearlier
    · refine retains sentence ofClause (charts_clause .finish) hwalk (fun hX => ?_) hearlier
      exact Policy.Passes.base.exists_done hX
  · have hsplit' : front ++ types ++ back ++ [last] = (l₁ ++ r :: l₂) ++ [z] := by
      rw [hsplit, List.concat_eq_append, List.append_assoc]
      rfl
    have hitems := (List.append_inj' hsplit' rfl).1
    refine hitem (h.walk r ?_) fun a ha => ?_ <;>
    · rw [hitems]
      simp [*]

/-- A closing brace is no member. -/
theorem eval_eq_none_of_close {c : Token} (hc : c.mark = "\x7d") : eval grammar μ (c :: us) = none := by
  have hnil (p : Policy) : Readable p id .base .base [] := ⟨rfl, .nil, nofun⟩
  have hbars (stance block : Stance) : (Policy.mk stance block).Bars .base (c :: us) :=
    bars_of_mark (hc ▸ rfl)
  rw [h.eval_eq, List.findSome?_eq_none_iff]
  intro r hr
  have hready := h.ready r hr
  have hitem (hwalk : r.walk item ofItem .base = some .done) : eval grammar r (c :: us) = none :=
    eval_eq_none_of_done charts_item hready hwalk (hnil item) rfl nofun (hbars _ _)
  rcases List.mem_append.1 hr with hr | hr
  · exact hitem (h.walk r hr)
  · cases List.mem_singleton.1 hr
    rcases h.walk_last with hwalk | hwalk
    · exact hitem hwalk
    · exact eval_eq_none_of_done (charts_clause .finish) hready hwalk (hnil sentence) rfl nofun
        (hbars _ _)

/-- What matches the rule of a declaration with a keyword is a member: no other alternative has the same header. -/
theorem eval_of_keyword {v : Variable} {kw : String} {H : List Token} {found : List Tree × List Token}
    (hkw : keyword v = some kw) (hheader : Header kw H) (hsteady : Steady f H)
    (hbars : ∀ stance, (Policy.mk stance .bar).Bars .base us)
    (heval : eval grammar (.var v) (H.map (Token.move f) ++ us) = some found) :
    eval grammar μ (H.map (Token.move f) ++ us) = some found := by
  have hv : v ∈ keyed := mem_keyed_iff.2 (by rw [hkw]; rfl)
  obtain ⟨l₁, l₂, hsplit, hfirst⟩ := List.eq_append_cons_of_mem hv
  rw [h.eval_eq, List.findSome?_eq_some_iff]
  refine ⟨front ++ l₁.map .var, .var v, l₂.map .var ++ back ++ [last], by simp [types, hsplit], heval, fun r hr => ?_⟩
  rcases List.mem_append.1 hr with hr | hr
  · exact h.refuses r hr v kw H f us hkw hheader hsteady hbars
  · obtain ⟨v', hv', rfl⟩ := List.mem_map.1 hr
    have hkeyed : v' ∈ keyed := hsplit ▸ List.mem_append_left _ hv'
    obtain ⟨kw', hkw'⟩ := Option.isSome_iff_exists.1 (mem_keyed_iff.1 hkeyed)
    refine hheader.eval_keyword_eq_none hsteady (hbars .bar) hkw' ?_
    rintro rfl
    cases keyword_inj v hv v' hkeyed (hkw.trans hkw'.symm)
    exact hfirst hv'

end Hosts

/-! ## Bodies -/

/-- The rule of a declaration is a header and a body in braces. -/
structure HasBody (v : Variable) (kw : String) (kind : Kind) (body : Rule Variable) (bk : Kind) :
    Prop where
  keyword : keyword v = some kw
  conforms : body.conforms kinds = true
  shapes : body.shapes kinds = [⟨some bk, none⟩]
  lone : body.lone ones = true
  opens : body.firsts known starts = some ["\x7b"]
  gives : body.gives known = true
  exists_rule : ∃ r i, grammar v = .node kind r ∧ r.isSeq = true ∧
    r.initial = .seq (opt (.var .modifiers)) (.seq (tok kw) i) ∧ r.final = .field .body body ∧
    r.initial.Ready known cost ∧ (field .body body).Ready known cost ∧
    (seq (tok kw) i).walk heading ofHeading .base = some .base ∧ r.initial.conforms kinds = true ∧
    ∀ s ∈ r.initial.shapes kinds, s.part ≠ some .body

/-- A declaration that is a header in front of a body. -/
structure Opened (v : Variable) (kw : String) (kind : Kind) (body : Rule Variable) (H : List Token)
    (m b : Tree) : Prop where
  header : Header kw H
  kind_eq : m.kind = kind
  child : m.child? .body = some (b.withField .body)
  rebuilds : ∀ f ts b' rest, Steady f H → heading.Bars .base ts → eval grammar body ts = some ([b'], rest) →
    ∃ m', eval grammar (.var v) (H.map (Token.move f) ++ ts) = some ([m'], rest) ∧ m'.kind = kind ∧
      m'.child? .body = some (b'.withField .body)

theorem bars_of_begins {ss : List String} (h : Begins ss ts) (hsane : Sane ts)
    (hss : ∀ s ∈ ss, heading.turn .base s = none) : heading.Bars .base ts := by
  obtain ⟨t, ht, s, hs, hpiece⟩ := h
  intro u hu
  cases ht.symm.trans hu
  exact (Policy.turn_of_isPiece hpiece (hsane t (List.mem_of_head? ht))).trans (hss s hs)

/-- The first tree that plays a part. -/
theorem child?_wrap {kind : Kind} {hs bs : List Tree} {part : Field} {b : Tree}
    (hlacks : ∀ x ∈ hs, x.field ≠ some part) :
    (wrap kind (hs ++ b.withField part :: bs)).child? part = some (b.withField part) := by
  have hb : (b.withField part).field = some part := by
    cases b
    rfl
  show List.find? _ (hs ++ b.withField part :: bs) = _
  rw [List.find?_append, List.find?_eq_none.2 fun x hx => by simpa using hlacks x hx]
  simp [hb]

/-- A match of a declaration is that of a header and a body. -/
theorem HasBody.exists_opened {v : Variable} {kw : String} {kind bk : Kind} {body : Rule Variable}
    (h : HasBody v kw kind body bk) (heval : eval grammar (.var v) ts = some (xs, rest))
    (hsane : Sane ts) : ∃ H mid m b, xs = [m] ∧ ts = H ++ mid ∧ b.kind = bk ∧
      eval grammar body mid = some ([b], rest) ∧ Opened v kw kind body H m b := by
  obtain ⟨hv, -⟩ := keyword_spec h.keyword
  obtain ⟨r, i, hrule, hseq, hinitial, hfinal, hready_initial, hready_final, hwalk, hconforms, hparts⟩ :=
    h.exists_rule
  have hready := (ready_var hv).body paced
  rw [hrule] at hready
  have hsplit (ts : List Token) : eval grammar r ts = (eval grammar r.initial ts).bind fun found =>
      (eval grammar r.final found.2).map (andThen found.1) :=
    eval_split paced hready.inner hready_initial hseq
  rw [eval_var paced (ready_var hv), hrule] at heval
  obtain ⟨ys, hys, rfl⟩ := eq_singleton_of_node paced hready heval
  rw [hsplit, Option.bind_eq_some_iff] at hys
  obtain ⟨⟨hs, mid⟩, hhead, hmap⟩ := hys
  obtain ⟨⟨bs, rest'⟩, hfield, heq⟩ := Option.map_eq_some_iff.1 hmap
  cases heq
  rw [hfinal] at hfield
  obtain ⟨bs, hbody, rfl⟩ := exists_of_field paced hready_final hfield
  obtain ⟨b, rfl⟩ := (matches_of_run hbody).lone lone_of_ones h.lone
  have hmid : Sane mid := by
    obtain ⟨used, rfl, -⟩ := (matched_of_eval paced hready_initial hhead).taken
    exact hsane.of_append.2
  have hkind : b.kind = bk := by
    obtain ⟨s, hs, hfits⟩ := fits_of_eval h.conforms hmid hbody b List.mem_cons_self
    rw [h.shapes, List.mem_singleton] at hs
    subst hs
    exact hfits.kind _ rfl
  have hbars := bars_of_begins (begins_of_eval hready_final.part h.opens h.gives hbody) hmid
    (by decide)
  have hfields : ∀ x ∈ hs, x.field ≠ some .body := by
    intro x hx hfield
    obtain ⟨s, hs, hfits⟩ := fits_of_eval hconforms hsane hhead x hx
    exact hparts s hs (hfits.part.symm.trans hfield)
  rw [hinitial] at hready_initial hhead
  obtain ⟨H, rfl, hheader⟩ := header_of_eval hready_initial hwalk hhead hsane hbars
  refine ⟨H, mid, _, b, rfl, rfl, hkind, hbody, hheader, rfl, child?_wrap hfields, ?_⟩
  intro f ts b' rest hsteady hbars' hbody'
  obtain ⟨hs', hmoved, hmoves⟩ := eval_moved_eq_some (charts_heading .bar) hready_initial
    (walk_seq.2 ⟨.base, rfl, hwalk⟩) (hheader.readable hsteady .bar) hbars hbars' hhead
  have hfields' : ∀ x ∈ hs', x.field ≠ some .body := by
    intro x hx hfield
    have hmem : some Field.body ∈ hs'.map Tree.field := hfield ▸ List.mem_map_of_mem hx
    rw [hmoves.fields] at hmem
    obtain ⟨y, hy, hfield'⟩ := List.mem_map.1 hmem
    exact hfields y hy hfield'
  rw [eval_var paced (ready_var hv), hrule, eval_node paced hready, hsplit, hfinal, hinitial, hmoved,
    Option.bind_some, eval_field paced hready_final, hbody']
  exact ⟨_, rfl, rfl, child?_wrap hfields'⟩

/-- The body of a declaration with members. -/
def membersIn (kind : Kind) (ν : Rule Variable) : Rule Variable :=
  .node kind (all [tok "\x7b", .many ν, tok "\x7d"])

theorem hasBody_classDeclaration :
    HasBody .classDeclaration "class" .classDeclaration (.var .classBody) .classBody :=
  ⟨rfl, by decide, rfl, rfl, rfl, rfl, _, _, rfl, rfl, rfl, rfl, by decide, by decide,
    by decide, by decide, by decide⟩

theorem hasBody_recordDeclaration :
    HasBody .recordDeclaration "record" .recordDeclaration (.var .classBody) .classBody :=
  ⟨rfl, by decide, rfl, rfl, rfl, rfl, _, _, rfl, rfl, rfl, rfl, by decide, by decide,
    by decide, by decide, by decide⟩

theorem hasBody_interfaceDeclaration :
    HasBody .interfaceDeclaration "interface" .interfaceDeclaration
      (membersIn .interfaceBody interfaceMember) .interfaceBody :=
  ⟨rfl, by decide, rfl, rfl, rfl, rfl, _, _, rfl, rfl, rfl, rfl, by decide, by decide,
    by decide, by decide, by decide⟩

/-- The constants of an enumeration. -/
def constants : Rule Variable :=
  sepBy (tok ",") <| .node .enumConstant <| all
    [opt (.var .modifiers), .field .name anyName,
      opt (.field .arguments (.var .arguments)), opt (.field .body (.var .classBody))]

/-- The members of an enumeration. -/
def enumMembers : Rule Variable :=
  .node .enumBodyDeclarations (.seq (tok ";") (.many (.var .classMember)))

/-- The body of an enumeration. -/
def enumBody : Rule Variable :=
  .node .enumBody (all [tok "\x7b", constants, opt (tok ","), opt enumMembers, tok "\x7d"])

theorem hasBody_enumDeclaration :
    HasBody .enumDeclaration "enum" .enumDeclaration enumBody .enumBody :=
  ⟨rfl, by decide, rfl, rfl, rfl, rfl, _, _, rfl, rfl, rfl, rfl, by decide,
    by decide, by decide, by decide, by decide⟩

end Grammar

end Testwright.Java
