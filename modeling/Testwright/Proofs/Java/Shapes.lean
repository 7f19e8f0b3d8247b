import Testwright.Proofs.Java.Matching
import Testwright.Proofs.Java.Parsing

/-!
# The shapes of children

A `Shape` is what a rule tells of a tree: its kind, if there is only one, and the part it plays.
`Rule.shapes` lists the shapes of the trees of a match, and `Rule.conforms` checks that around trees of
these shapes stand only nodes of kinds that allow them. For a grammar that conforms, every node of every
match has children of allowed shapes (`Rule.Matches.formed`).

The grammar of Java conforms to `Grammar.forms`: what plays the part of a name is an identifier, except
in annotations, modules and patterns. So it is for every tree of the parser, comments apart
(`parse?_formed`).
-/

namespace Testwright.Java

/-- What is known of a tree. -/
structure Shape where
  kind : Option Kind
  part : Option Field
  deriving DecidableEq, Repr

namespace Shape

structure Fits (s : Shape) (t : Tree) : Prop where
  kind : ∀ k ∈ s.kind, t.kind = k
  part : t.field = s.part

/-- A shape tells nothing that another one does not tell. -/
def covers (s s' : Shape) : Bool := s.part == s'.part && (s.kind.isNone || s.kind == s'.kind)

theorem Fits.of_covers {s s' : Shape} {t : Tree} (h : s'.Fits t) (hcovers : s.covers s' = true) :
    s.Fits t := by
  obtain ⟨k, part⟩ := s
  obtain ⟨k', part'⟩ := s'
  simp only [covers, Bool.and_eq_true, Bool.or_eq_true, Option.isNone_iff_eq_none,
    beq_iff_eq] at hcovers
  obtain ⟨rfl, rfl | rfl⟩ := hcovers
  · exact ⟨nofun, h.part⟩
  · exact h

end Shape

/-- What is said of the variables and nodes of a grammar: the shapes of the trees of each variable, and
the shapes that each kind of node allows. -/
structure Forms (ν : Type) where
  shapes : ν → List Shape
  allows : Kind → Shape → Bool

namespace Rule

variable {ν : Type} (forms : Forms ν)

/-- The shapes of the trees of a match. -/
def shapes : Rule ν → List Shape
  | .empty | .ahead _ | .notAhead _ => []
  | .token pieces => [⟨some (.token (String.join pieces)), none⟩]
  | .leaf kind _ | .name kind _ | .node kind _ => [⟨some kind, none⟩]
  | .literal | .fold .. => [⟨none, none⟩]
  | .seq a b | .alt a b => shapes a ++ shapes b
  | .many a => shapes a
  | .field part a => (shapes a).map fun s => ⟨s.kind, some part⟩
  | .var v => forms.shapes v

mutual

/-- Whether all nodes that a rule makes have children of allowed shapes, and none of them is of a kind
that only tokens of another class have. The base of a fold plays no part. -/
def conforms : Rule ν → Bool
  | .empty | .ahead _ | .notAhead _ | .token _ | .literal | .var _ => true
  | .leaf kind _ => kind.lexeme?.isNone
  | .name kind _ => kind.lexeme?.all (· == .word)
  | .seq a b | .alt a b => conforms a && conforms b
  | .many a | .field _ a => conforms a
  | .node kind a => kind.lexeme?.isNone && (shapes forms a).all (forms.allows kind) && conforms a
  | .fold base steps =>
    conforms base && (shapes forms base).all (fun s => s.part.isNone) && conformsSteps steps

def conformsSteps : List (Step ν) → Bool
  | [] => true
  | .mk _ kind left rule :: steps =>
    kind.lexeme?.isNone && forms.allows kind ⟨none, left⟩ &&
      (shapes forms rule).all (forms.allows kind) && conforms rule && conformsSteps steps

end

end Rule

/-- What is said of a grammar is true of its rules. -/
structure Forms.Holds {ν : Type} (forms : Forms ν) (grammar : ν → Rule ν) : Prop where
  conforms : ∀ v, (grammar v).conforms forms = true
  covers : ∀ v, ∀ s ∈ (grammar v).shapes forms, ∃ s' ∈ forms.shapes v, s'.covers s = true

/-! ## Matches -/

/-- The children of a node are comments or of allowed shapes, and a node of a kind that only tokens of
one class have stands for such a token. -/
structure Tree.Formed (allows : Kind → Shape → Bool) (words : List Token) (t : Tree) : Prop where
  children : ∀ c ∈ t.children, (c.kind.isComment = true ∧ c.field = none) ∨
    ∃ s, allows t.kind s = true ∧ s.Fits c
  token : ∀ l ∈ t.kind.lexeme?, ∃ w ∈ words, w.lexeme = l ∧ w.start = t.start ∧ w.stop = t.stop

namespace Rule

variable {ν : Type} {forms : Forms ν} {grammar : ν → Rule ν}

theorem takeToken_eq_some {pieces : List String} {ts rest : List Token} {xs : List Tree}
    (h : takeToken pieces ts = some (xs, rest)) :
    rest <:+ ts ∧ ∃ start stop, xs = [.node (.token (String.join pieces)) none start stop []] := by
  unfold takeToken at h
  split at h
  · cases h
  · next t ts =>
    obtain ⟨⟨stop, rest'⟩, htake, heq⟩ := Option.map_eq_some_iff.1 h
    cases heq
    obtain ⟨used, hsplit, -⟩ := takePieces_eq_some htake
    exact ⟨⟨used, hsplit.symm⟩, _, _, rfl⟩

/-- The tokens behind a match are the last of those it began with. -/
theorem Matches.suffix {rule : Rule ν} {ts rest : List Token} {xs : List Tree}
    (h : Matches grammar rule ts xs rest) : rest <:+ ts := by
  induction h with
  | token taken => exact (takeToken_eq_some taken).1
  | leaf | name | literal => exact List.suffix_cons ..
  | seq _ _ ihFront ihBack => exact ihBack.trans ihFront
  | manyCons _ _ ihFirst ihOthers => exact ihOthers.trans ihFirst
  | step _ _ _ _ ihSofar ihBehind => exact ihBehind.trans ihSofar
  | empty | manyNil | ahead | notAhead => exact List.suffix_rfl
  | altLeft _ ih | altRight _ ih | node _ ih | field _ ih | var _ ih | base _ ih => exact ih

/-- Whether the node that a step makes has children of allowed shapes and no kind of tokens. -/
def stepConforms (forms : Forms ν) : Step ν → Bool
  | .mk _ kind left rule =>
    kind.lexeme?.isNone && forms.allows kind ⟨none, left⟩ &&
      (shapes forms rule).all (forms.allows kind) && rule.conforms forms

theorem conformsSteps_eq_all (steps : List (Step ν)) :
    conformsSteps forms steps = steps.all (stepConforms forms) := by
  induction steps with
  | nil => rfl
  | cons step steps ih =>
    obtain ⟨on, kind, left, rule⟩ := step
    rw [conformsSteps, ih]
    rfl

/-- The trees of a match have the shapes of the rule, and all of their nodes are formed as the grammar
says. -/
theorem Matches.formed (hforms : forms.Holds grammar) {words : List Token}
    (hliteral : ∀ w ∈ words, ∀ kind, w.lexeme = .literal kind → kind.lexeme? = none) {rule : Rule ν}
    {ts rest : List Token} {xs : List Tree} (h : Matches grammar rule ts xs rest) (hrule : rule.conforms forms = true)
    (hts : ∀ w ∈ ts, w ∈ words) :
    ∀ x ∈ xs, (∃ s ∈ rule.shapes forms, s.Fits x) ∧ x.Forall (Tree.Formed forms.allows words) := by
  have behind {ts mid : List Token} (hts : ∀ w ∈ ts, w ∈ words) (h : mid <:+ ts) :
      ∀ w ∈ mid, w ∈ words := fun w hw => hts w (h.mem hw)
  induction h with
  | empty | manyNil | ahead | notAhead => nofun
  | token taken =>
    obtain ⟨-, start, stop, rfl⟩ := takeToken_eq_some taken
    refine List.forall_mem_singleton.2 ⟨⟨_, List.mem_cons_self, by rintro _ ⟨⟩; rfl, rfl⟩, ?_⟩
    exact .node ⟨nofun, nofun⟩ nofun
  | @leaf kind text t ts piece =>
    have hkind : kind.lexeme? = none := by simpa [conforms] using hrule
    refine List.forall_mem_singleton.2 ⟨⟨_, List.mem_cons_self, by rintro _ ⟨⟩; rfl, rfl⟩, ?_⟩
    exact .node ⟨nofun, fun l hl => by cases hkind.symm.trans hl⟩ nofun
  | @name kind except t ts word allowed =>
    refine List.forall_mem_singleton.2 ⟨⟨_, List.mem_cons_self, by rintro _ ⟨⟩; rfl, rfl⟩, ?_⟩
    refine .node ⟨nofun, fun l hl => ⟨t, hts t List.mem_cons_self, ?_, rfl, rfl⟩⟩ nofun
    have hkind : l = .word := by simpa [conforms, show kind.lexeme? = some l from hl] using hrule
    exact word.trans hkind.symm
  | @literal kind t ts literal =>
    have hkind := hliteral t (hts t List.mem_cons_self) kind literal
    refine List.forall_mem_singleton.2 ⟨⟨_, List.mem_cons_self, nofun, rfl⟩, ?_⟩
    exact .node ⟨nofun, fun l hl => by cases hkind.symm.trans hl⟩ nofun
  | seq front back ihFront ihBack =>
    simp only [conforms, Bool.and_eq_true] at hrule
    refine List.forall_mem_append.2 ⟨fun x hx => ?_, fun x hx => ?_⟩
    · obtain ⟨⟨s, hs, hfits⟩, hformed⟩ := ihFront hrule.1 hts x hx
      exact ⟨⟨s, List.mem_append_left _ hs, hfits⟩, hformed⟩
    · obtain ⟨⟨s, hs, hfits⟩, hformed⟩ := ihBack hrule.2 (behind hts front.suffix) x hx
      exact ⟨⟨s, List.mem_append_right _ hs, hfits⟩, hformed⟩
  | altLeft left ih =>
    simp only [conforms, Bool.and_eq_true] at hrule
    intro x hx
    obtain ⟨⟨s, hs, hfits⟩, hformed⟩ := ih hrule.1 hts x hx
    exact ⟨⟨s, List.mem_append_left _ hs, hfits⟩, hformed⟩
  | altRight right ih =>
    simp only [conforms, Bool.and_eq_true] at hrule
    intro x hx
    obtain ⟨⟨s, hs, hfits⟩, hformed⟩ := ih hrule.2 hts x hx
    exact ⟨⟨s, List.mem_append_right _ hs, hfits⟩, hformed⟩
  | manyCons first others ihFirst ihOthers =>
    exact List.forall_mem_append.2 ⟨ihFirst hrule hts, ihOthers hrule (behind hts first.suffix)⟩
  | @node kind a ts rest xs inner ih =>
    simp only [conforms, Bool.and_eq_true, Option.isNone_iff_eq_none, List.all_eq_true] at hrule
    have hxs := ih hrule.2 hts
    refine List.forall_mem_singleton.2 ⟨⟨_, List.mem_cons_self, by rintro _ ⟨⟩; rfl, rfl⟩, ?_⟩
    refine .node ⟨fun c hc => .inr ?_, fun l hl => by cases hrule.1.1.symm.trans hl⟩
      fun c hc => (hxs c hc).2
    obtain ⟨s, hs, hfits⟩ := (hxs c hc).1
    exact ⟨s, hrule.1.2 s hs, hfits⟩
  | field inner ih =>
    intro x hx
    obtain ⟨y, hy, rfl⟩ := List.mem_map.1 hx
    obtain ⟨⟨s, hs, hfits⟩, hformed⟩ := ih hrule hts y hy
    obtain ⟨k, f, start, stop, cs⟩ := y
    refine ⟨⟨_, List.mem_map_of_mem hs, hfits.kind, rfl⟩, ?_⟩
    exact .node ⟨hformed.self.children, hformed.self.token⟩ fun c hc => hformed.of_mem hc
  | @var v ts rest xs inner ih =>
    intro x hx
    obtain ⟨⟨s, hs, hfits⟩, hformed⟩ := ih (hforms.conforms v) hts x hx
    obtain ⟨s', hs', hcovers⟩ := hforms.covers v s hs
    exact ⟨⟨s', hs', hfits.of_covers hcovers⟩, hformed⟩
  | base inner ih =>
    simp only [conforms, Bool.and_eq_true, List.all_eq_true] at hrule
    obtain ⟨⟨s, hs, hfits⟩, hformed⟩ := ih hrule.1.1 hts _ List.mem_cons_self
    have hpart := Option.isNone_iff_eq_none.1 (hrule.1.2 s hs)
    exact List.forall_mem_singleton.2
      ⟨⟨_, List.mem_cons_self, nofun, hfits.part.trans hpart⟩, hformed⟩
  | @step a steps ts mid rest t on kind left rule xs sofar mem applies inner ihSofar ihInner =>
    obtain ⟨⟨s, hs, hfits⟩, hformed⟩ := ihSofar hrule hts t List.mem_cons_self
    simp only [conforms, Bool.and_eq_true] at hrule
    rw [conformsSteps_eq_all] at hrule
    have hstep := List.all_eq_true.1 hrule.2 _ mem
    simp only [stepConforms, Bool.and_eq_true, Option.isNone_iff_eq_none, List.all_eq_true] at hstep
    obtain ⟨⟨⟨hkind, hleft⟩, hallows⟩, hconforms⟩ := hstep
    have hxs := ihInner hconforms (behind hts sofar.suffix)
    cases List.mem_singleton.1 hs
    have hfirst : Shape.Fits ⟨none, left⟩ (left.elim t fun part => t.withField part) ∧
        (left.elim t fun part => t.withField part).Forall (Tree.Formed forms.allows words) := by
      cases left with
      | none => exact ⟨⟨nofun, hfits.part⟩, hformed⟩
      | some part =>
        obtain ⟨k, f, start, stop, cs⟩ := t
        exact ⟨⟨nofun, rfl⟩,
          .node ⟨hformed.self.children, hformed.self.token⟩ fun c hc => hformed.of_mem hc⟩
    refine List.forall_mem_singleton.2 ⟨⟨_, List.mem_cons_self, nofun, rfl⟩, ?_⟩
    refine .node ⟨fun c hc => .inr ?_, fun l hl => by cases hkind.symm.trans hl⟩ fun c hc => ?_
    · rcases List.mem_cons.1 hc with rfl | hc
      · exact ⟨_, hleft, hfirst.1⟩
      · obtain ⟨s, hs, hfits⟩ := (hxs c hc).1
        exact ⟨s, hallows s hs, hfits⟩
    · rcases List.mem_cons.1 hc with rfl | hc
      · exact hfirst.2
      · exact (hxs c hc).2

end Rule

/-! ## The grammar of Java -/

/-- Whether a name in a node of a kind need not be an identifier. -/
def Kind.namesFreely (k : Kind) : Bool :=
  k == .annotationMark || k == .annotationCall || k == .moduleDeclaration

namespace Grammar

open Rule

/-- Nothing is said of the kinds of trees. Only the declarators of a declaration and the parts of one
play a part before their variable does. -/
def forms : Forms Variable where
  shapes
    | .declarators => [⟨none, none⟩, ⟨none, some .declarator⟩]
    | .declaratorId => [⟨some .identifier, some .name⟩, ⟨none, some .dimensions⟩]
    | _ => [⟨none, none⟩]
  allows kind s := s.part != some .name || s.kind == some .identifier || kind.namesFreely

theorem conformsSteps_operatorSteps (label : Bool) (min : Nat) :
    conformsSteps forms (operatorSteps label min) = true := by
  simp only [conformsSteps_eq_all, operatorSteps, List.all_append, List.all_map, Bool.and_eq_true]
  refine ⟨⟨⟨?_, ?_⟩, ?_⟩, ?_⟩
  · split <;> rfl
  · split <;> decide
  · exact List.all_eq_true.2 fun _ _ => rfl
  · split <;> rfl

theorem holds_forms : forms.Holds grammar where
  conforms v := by
    cases v with
    | expression label min =>
      exact Bool.and_eq_true_iff.2 ⟨rfl, conformsSteps_operatorSteps label min⟩
    | operand label => cases label <;> decide
    | _ => decide
  covers v := by
    cases v with
    | expression label min => exact List.forall_mem_singleton.2 ⟨_, List.mem_cons_self, rfl⟩
    | operand label => cases label <;> decide
    | _ => decide

end Grammar

/-! ## Trees of the parser -/

namespace Tree

variable {allows : Kind → Shape → Bool} {words : List Token} {c t u : Tree}

/-- A node stays formed when a comment is put into it. -/
theorem Formed.insertInto (hc : c.kind.isComment = true ∧ c.field = none)
    (h : t.Formed allows words) : (insertInto c t).Formed allows words := by
  refine ⟨fun v hv => ?_, by simpa using h.token⟩
  rw [children_insertInto] at hv
  rw [kind_insertInto]
  rcases mem_insertAmong_cases hv with rfl | hv | ⟨u, hu, -, -, rfl⟩
  · exact .inl hc
  · exact h.children v hv
  · rw [kind_insertInto, field_insertInto]
    refine (h.children u hu).imp_right fun ⟨s, hs, hfits⟩ => ⟨s, hs, ?_, ?_⟩
    · simpa using hfits.kind
    · simpa using hfits.part

theorem forall_formed_insertInto (hc : c.kind.isComment = true ∧ c.field = none)
    (hself : c.Forall (Formed allows words)) (h : t.Forall (Formed allows words)) :
    (insertInto c t).Forall (Formed allows words) :=
  Forall.insertInto h (fun _ hu => hu.insertInto hc) hself

/-- The name of a declaration is a word. -/
theorem Formed.exists_word {decl name : Tree} (h : decl.Forall (Formed Grammar.forms.allows words))
    (hkind : decl.kind.namesFreely = false) (hname : decl.child? .name = some name) :
    ∃ w ∈ words, w.lexeme = .word ∧ w.start = name.start ∧ w.stop = name.stop := by
  have hmem : name ∈ decl.children := List.mem_of_find?_eq_some hname
  have hfield : name.field = some .name := by simpa using List.find?_some hname
  have hidentifier : name.kind = .identifier := by
    rcases h.self.children name hmem with ⟨-, hnone⟩ | ⟨s, hallowed, hfits⟩
    · rw [hnone] at hfield
      cases hfield
    · have hpart : s.part = some .name := hfits.part.symm.trans hfield
      have hshape : s.kind = some .identifier := by
        simpa [Grammar.forms, hpart, hkind] using hallowed
      exact hfits.kind _ hshape
  exact (h.of_mem hmem).self.token .word (by rw [hidentifier]; rfl)

end Tree

/-- What the parser does: it matches the whole program and puts the comments into the tree. -/
theorem parse?_eq_some {source : List Char} {root : Tree} (h : parse? source = some root) :
    ∃ ts start stop xs, tokens? source = some ts ∧
      Rule.Matches grammar (.var .program) (ts.filter (not ∘ Token.isComment))
        [.node .program none start stop xs] [] ∧
      root = (ts.filter Token.isComment).foldl (fun t c => (parse?.ofComment c).insertInto t)
        (.node .program none 0 source.length xs) := by
  unfold parse? at h
  split at h
  · cases h
  · next ts htokens =>
    rw [List.partition_eq_filter_filter] at h
    simp only at h
    split at h
    · next t hrun =>
      cases h
      obtain ⟨xs, rfl, -⟩ := run_program hrun
      exact ⟨ts, _, _, xs, htokens, Rule.matches_of_run hrun, rfl⟩
    · cases h

/-- The nodes of the tree of a text are formed as the grammar says. -/
theorem parse?_formed {source : List Char} {root : Tree} (h : parse? source = some root) :
    ∃ ts, tokens? source = some ts ∧ root.Forall (Tree.Formed Grammar.forms.allows ts) := by
  obtain ⟨ts, start, stop, xs, htokens, hmatches, rfl⟩ := parse?_eq_some h
  have hsuits := tokens?_suits htokens
  have hliteral : ∀ w ∈ ts, ∀ kind, w.lexeme = .literal kind → kind.lexeme? = none := by
    intro w hw kind hlexeme
    have hkinds : ∀ kind ∈ literalKinds, kind.lexeme? = none := by decide
    have hsuits_w := hsuits w hw
    rw [hlexeme] at hsuits_w
    exact hkinds kind hsuits_w
  have hprogram := (hmatches.formed Grammar.holds_forms hliteral rfl
    (fun w hw => (List.mem_filter.1 hw).1) _ List.mem_cons_self).2
  have hroot : (Tree.node .program none 0 source.length xs).Forall
      (Tree.Formed Grammar.forms.allows ts) :=
    .node ⟨hprogram.self.children, fun l hl => by cases hl⟩ fun c hc => hprogram.of_mem hc
  refine ⟨ts, htokens, List.foldlRecOn _ _ hroot fun t ht c hc => ?_⟩
  obtain ⟨hc, hcomment⟩ := List.mem_filter.1 hc
  obtain ⟨kind, hlexeme, hkind⟩ : ∃ kind, c.lexeme = .comment kind ∧ kind.isComment = true := by
    have hsuits_c := hsuits c hc
    unfold Token.isComment at hcomment
    split at hcomment
    · next kind hlexeme =>
      rw [hlexeme] at hsuits_c
      exact ⟨kind, hlexeme, hsuits_c⟩
    · cases hcomment
  have hleaf : parse?.ofComment c = .node kind none c.start c.stop [] := by
    rw [parse?.ofComment, hlexeme]
    rfl
  rw [hleaf]
  have hformed : Tree.Forall (Tree.Formed Grammar.forms.allows ts) (.node kind none c.start c.stop []) := by
    refine Tree.Forall.iff.2
      ⟨⟨by simp [Tree.children], fun l hl => ⟨c, hc, ?_, rfl, rfl⟩⟩, by simp [Tree.children]⟩
    rw [hlexeme, ← Option.some.inj ((Kind.lexeme?_of_isComment hkind).symm.trans hl)]
  exact Tree.forall_formed_insertInto ⟨hkind, rfl⟩ hformed ht

end Testwright.Java
