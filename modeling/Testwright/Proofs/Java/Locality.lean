import Mathlib.Data.List.Chain
import Testwright.Proofs.Java.Brackets
import Testwright.Proofs.Java.Moving

/-!
# What a match depends on

Where a policy can go no further, a rule that keeps to it does not look. So whether the rule matches and
which tokens it takes depends on the tokens before only (`Rule.follows_eval`): neither on what stands
behind nor on the places of the tokens, except that what was next to each other has to stay so.
-/

namespace Testwright.Java

/-- Next to each other are the same tokens at both places. -/
def Steady (f : Nat → Nat) (ts : List Token) : Prop :=
  ts.IsChain fun a b => f b.start = f a.stop ↔ b.start = a.stop

theorem Steady.of_append {f : Nat → Nat} {ts us : List Token} (h : Steady f (ts ++ us)) :
    Steady f ts ∧ Steady f us :=
  ⟨h.left_of_append, h.right_of_append⟩

theorem steady_id (ts : List Token) : Steady id ts :=
  (List.pairwise_of_forall fun _ _ => Iff.rfl).isChain

theorem map_move_id (ts : List Token) : ts.map (Token.move id) = ts := List.map_id ts

/-- A policy cannot go on from a level with some tokens. -/
def Policy.Bars (p : Policy) (q : Level) (ts : List Token) : Prop :=
  ∀ t ∈ ts.head?, p.turn q t.mark = none

theorem Policy.bars_done (p : Policy) (ts : List Token) : p.Bars .done ts := fun _ _ => rfl

namespace Policy.Bars

variable {p : Policy} {q q' : Level} {s : String} {t : Token} {ts : List Token}

theorem not_isPiece (h : p.Bars q (t :: ts)) (hturn : p.turn q s = some q') :
    Rule.isPiece s t = false := by
  have hnone : p.turn q t.mark = none := h t rfl
  have hempty : p.turn q "" ≠ none := Policy.turn_empty_ne_none (by rintro rfl; cases hturn)
  unfold Rule.isPiece
  split
  · next hword => exact absurd (by simpa [Token.mark, hword] using hnone) hempty
  · next hsymbol =>
    refine beq_false_of_ne fun htext => ?_
    rw [Token.mark, hsymbol, htext, hturn] at hnone
    cases hnone
  · rfl

theorem takePieces {pos : Nat} {pieces : List String} (h : p.Bars q ts) (hturn : p.turn q s = some q') :
    Rule.takePieces pos (s :: pieces) ts = none := by
  cases ts with
  | nil => rfl
  | cons t ts => simp [Rule.takePieces, h.not_isPiece hturn]

theorem takeLeaf {kind : Kind} (h : p.Bars q ts) (hturn : p.turn q s = some q') :
    Rule.takeLeaf kind s ts = none := by
  cases ts with
  | nil => rfl
  | cons t ts => simp [Rule.takeLeaf, h.not_isPiece hturn]

theorem symbol (h : p.Bars q (t :: ts)) (hturn : p.turn q "" = some q') : t.lexeme = .symbol := by
  have hnone : p.turn q t.mark = none := h t rfl
  unfold Token.mark at hnone
  split at hnone
  · next hsymbol => exact hsymbol
  · rw [hturn] at hnone
    cases hnone

theorem takeName {kind : Kind} {except : List String} (h : p.Bars q ts)
    (hturn : p.turn q "" = some q') : Rule.takeName kind except ts = none := by
  cases ts with
  | nil => rfl
  | cons t ts => simp [Rule.takeName, h.symbol hturn]

theorem takeLiteral (h : p.Bars q ts) (hturn : p.turn q "" = some q') :
    Rule.takeLiteral ts = none := by
  cases ts with
  | nil => rfl
  | cons t ts => simp [Rule.takeLiteral, h.symbol hturn]

end Policy.Bars

/-- Tokens that can be read from a level to another one, and that keep next to each other. -/
structure Readable (p : Policy) (f : Nat → Nat) (q last : Level) (ts : List Token) : Prop where
  levels : p.levels q ts = some last
  steady : Steady f ts
  sane : Sane ts

/-- Two matches at different places and before different tokens fare alike: both fail, or both take the
same tokens and make trees in the same way. -/
inductive Follows (p : Policy) (f : Nat → Nat) (q q' : Level) (ts us us' : List Token) :
    Option (List Tree × List Token) → Option (List Tree × List Token) → Prop
  | fails : Follows p f q q' ts us us' none none
  | takes {xs xs' used rest} (split : ts = used ++ rest) (levels : p.levels q used = some q')
    (moves : Moves f xs xs') :
    Follows p f q q' ts us us' (some (xs, rest ++ us)) (some (xs', rest.map (Token.move f) ++ us'))

section
variable {p : Policy} {f : Nat → Nat} {q mid q' last : Level} {ts us us' used rest : List Token}
  {r r' : Option (List Tree × List Token)} {xs xs' : List Tree}

theorem Readable.drop (h : Readable p f q last (used ++ rest)) (hused : p.levels q used = some mid) :
    Readable p f mid last rest where
  levels := by simpa [Policy.levels_append, hused] using h.levels
  steady := h.steady.of_append.2
  sane := h.sane.of_append.2

namespace Follows

theorem stay (moves : Moves f xs xs') :
    Follows p f q q ts us us' (some (xs, ts ++ us)) (some (xs', ts.map (Token.move f) ++ us')) :=
  .takes (List.nil_append ts).symm rfl moves

theorem single {t : Token} (kind : Kind) (h : p.turn q t.mark = some q') :
    Follows p f q q' (t :: ts) us us' (some ([.ofToken kind t], ts ++ us))
      (some ([.ofToken kind (t.move f)], ts.map (Token.move f) ++ us')) :=
  .takes List.singleton_append.symm (Policy.levels_singleton.trans h) (.leaf kind t.start t.stop)

theorem behind (hused : p.levels q used = some mid) (h : Follows p f mid q' rest us us' r r') :
    Follows p f q q' (used ++ rest) us us' r r' := by
  cases h with
  | fails => exact .fails
  | @takes _ _ taken back split levels moves =>
    have hsplit : used ++ rest = used ++ taken ++ back := by rw [split, List.append_assoc]
    exact .takes hsplit (by simp [Policy.levels_append, hused, levels]) moves

theorem map (g g' : List Tree → List Tree)
    (hg : ∀ xs xs', Moves f xs xs' → Moves f (g xs) (g' xs'))
    (h : Follows p f q q' ts us us' r r') :
    Follows p f q q' ts us us' (r.map fun found => (g found.1, found.2))
      (r'.map fun found => (g' found.1, found.2)) := by
  cases h with
  | fails => exact .fails
  | takes split levels moves => exact .takes split levels (hg _ _ moves)

/-- A match after another one. -/
theorem after (moves : Moves f xs xs') (hsplit : ts = used ++ rest)
    (hused : p.levels q used = some mid) (h : Follows p f mid q' rest us us' r r') :
    Follows p f q q' ts us us' (r.map (Rule.andThen xs)) (r'.map (Rule.andThen xs')) := by
  subst hsplit
  exact (h.map (xs ++ ·) (xs' ++ ·) fun ys ys' hys => moves.append hys).behind hused

theorem bind {b b' : List Token → Option (List Tree × List Token)}
    (h : Follows p f q mid ts us us' r r')
    (hb : ∀ used rest, ts = used ++ rest → p.levels q used = some mid →
      Follows p f mid q' rest us us' (b (rest ++ us)) (b' (rest.map (Token.move f) ++ us'))) :
    Follows p f q q' ts us us' (r.bind fun found => (b found.2).map (Rule.andThen found.1))
      (r'.bind fun found => (b' found.2).map (Rule.andThen found.1)) := by
  cases h with
  | fails => exact .fails
  | takes split levels moves => exact (hb _ _ split levels).after moves split levels

theorem or {a a' : Option (List Tree × List Token)} (h : Follows p f q q' ts us us' r r')
    (ha : Follows p f q q' ts us us' a a') : Follows p f q q' ts us us' (r.or a) (r'.or a') := by
  cases h with
  | fails => exact ha
  | takes split levels moves => exact .takes split levels moves

theorem eq_none (h : Follows p f q q' ts us us' none r') : r' = none := by
  cases h
  rfl

theorem eq_some (h : Follows p f q q' ts us us' (some (xs, rest)) r') :
    ∃ used back xs', ts = used ++ back ∧ p.levels q used = some q' ∧ rest = back ++ us ∧
      r' = some (xs', back.map (Token.move f) ++ us') ∧ Moves f xs xs' := by
  cases h with
  | takes split levels moves => exact ⟨_, _, _, split, levels, rfl, rfl, moves⟩

theorem isSome_eq (h : Follows p f q q' ts us us' r r') : r'.isSome = r.isSome := by
  cases h <;> rfl

end Follows

end

namespace Rule

variable {ν : Type} {p : Policy} {effect : ν → Option Level} {grammar : ν → Rule ν} {f : Nat → Nat}
  {q q' last : Level} {ts us us' : List Token}

theorem follows_takePieces (hbars : p.Bars last us) (hbars' : p.Bars last us') {pieces : List String}
    {pos : Nat} (hwalk : pieces.foldlM p.turn q = some q') (h : Readable p f q last ts)
    (hpos : ∀ t ∈ ts.head?, f t.start = f pos ↔ t.start = pos) :
    (takePieces pos pieces (ts ++ us) = none ∧
      takePieces (f pos) pieces (ts.map (Token.move f) ++ us') = none) ∨
    ∃ stop used rest, ts = used ++ rest ∧ p.levels q used = some q' ∧
      takePieces pos pieces (ts ++ us) = some (stop, rest ++ us) ∧
      takePieces (f pos) pieces (ts.map (Token.move f) ++ us') =
        some (f stop, rest.map (Token.move f) ++ us') := by
  induction pieces generalizing pos q ts with
  | nil => exact .inr ⟨pos, [], ts, rfl, hwalk, rfl, rfl⟩
  | cons s pieces ih =>
    rw [List.foldlM_cons, Option.bind_eq_bind, Option.bind_eq_some_iff] at hwalk
    obtain ⟨mid, hturn, hwalk⟩ := hwalk
    cases ts with
    | nil =>
      cases h.levels
      exact .inl ⟨hbars.takePieces hturn, hbars'.takePieces hturn⟩
    | cons t ts =>
      have hstart : (f t.start == f pos) = (t.start == pos) := by
        rw [Bool.eq_iff_iff, beq_iff_eq, beq_iff_eq]
        exact hpos t rfl
      have hmoved : takePieces (f pos) (s :: pieces) ((t :: ts).map (Token.move f) ++ us') =
          if isPiece s t && t.start == pos then
            takePieces (f t.stop) pieces (ts.map (Token.move f) ++ us') else none := by
        rw [← hstart]
        rfl
      rw [hmoved, List.cons_append, takePieces]
      split
      · next hpiece =>
        have hfirst : p.turn q t.mark = some mid :=
          (Policy.turn_of_isPiece (Bool.and_eq_true_iff.1 hpiece).1 (h.sane t List.mem_cons_self)).trans
            hturn
        have hone : p.levels q [t] = some mid := Policy.levels_singleton.trans hfirst
        have hrest : Readable p f mid last ts :=
          Readable.drop (show Readable p f q last ([t] ++ ts) from h) hone
        have hnext : ∀ u ∈ ts.head?, f u.start = f t.stop ↔ u.start = t.stop := by
          cases ts with
          | nil => nofun
          | cons u ts =>
            intro _ hu
            cases hu
            exact (List.isChain_cons_cons.1 h.steady).1
        rcases ih hwalk hrest hnext with hfails | ⟨stop, used, rest, rfl, hlevels, htakes⟩
        · exact .inl hfails
        · exact .inr ⟨stop, t :: used, rest, rfl, by rw [Policy.levels_cons, hfirst]; exact hlevels,
            htakes⟩
      · exact .inl ⟨rfl, rfl⟩

theorem takeToken_eq_none {pieces : List String}
    (h : ∀ {pos}, takePieces pos pieces ts = none) : takeToken pieces ts = none := by
  cases ts with
  | nil => rfl
  | cons t ts => simp [takeToken, h]

theorem follows_takeToken (hbars : p.Bars last us) (hbars' : p.Bars last us') {pieces : List String}
    (hne : pieces ≠ []) (hwalk : pieces.foldlM p.turn q = some q') (h : Readable p f q last ts) :
    Follows p f q q' ts us us' (takeToken pieces (ts ++ us))
      (takeToken pieces (ts.map (Token.move f) ++ us')) := by
  cases ts with
  | nil =>
    obtain ⟨s, pieces, rfl⟩ := List.exists_cons_of_ne_nil hne
    cases h.levels
    rw [List.foldlM_cons, Option.bind_eq_bind, Option.bind_eq_some_iff] at hwalk
    obtain ⟨mid, hturn, -⟩ := hwalk
    rw [List.nil_append, List.map_nil, List.nil_append, takeToken_eq_none (hbars.takePieces hturn),
      takeToken_eq_none (hbars'.takePieces hturn)]
    exact .fails
  | cons t ts =>
    have hpos : ∀ u ∈ (t :: ts).head?, f u.start = f t.start ↔ u.start = t.start := by
      intro u hu
      cases hu
      exact iff_of_true rfl rfl
    show Follows _ _ _ _ _ _ _ (Option.map _ (takePieces t.start pieces (t :: ts ++ us)))
      (Option.map _ (takePieces (f t.start) pieces ((t :: ts).map (Token.move f) ++ us')))
    rcases follows_takePieces hbars hbars' hwalk h hpos with
      ⟨hnone, hnone'⟩ | ⟨stop, used, rest, hsplit, hused, hsome, hsome'⟩
    · rw [hnone, hnone']
      exact .fails
    · rw [hsome, hsome']
      exact .takes hsplit hused (.leaf _ t.start stop)

theorem follows_takeLeaf (hbars : p.Bars last us) (hbars' : p.Bars last us') {kind : Kind} {text : String}
    (hwalk : p.turn q text = some q') (h : Readable p f q last ts) :
    Follows p f q q' ts us us' (takeLeaf kind text (ts ++ us))
      (takeLeaf kind text (ts.map (Token.move f) ++ us')) := by
  cases ts with
  | nil =>
    cases h.levels
    rw [List.nil_append, List.map_nil, List.nil_append, hbars.takeLeaf hwalk, hbars'.takeLeaf hwalk]
    exact .fails
  | cons t ts =>
    have hfirst := h.sane t List.mem_cons_self
    show Follows _ _ _ _ _ _ _ (if isPiece text t then _ else _) (if isPiece text t then _ else _)
    split
    · next hpiece => exact .single kind ((Policy.turn_of_isPiece hpiece hfirst).trans hwalk)
    · exact .fails

theorem follows_takeName (hbars : p.Bars last us) (hbars' : p.Bars last us') {kind : Kind}
    {except : List String} (hwalk : p.turn q "" = some q') (h : Readable p f q last ts) :
    Follows p f q q' ts us us' (takeName kind except (ts ++ us))
      (takeName kind except (ts.map (Token.move f) ++ us')) := by
  cases ts with
  | nil =>
    cases h.levels
    rw [List.nil_append, List.map_nil, List.nil_append, hbars.takeName hwalk, hbars'.takeName hwalk]
    exact .fails
  | cons t ts =>
    show Follows _ _ _ _ _ _ _ (if t.lexeme = .word ∧ t.text ∉ except then _ else _)
      (if t.lexeme = .word ∧ t.text ∉ except then _ else _)
    split
    · next hword => exact .single kind (by rwa [Token.mark, hword.1])
    · exact .fails

theorem follows_takeLiteral (hbars : p.Bars last us) (hbars' : p.Bars last us')
    (hwalk : p.turn q "" = some q') (h : Readable p f q last ts) :
    Follows p f q q' ts us us' (takeLiteral (ts ++ us)) (takeLiteral (ts.map (Token.move f) ++ us')) := by
  cases ts with
  | nil =>
    cases h.levels
    rw [List.nil_append, List.map_nil, List.nil_append, hbars.takeLiteral hwalk,
      hbars'.takeLiteral hwalk]
    exact .fails
  | cons t ts =>
    have hmoved : (t.move f).lexeme = t.lexeme := rfl
    simp only [List.map_cons, List.cons_append, takeLiteral, hmoved]
    split
    · next hliteral => exact .single _ (by rwa [Token.mark, hliteral])
    · exact .fails

/-- What a step finds, as a list of one tree. -/
def alone (found : Tree × List Token) : List Tree × List Token := ([found.1], found.2)

theorem runFold_eq (n : Nat) (steps : List (Step ν)) (t : Tree) (ts : List Token) :
    some (runFold grammar (n + 1) steps t ts) =
      match (runStep grammar n steps t ts).map alone with
      | some ([u], rest) => some (runFold grammar n steps u rest)
      | _ => some ([t], ts) := by
  rw [runFold_succ]
  cases runStep grammar n steps t ts <;> rfl

theorem alone_runStep_cons (n : Nat) (rule : Rule ν) (steps : List (Step ν)) (t : Tree)
    (ts : List Token) (on : List Kind) (kind : Kind) (left : Option Field) :
    (runStep grammar (n + 1) (.mk on kind left rule :: steps) t ts).map alone =
      ((if on.isEmpty || on.contains t.kind then run grammar n rule ts else none).map fun found =>
        ([stepTree kind left t found.1], found.2)).or ((runStep grammar n steps t ts).map alone) := by
  rw [runStep_cons, Option.map_or, Option.map_map]
  rfl

/-- All rules and steps that keep to a policy fare alike; the induction is on the fuel, which rules and
steps share. -/
theorem follows_of_fuel (hcharts : p.Charts effect grammar) (hbars : p.Bars last us)
    (hbars' : p.Bars last us') (n : Nat) :
    (∀ {rule q q' ts}, rule.walk p effect q = some q' → Readable p f q last ts →
      Follows p f q q' ts us us' (run grammar n rule (ts ++ us))
        (run grammar n rule (ts.map (Token.move f) ++ us'))) ∧
    (∀ {steps q t t' ts}, walkSteps p effect steps q = true → Readable p f q last ts → Moves f [t] [t'] →
      Follows p f q q ts us us' (some (runFold grammar n steps t (ts ++ us)))
        (some (runFold grammar n steps t' (ts.map (Token.move f) ++ us')))) ∧
    (∀ {steps q t t' ts}, walkSteps p effect steps q = true → Readable p f q last ts → Moves f [t] [t'] →
      Follows p f q q ts us us' ((runStep grammar n steps t (ts ++ us)).map alone)
        ((runStep grammar n steps t' (ts.map (Token.move f) ++ us')).map alone)) := by
  induction n with
  | zero => exact ⟨fun _ _ => .fails, fun _ _ htree => .stay htree, fun _ _ _ => .fails⟩
  | succ n ih =>
    obtain ⟨ihRun, ihFold, ihStep⟩ := ih
    refine ⟨fun {rule q q' ts} hwalk h => ?_, fun {steps q t t' ts} hwalk h htree => ?_,
      fun {steps q t t' ts} hwalk h htree => ?_⟩
    · cases rule with
      | empty =>
        cases hwalk
        exact .stay .nil
      | token pieces =>
        cases pieces with
        | nil => cases hwalk
        | cons s pieces => exact follows_takeToken hbars hbars' (List.cons_ne_nil s pieces) hwalk h
      | leaf kind text => exact follows_takeLeaf hbars hbars' hwalk h
      | name kind except => exact follows_takeName hbars hbars' hwalk h
      | literal => exact follows_takeLiteral hbars hbars' hwalk h
      | seq a b =>
        obtain ⟨mid, hwalk_a, hwalk_b⟩ := walk_seq.1 hwalk
        rw [run_seq, run_seq]
        refine (ihRun hwalk_a h).bind fun used rest hsplit hused => ?_
        subst hsplit
        exact ihRun hwalk_b (h.drop hused)
      | alt a b =>
        obtain ⟨hwalk_a, hwalk_b⟩ := walk_alt.1 hwalk
        rw [run_alt, run_alt]
        exact (ihRun hwalk_a h).or (ihRun hwalk_b h)
      | many a =>
        obtain ⟨rfl, hwalk_a⟩ := walk_many.1 hwalk
        have ha := ihRun hwalk_a h
        rw [run_many, run_many]
        generalize run grammar n a (ts ++ us) = r at ha
        generalize run grammar n a (ts.map (Token.move f) ++ us') = r' at ha
        cases ha with
        | fails => exact .stay .nil
        | takes split levels moves =>
          subst split
          exact (ihRun hwalk (h.drop levels)).after moves rfl levels
      | node kind a =>
        have ha : Follows p f q q' ts us us' (run grammar n a (ts ++ us))
            (run grammar n a (ts.map (Token.move f) ++ us')) := ihRun hwalk h
        rw [run_node, run_node]
        exact ha.map (fun xs => [wrap kind xs]) (fun xs => [wrap kind xs]) fun _ _ hxs => .node kind hxs
      | field part a =>
        have ha : Follows p f q q' ts us us' (run grammar n a (ts ++ us))
            (run grammar n a (ts.map (Token.move f) ++ us')) := ihRun hwalk h
        rw [run_field, run_field]
        exact ha.map (List.map (Tree.withField part)) (List.map (Tree.withField part))
          fun _ _ hxs => .field part hxs
      | ahead a =>
        obtain ⟨rfl, q₁, hwalk_a⟩ := walk_ahead.1 hwalk
        have ha := ihRun hwalk_a h
        rw [run_ahead, run_ahead]
        generalize run grammar n a (ts ++ us) = r at ha
        generalize run grammar n a (ts.map (Token.move f) ++ us') = r' at ha
        cases ha with
        | fails => exact .fails
        | takes => exact .stay .nil
      | notAhead a =>
        obtain ⟨rfl, q₁, hwalk_a⟩ := walk_notAhead.1 hwalk
        rw [run_notAhead, run_notAhead, (ihRun hwalk_a h).isSome_eq]
        split
        · exact .fails
        · exact .stay .nil
      | var v =>
        rw [run_var, run_var]
        refine ihRun ?_ h
        cases q with
        | base => exact hcharts.base v q' hwalk
        | inside close depth =>
          cases hwalk
          exact hcharts.inside v close depth
        | done => cases hwalk
      | fold base steps =>
        obtain ⟨hwalk_base, hwalk_steps⟩ := walk_fold.1 hwalk
        have hbase := ihRun hwalk_base h
        rw [run_fold, run_fold]
        generalize run grammar n base (ts ++ us) = r at hbase
        generalize run grammar n base (ts.map (Token.move f) ++ us') = r' at hbase
        cases hbase with
        | fails => exact .fails
        | @takes xs xs' used rest split levels moves =>
          subst split
          rcases xs with - | ⟨t, - | ⟨u, xs⟩⟩ <;> rcases xs' with - | ⟨t', - | ⟨u', xs'⟩⟩ <;>
            first
              | exact (ihFold hwalk_steps (h.drop levels) moves).behind levels
              | exact .fails
              | exact absurd (congrArg List.length moves.kinds) (by simp)
    · rw [runFold_eq, runFold_eq]
      have hstep := ihStep hwalk h htree
      generalize (runStep grammar n steps t (ts ++ us)).map alone = r at hstep
      generalize (runStep grammar n steps t' (ts.map (Token.move f) ++ us')).map alone = r' at hstep
      cases hstep with
      | fails => exact .stay htree
      | @takes xs xs' used rest split levels moves =>
        subst split
        rcases xs with - | ⟨u, - | ⟨v, xs⟩⟩ <;> rcases xs' with - | ⟨u', - | ⟨v', xs'⟩⟩ <;>
          first
            | exact (ihFold hwalk (h.drop levels) moves).behind levels
            | exact .stay htree
            | exact absurd (congrArg List.length moves.kinds) (by simp)
    · rcases steps with - | ⟨⟨on, kind, left, rule⟩, steps⟩
      · exact .fails
      · obtain ⟨hwalk_rule, hwalk_steps⟩ := Bool.and_eq_true_iff.1 hwalk
        rw [alone_runStep_cons, alone_runStep_cons, htree.kind_eq]
        refine Follows.or ?_ (ihStep hwalk_steps h htree)
        split
        · exact (ihRun (of_decide_eq_true hwalk_rule) h).map (fun xs => [stepTree kind left t xs])
            (fun xs => [stepTree kind left t' xs]) fun _ _ hxs => .node kind (.cons left htree hxs)
        · exact .fails

section
variable {known : Known ν} {cost : ν → Nat} {rule : Rule ν} {rest : List Token} {xs : List Tree}

theorem crosses_of_eval (hcharts : p.Charts effect grammar) (h : eval grammar rule ts = some (xs, rest))
    (hwalk : rule.walk p effect q = some q') (hsane : Sane ts) : p.Crosses q q' ts rest :=
  (matches_of_run h).crosses hcharts hwalk hsane

/-- A rule that keeps to a policy fares alike at different places and before different tokens. -/
theorem follows_eval (hpaced : known.Paced cost grammar) (hready : rule.Ready known cost)
    (hcharts : p.Charts effect grammar) (hwalk : rule.walk p effect q = some q')
    (h : Readable p f q last ts) (hbars : p.Bars last us) (hbars' : p.Bars last us') :
    Follows p f q q' ts us us' (eval grammar rule (ts ++ us))
      (eval grammar rule (ts.map (Token.move f) ++ us')) := by
  have hdepth := hready.depth
  have hfollows := (follows_of_fuel hcharts hbars hbars'
    (256 * (ts ++ us).length + 256 * (ts.map (Token.move f) ++ us').length + 256)).1 hwalk h
  rwa [run_eq_eval hpaced hready (by omega), run_eq_eval hpaced hready (by omega)] at hfollows

end

end Rule

end Testwright.Java
