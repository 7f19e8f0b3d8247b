import Testwright.Proofs.Java.Fuel
import Testwright.Proofs.Java.Lexing

/-!
# Brackets

A `Policy` reads tokens one by one and keeps track of the brackets that are open; outside of all
brackets it may bar semicolons or blocks, or end with them. `Rule.walk` says how a rule moves through
these levels, whatever it matches, so every match of a rule is a text of that form
(`Rule.Matches.crosses`).

Where a policy can go no further, a rule that follows it does not look. So how the rule matches depends
only on the tokens before (`Rule.follows_eval`): not on what stands behind, and on the places of
tokens only as far as these are next to each other.
-/

namespace Testwright.Java

/-- How far the brackets are open at which a text began, and whether the text ends when they close. -/
inductive Level where
  | base
  | inside (last : Bool) (depth : Nat)
  | done
  deriving DecidableEq, Repr

/-- What a semicolon or a brace outside of all brackets does to a text. -/
inductive Stance where
  | pass
  | bar
  | finish
  deriving DecidableEq, Repr

/-- What becomes of a text with a semicolon or with a block outside of all brackets. -/
structure Policy where
  semicolon : Stance
  block : Stance
  deriving DecidableEq, Repr

def openers : List String := ["(", "[", "\x7b"]

def closers : List String := [")", "]", "\x7d"]

/-- The symbols that count for policies. -/
def marks : List String := ";" :: openers ++ closers

namespace Policy

/-- The level after one more word or symbol, if it is allowed. -/
def turn (p : Policy) : Level → String → Option Level
  | .done, _ => none
  | .base, s =>
    if s = ";" then
      match p.semicolon with
      | .pass => some .base
      | .bar => none
      | .finish => some .done
    else if s = "\x7b" then
      match p.block with
      | .pass => some (.inside false 0)
      | .bar => none
      | .finish => some (.inside true 0)
    else if s ∈ openers then some (.inside false 0)
    else if s ∈ closers then none
    else some .base
  | .inside last depth, s =>
    if s ∈ openers then some (.inside last (depth + 1))
    else if s ∈ closers then
      match depth with
      | 0 => some (if last then .done else .base)
      | depth + 1 => some (.inside last depth)
    else some (.inside last depth)

end Policy

/-- What a token is to a policy: words and literals do not count. -/
def Token.mark (t : Token) : String :=
  match t.lexeme with
  | .symbol => t.text
  | _ => ""

/-- No word reads like a symbol that counts, and no literal is of a kind that only other tokens have. -/
structure Token.Sane (t : Token) : Prop where
  word : t.lexeme = .word → t.text ∉ marks
  literal : ∀ kind, t.lexeme = .literal kind → kind.lexeme? = none

namespace Policy

variable {p : Policy} {q q' : Level} {s : String} {t : Token} {ts us : List Token}

/-- The level after some tokens. -/
def levels (p : Policy) (q : Level) (ts : List Token) : Option Level :=
  ts.foldlM (fun q t => p.turn q t.mark) q

@[simp] theorem levels_nil : p.levels q [] = some q := rfl

theorem levels_cons : p.levels q (t :: ts) = (p.turn q t.mark).bind fun q => p.levels q ts := rfl

theorem levels_append : p.levels q (ts ++ us) = (p.levels q ts).bind fun q => p.levels q us :=
  List.foldlM_append

theorem levels_singleton : p.levels q [t] = p.turn q t.mark := by
  rw [levels_cons]
  cases p.turn q t.mark <;> rfl

/-- One policy is another one but for what it bars. -/
structure Stricter (p p' : Policy) : Prop where
  semicolon : p.semicolon = .bar ∨ p.semicolon = p'.semicolon
  block : p.block = .bar ∨ p.block = p'.block

/-- What a policy allows, another one allows as well that bars less. -/
theorem Stricter.turn {p' : Policy} (hp : p.Stricter p') (h : p.turn q s = some q') : p'.turn q s = some q' := by
  cases q with
  | base =>
    unfold Policy.turn at h ⊢
    by_cases hsemicolon : s = ";"
    · rcases hp.semicolon with hbar | hsame
      · simp [hsemicolon, hbar] at h
      · simpa [hsemicolon, hsame] using h
    · by_cases hbrace : s = "\x7b"
      · rcases hp.block with hbar | hsame
        · simp [hbrace, hbar] at h
        · simpa [hbrace, hsame] using h
      · simpa [hsemicolon, hbrace] using h
  | _ => exact h

theorem Stricter.levels {p' : Policy} (hp : p.Stricter p') (h : p.levels q ts = some q') :
    p'.levels q ts = some q' := by
  induction ts generalizing q with
  | nil => exact h
  | cons t ts ih =>
    rw [levels_cons, Option.bind_eq_some_iff] at h ⊢
    obtain ⟨mid, hturn, hlevels⟩ := h
    exact ⟨mid, hp.turn hturn, ih hlevels⟩

theorem turn_of_not_mem (h : s ∉ marks) : p.turn q s = p.turn q "" := by
  simp only [marks, openers, closers, List.cons_append, List.nil_append, List.mem_cons,
    List.not_mem_nil, or_false, not_or] at h
  cases q <;> simp [turn, openers, closers, h]

/-- A text is done only with a symbol that counts. -/
theorem mem_marks_of_turn (h : p.turn q s = some .done) : s ∈ marks := by
  refine Decidable.byContradiction fun hs => ?_
  rw [turn_of_not_mem hs] at h
  cases q <;> simp [turn, openers, closers] at h

/-- The level of a text that passes over blocks, and that of one which ends with the first. -/
inductive Passes : Level → Level → Prop
  | base : Passes .base .base
  | inside (last depth) : Passes (.inside false depth) (.inside last depth)

theorem Passes.turn {q₁ : Level} (h : Passes q q')
    (hturn : Policy.turn ⟨.finish, .pass⟩ q s = some q₁) :
    Policy.turn ⟨.finish, .finish⟩ q' s = some .done ∨
      ∃ q₁', Policy.turn ⟨.finish, .finish⟩ q' s = some q₁' ∧ Passes q₁ q₁' := by
  cases h with
  | base =>
    by_cases hsemicolon : s = ";"
    · exact .inl (by simp [Policy.turn, hsemicolon])
    · by_cases hbrace : s = "\x7b"
      · refine .inr ⟨.inside true 0, by simp [Policy.turn, hbrace], ?_⟩
        cases (show some (Level.inside false 0) = some q₁ by simpa [Policy.turn, hbrace] using hturn)
        exact .inside true 0
      · refine .inr ⟨q₁, by simpa [Policy.turn, hsemicolon, hbrace] using hturn, ?_⟩
        simp only [Policy.turn, hsemicolon, hbrace, if_false] at hturn
        split at hturn
        · cases hturn
          exact .inside false 0
        · split at hturn
          · cases hturn
          · cases hturn
            exact .base
  | inside last depth =>
    by_cases hopen : s ∈ openers
    · simp only [Policy.turn, hopen, if_true, Option.some.injEq] at hturn ⊢
      exact .inr ⟨_, rfl, hturn ▸ .inside last (depth + 1)⟩
    · by_cases hclose : s ∈ closers
      · simp only [Policy.turn, hopen, hclose, if_true, if_false] at hturn ⊢
        cases depth with
        | zero =>
          cases last with
          | true => exact .inl rfl
          | false =>
            cases hturn
            exact .inr ⟨_, rfl, .base⟩
        | succ depth =>
          cases hturn
          exact .inr ⟨_, rfl, .inside last depth⟩
      · simp only [Policy.turn, hopen, hclose, if_false, Option.some.injEq] at hturn ⊢
        exact .inr ⟨_, rfl, hturn ▸ .inside last depth⟩

/-- What ends with a semicolon, after any blocks, has a first part that ends with a semicolon or block. -/
theorem Passes.exists_done (h : Passes q q') (hlevels : levels ⟨.finish, .pass⟩ q ts = some .done) :
    ∃ us vs, ts = us ++ vs ∧ levels ⟨.finish, .finish⟩ q' us = some .done := by
  induction ts generalizing q q' with
  | nil =>
    cases hlevels
    cases h
  | cons t ts ih =>
    rw [levels_cons, Option.bind_eq_some_iff] at hlevels
    obtain ⟨q₁, hturn, hlevels⟩ := hlevels
    rcases h.turn hturn with hdone | ⟨q₁', hturn', hpasses⟩
    · exact ⟨[t], ts, rfl, levels_singleton.trans hdone⟩
    · obtain ⟨us, vs, rfl, hus⟩ := ih hpasses hlevels
      exact ⟨t :: us, vs, rfl, by rw [levels_cons, hturn']; exact hus⟩

theorem turn_empty_ne_none (h : q ≠ .done) : p.turn q "" ≠ none := by
  cases q with
  | done => exact absurd rfl h
  | base => simp [turn, openers, closers]
  | inside last depth => simp [turn, openers, closers]

/-- A piece of a keyword or operator moves a policy as the token does that it matches. -/
theorem turn_of_isPiece (h : Rule.isPiece s t = true) (hsane : t.Sane) : p.turn q t.mark = p.turn q s := by
  unfold Rule.isPiece at h
  split at h
  · next hword =>
    have htext : t.text = s := by simpa using h
    have hmark : t.mark = "" := by rw [Token.mark, hword]
    have hs : s ∉ marks := fun hs => hsane.word hword (htext ▸ hs)
    rw [hmark, turn_of_not_mem hs]
  · next hsymbol =>
    have htext : t.text = s := by simpa using h
    rw [Token.mark, hsymbol, htext]
  · cases h

end Policy

/-! ## What rules do to brackets -/

namespace Rule

variable {ν : Type} (p : Policy) (effect : ν → Option Level)

mutual

/-- The level after a match of a rule; `effect` says it of the variables outside of all brackets, and
inside of brackets variables match what is balanced. -/
def walk : Rule ν → Level → Option Level
  | .empty, q => some q
  | .token [], _ => none
  | .token (s :: pieces), q => (s :: pieces).foldlM p.turn q
  | .leaf _ text, q => p.turn q text
  | .name .., q | .literal, q => p.turn q ""
  | .seq a b, q => (walk a q).bind (walk b)
  | .alt a b, q => if walk a q = walk b q then walk a q else none
  | .many a, q => if walk a q = some q then some q else none
  | .node _ a, q | .field _ a, q => walk a q
  | .ahead a, q | .notAhead a, q => (walk a q).map fun _ => q
  | .var v, .base => effect v
  | .var _, .inside last depth => some (.inside last depth)
  | .var _, .done => none
  | .fold base steps, q => (walk base q).bind fun q' => if walkSteps steps q' then some q' else none

/-- Whether the steps stay at a level. -/
def walkSteps : List (Step ν) → Level → Bool
  | [], _ => true
  | .mk _ _ _ rule :: steps, q => decide (walk rule q = some q) && walkSteps steps q

end

attribute [local simp] walk walkSteps

variable {p effect} {q q' : Level}

theorem walk_seq {a b : Rule ν} : walk p effect (.seq a b) q = some q' ↔
    ∃ mid, walk p effect a q = some mid ∧ walk p effect b mid = some q' := by
  simp [Option.bind_eq_some_iff]

theorem walk_alt {a b : Rule ν} : walk p effect (.alt a b) q = some q' ↔
    walk p effect a q = some q' ∧ walk p effect b q = some q' := by
  simp only [walk]
  split
  · next h => simp [← h]
  · next h =>
    simp only [reduceCtorEq, false_iff, not_and]
    intro ha hb
    exact h (ha.trans hb.symm)

theorem walk_many {a : Rule ν} : walk p effect (.many a) q = some q' ↔
    q' = q ∧ walk p effect a q = some q := by
  simp only [walk, Option.ite_none_right_eq_some, Option.some.injEq]
  exact ⟨fun h => ⟨h.2.symm, h.1⟩, fun h => ⟨h.2, h.1.symm⟩⟩

theorem walk_fold {base : Rule ν} {steps : List (Step ν)} :
    walk p effect (.fold base steps) q = some q' ↔
      walk p effect base q = some q' ∧ walkSteps p effect steps q' = true := by
  simp only [walk, Option.bind_eq_some_iff, Option.ite_none_right_eq_some, Option.some.injEq]
  constructor
  · rintro ⟨mid, hbase, hsteps, rfl⟩
    exact ⟨hbase, hsteps⟩
  · rintro ⟨hbase, hsteps⟩
    exact ⟨q', hbase, hsteps, rfl⟩

/-- The rule behind which a step wraps a tree. -/
def stepRule : Step ν → Rule ν
  | .mk _ _ _ rule => rule

theorem walkSteps_iff {steps : List (Step ν)} : walkSteps p effect steps q = true ↔
    ∀ step ∈ steps, walk p effect (stepRule step) q = some q := by
  induction steps with
  | nil => exact iff_of_true rfl nofun
  | cons step steps ih =>
    obtain ⟨on, kind, left, rule⟩ := step
    rw [walkSteps, Bool.and_eq_true, decide_eq_true_eq, ih, List.forall_mem_cons]
    rfl

theorem walkSteps_of_subset {steps steps' : List (Step ν)} (hsub : steps ⊆ steps')
    (h : walkSteps p effect steps' q = true) : walkSteps p effect steps q = true :=
  walkSteps_iff.2 fun step hstep => walkSteps_iff.1 h step (hsub hstep)

theorem walk_ahead {a : Rule ν} : walk p effect (.ahead a) q = some q' ↔
    q' = q ∧ ∃ q₁, walk p effect a q = some q₁ := by
  simp only [walk, Option.map_eq_some_iff]
  constructor
  · rintro ⟨q₁, ha, rfl⟩
    exact ⟨rfl, q₁, ha⟩
  · rintro ⟨rfl, q₁, ha⟩
    exact ⟨q₁, ha, rfl⟩

theorem walk_notAhead {a : Rule ν} : walk p effect (.notAhead a) q = some q' ↔
    q' = q ∧ ∃ q₁, walk p effect a q = some q₁ :=
  walk_ahead (a := a)

end Rule

/-- What `effect` says of the variables is true of their rules. -/
structure Policy.Charts {ν : Type} (p : Policy) (effect : ν → Option Level) (grammar : ν → Rule ν) :
    Prop where
  base : ∀ v q, effect v = some q → (grammar v).walk p effect .base = some q
  inside : ∀ v last depth,
    (grammar v).walk p effect (.inside last depth) = some (.inside last depth)

/-! ## Inside of brackets -/

namespace Policy

/-- Nothing but brackets counts. -/
def plain : Policy := ⟨.pass, .pass⟩

/-- The level of a text with so many open brackets. -/
def nested : Nat → Level
  | 0 => .base
  | depth + 1 => .inside false depth

theorem nested_inj {k k' : Nat} (h : nested k = nested k') : k = k' := by
  cases k <;> cases k' <;> simp_all [nested]

theorem turn_inside {k : Nat} {s : String} {q : Level} (h : plain.turn (nested k) s = some q) :
    ∃ k', q = nested k' ∧ ∀ (p : Policy) last depth,
      p.turn (.inside last (depth + k)) s = some (.inside last (depth + k')) := by
  by_cases hopen : s ∈ openers
  · refine ⟨k + 1, ?_, fun p last depth => by simp [turn, hopen, Nat.add_assoc]⟩
    have hsemicolon : s ≠ ";" := by
      rintro rfl
      exact absurd hopen (by decide)
    cases k with
    | zero => simpa [nested, turn, hsemicolon, hopen, plain, eq_comm] using h
    | succ k => simpa [nested, turn, hopen, eq_comm] using h
  · by_cases hclose : s ∈ closers
    · cases k with
      | zero =>
        have hsemicolon : s ≠ ";" := by
          rintro rfl
          exact absurd hclose (by decide)
        have hbrace : s ≠ "\x7b" := by
          rintro rfl
          exact absurd hopen (by decide)
        simp [nested, turn, hopen, hclose, hsemicolon, hbrace] at h
      | succ k =>
        refine ⟨k, ?_, fun p last depth => by simp [turn, hopen, hclose]⟩
        cases k <;> simpa [nested, turn, hopen, hclose, eq_comm] using h
    · refine ⟨k, ?_, fun p last depth => by simp [turn, hopen, hclose]⟩
      cases k with
      | zero =>
        have hbrace : s ≠ "\x7b" := by
          rintro rfl
          exact absurd hopen (by decide)
        simp only [nested, turn, hopen, hclose, hbrace, plain, if_false] at h
        split at h <;> exact (Option.some.inj h).symm
      | succ k => simpa [nested, turn, hopen, hclose, eq_comm] using h

end Policy

namespace Rule

variable {ν : Type}

theorem foldlM_turn_inside {pieces : List String} {k : Nat} {q : Level}
    (h : pieces.foldlM Policy.plain.turn (Policy.nested k) = some q) :
    ∃ k', q = Policy.nested k' ∧ ∀ (p : Policy) last depth,
      pieces.foldlM p.turn (.inside last (depth + k)) = some (.inside last (depth + k')) := by
  induction pieces generalizing k with
  | nil => exact ⟨k, (Option.some.inj h).symm, fun _ _ _ => rfl⟩
  | cons s pieces ih =>
    rw [List.foldlM_cons, Option.bind_eq_bind, Option.bind_eq_some_iff] at h
    obtain ⟨mid, hturn, hrest⟩ := h
    obtain ⟨k₁, rfl, hfirst⟩ := Policy.turn_inside hturn
    obtain ⟨k', rfl, hlater⟩ := ih hrest
    refine ⟨k', rfl, fun p last depth => ?_⟩
    rw [List.foldlM_cons, hfirst]
    exact hlater p last depth

mutual

/-- A rule that keeps track of brackets does so inside of others. -/
theorem walk_inside (effect : ν → Option Level) : ∀ (rule : Rule ν) {k : Nat} {q : Level},
    rule.walk Policy.plain (fun _ => some .base) (Policy.nested k) = some q →
    ∃ k', q = Policy.nested k' ∧ ∀ (p : Policy) last depth,
      rule.walk p effect (.inside last (depth + k)) = some (.inside last (depth + k'))
  | .empty, k, _, h => ⟨k, (Option.some.inj h).symm, fun _ _ _ => rfl⟩
  | .token (_ :: _), _, _, h => foldlM_turn_inside h
  | .leaf _ _, _, _, h | .name _ _, _, _, h | .literal, _, _, h => Policy.turn_inside h
  | .seq a b, _, _, h => by
    obtain ⟨mid, ha, hb⟩ := walk_seq.1 h
    obtain ⟨k₁, rfl, hfirst⟩ := walk_inside effect a ha
    obtain ⟨k', rfl, hlater⟩ := walk_inside effect b hb
    exact ⟨k', rfl, fun p last depth => walk_seq.2 ⟨_, hfirst p last depth, hlater p last depth⟩⟩
  | .alt a b, _, _, h => by
    obtain ⟨ha, hb⟩ := walk_alt.1 h
    obtain ⟨k₁, rfl, hfirst⟩ := walk_inside effect a ha
    obtain ⟨k₂, heq, hsecond⟩ := walk_inside effect b hb
    cases Policy.nested_inj heq
    exact ⟨k₁, rfl, fun p last depth => walk_alt.2 ⟨hfirst p last depth, hsecond p last depth⟩⟩
  | .many a, k, _, h => by
    obtain ⟨rfl, ha⟩ := walk_many.1 h
    obtain ⟨k', heq, hinner⟩ := walk_inside effect a ha
    cases Policy.nested_inj heq
    exact ⟨k, rfl, fun p last depth => walk_many.2 ⟨rfl, hinner p last depth⟩⟩
  | .node _ a, _, _, h | .field _ a, _, _, h => walk_inside effect a h
  | .ahead a, k, _, h | .notAhead a, k, _, h => by
    obtain ⟨rfl, q₁, ha⟩ := walk_ahead.1 h
    obtain ⟨k', rfl, hinner⟩ := walk_inside effect a ha
    exact ⟨k, rfl, fun p last depth => walk_ahead.2 ⟨rfl, _, hinner p last depth⟩⟩
  | .var _, 0, _, h => ⟨0, (Option.some.inj h).symm, fun _ _ _ => rfl⟩
  | .var _, k + 1, _, h => ⟨k + 1, (Option.some.inj h).symm, fun _ _ _ => rfl⟩
  | .fold base steps, _, _, h => by
    obtain ⟨hbase, hsteps⟩ := walk_fold.1 h
    obtain ⟨k', rfl, hinner⟩ := walk_inside effect base hbase
    exact ⟨k', rfl, fun p last depth =>
      walk_fold.2 ⟨hinner p last depth, walkSteps_inside effect steps hsteps p last depth⟩⟩

theorem walkSteps_inside (effect : ν → Option Level) : ∀ (steps : List (Step ν)) {k : Nat},
    walkSteps Policy.plain (fun _ => some .base) steps (Policy.nested k) = true →
    ∀ (p : Policy) last depth, walkSteps p effect steps (.inside last (depth + k)) = true
  | [], _, _, _, _, _ => rfl
  | .mk _ _ _ rule :: steps, k, h, p, last, depth => by
    obtain ⟨hrule, hsteps⟩ := Bool.and_eq_true_iff.1 h
    obtain ⟨k', heq, hinner⟩ := walk_inside effect rule (of_decide_eq_true hrule)
    cases Policy.nested_inj heq
    exact Bool.and_eq_true_iff.2
      ⟨decide_eq_true (hinner p last depth), walkSteps_inside effect steps hsteps p last depth⟩

end

end Rule

/-- Where all rules keep track of brackets, a policy is charted by what its rules do outside of
brackets. -/
theorem Policy.Charts.of_plain {ν : Type} {grammar : ν → Rule ν} {p : Policy}
    {effect : ν → Option Level}
    (hplain : ∀ v, (grammar v).walk Policy.plain (fun _ => some .base) .base = some .base)
    (h : ∀ v q, effect v = some q → (grammar v).walk p effect .base = some q) :
    p.Charts effect grammar where
  base := h
  inside v last depth := by
    obtain ⟨k', heq, hinner⟩ := Rule.walk_inside effect (grammar v) (k := 0) (hplain v)
    cases Policy.nested_inj (k := 0) heq
    exact hinner p last depth

/-! ## What a match takes -/

/-- Some tokens are like those of a text. -/
def Sane (ts : List Token) : Prop := ∀ t ∈ ts, t.Sane

theorem Sane.of_append {ts us : List Token} (h : Sane (ts ++ us)) : Sane ts ∧ Sane us :=
  List.forall_mem_append.1 h

/-- The tokens taken lead from one level to another. -/
def Policy.Crosses (p : Policy) (q q' : Level) (ts rest : List Token) : Prop :=
  ∃ used, ts = used ++ rest ∧ p.levels q used = some q'

namespace Policy.Crosses

variable {p : Policy} {q q' q'' : Level} {ts mid rest : List Token} {t : Token}

theorem refl : p.Crosses q q ts ts := ⟨[], rfl, rfl⟩

theorem trans (h : p.Crosses q q' ts mid) (h' : p.Crosses q' q'' mid rest) : p.Crosses q q'' ts rest := by
  obtain ⟨used, rfl, hused⟩ := h
  obtain ⟨used', rfl, hused'⟩ := h'
  exact ⟨used ++ used', (List.append_assoc ..).symm, by simp [levels_append, hused, hused']⟩

theorem single (h : p.turn q t.mark = some q') : p.Crosses q q' (t :: ts) ts :=
  ⟨[t], rfl, levels_singleton.trans h⟩

theorem sane (h : p.Crosses q q' ts rest) (hsane : Sane ts) : Sane rest := by
  obtain ⟨used, rfl, -⟩ := h
  exact hsane.of_append.2

end Policy.Crosses

namespace Rule

variable {ν : Type} {p : Policy} {effect : ν → Option Level} {grammar : ν → Rule ν}

theorem crosses_takePieces {pieces : List String} {pos stop : Nat} {q q' : Level} {ts rest : List Token}
    (h : takePieces pos pieces ts = some (stop, rest)) (hwalk : pieces.foldlM p.turn q = some q')
    (hsane : Sane ts) : p.Crosses q q' ts rest := by
  induction pieces generalizing pos q ts with
  | nil =>
    cases h
    cases hwalk
    exact .refl
  | cons s pieces ih =>
    cases ts with
    | nil => cases h
    | cons t ts =>
      unfold takePieces at h
      split at h
      · next hpiece =>
        rw [List.foldlM_cons, Option.bind_eq_bind, Option.bind_eq_some_iff] at hwalk
        obtain ⟨mid, hturn, hwalk⟩ := hwalk
        obtain ⟨hfirst, hsane⟩ := List.forall_mem_cons.1 hsane
        have hfirst : p.turn q t.mark = p.turn q s :=
          Policy.turn_of_isPiece (Bool.and_eq_true_iff.1 hpiece).1 hfirst
        exact (Policy.Crosses.single (hfirst.trans hturn)).trans (ih h hwalk hsane)
      · cases h

/-- A match moves through the levels as its rule does. -/
theorem Matches.crosses (hcharts : p.Charts effect grammar) {rule : Rule ν} {ts rest : List Token}
    {xs : List Tree} (h : Matches grammar rule ts xs rest) {q q' : Level}
    (hwalk : rule.walk p effect q = some q') (hsane : Sane ts) : p.Crosses q q' ts rest := by
  induction h generalizing q q' with
  | empty =>
    cases hwalk
    exact .refl
  | @token pieces ts _ _ taken =>
    match pieces, ts with
    | [], _ => cases hwalk
    | _ :: _, [] => cases taken
    | s :: pieces, t :: ts =>
      obtain ⟨⟨stop, rest'⟩, htake, heq⟩ := Option.map_eq_some_iff.1 taken
      cases heq
      exact crosses_takePieces htake hwalk hsane
  | leaf piece =>
    exact .single ((Policy.turn_of_isPiece piece (hsane _ List.mem_cons_self)).trans hwalk)
  | name word => exact .single (by rwa [Token.mark, word])
  | literal literal => exact .single (by rwa [Token.mark, literal])
  | seq _ _ ihFront ihBack =>
    obtain ⟨mid, hfront, hback⟩ := walk_seq.1 hwalk
    have hfirst := ihFront hfront hsane
    exact hfirst.trans (ihBack hback (hfirst.sane hsane))
  | altLeft _ ih => exact ih (walk_alt.1 hwalk).1 hsane
  | altRight _ ih => exact ih (walk_alt.1 hwalk).2 hsane
  | manyNil =>
    obtain ⟨rfl, -⟩ := walk_many.1 hwalk
    exact .refl
  | manyCons _ _ ihFirst ihOthers =>
    obtain ⟨rfl, hitem⟩ := walk_many.1 hwalk
    have hfirst := ihFirst hitem hsane
    exact hfirst.trans (ihOthers hwalk (hfirst.sane hsane))
  | node _ ih | field _ ih => exact ih hwalk hsane
  | ahead | notAhead =>
    obtain ⟨rfl, -⟩ := walk_ahead.1 hwalk
    exact .refl
  | @var v _ _ _ _ ih =>
    refine ih ?_ hsane
    cases q with
    | base => exact hcharts.base v q' hwalk
    | inside last depth =>
      cases hwalk
      exact hcharts.inside v last depth
    | done => cases hwalk
  | base _ ih => exact ih (walk_fold.1 hwalk).1 hsane
  | step _ mem _ _ ihSofar ihBehind =>
    have hsofar := ihSofar hwalk hsane
    exact hsofar.trans (ihBehind (walkSteps_iff.1 (walk_fold.1 hwalk).2 _ mem) (hsofar.sane hsane))

end Rule

end Testwright.Java
