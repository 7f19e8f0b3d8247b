import Testwright.Java.Rule

/-!
# Matches of rules

`Rule.Matches` relates a rule to the tokens in front of which it stands, the trees of a match and the
tokens behind it. It knows no fuel and no order of alternatives, and a fold grows from its base step by
step, so what all matches have in common is proved by one induction. Whatever the parser finds is such
a match (`Rule.matches_of_run`).
-/

namespace Testwright.Java

namespace Rule

variable {ν : Type}

inductive Matches (grammar : ν → Rule ν) : Rule ν → List Token → List Tree → List Token → Prop
  | empty {ts} : Matches grammar .empty ts [] ts
  | token {pieces ts xs rest} (taken : takeToken pieces ts = some (xs, rest)) :
    Matches grammar (.token pieces) ts xs rest
  | leaf {kind text t ts} (piece : isPiece text t = true) :
    Matches grammar (.leaf kind text) (t :: ts) [.ofToken kind t] ts
  | name {kind except t ts} (word : t.lexeme = .word) (allowed : t.text ∉ except) :
    Matches grammar (.name kind except) (t :: ts) [.ofToken kind t] ts
  | literal {kind t ts} (literal : t.lexeme = .literal kind) :
    Matches grammar .literal (t :: ts) [.ofToken kind t] ts
  | seq {a b ts mid rest xs ys} (front : Matches grammar a ts xs mid)
    (back : Matches grammar b mid ys rest) : Matches grammar (.seq a b) ts (xs ++ ys) rest
  | altLeft {a b ts rest xs} (left : Matches grammar a ts xs rest) :
    Matches grammar (.alt a b) ts xs rest
  | altRight {a b ts rest xs} (right : Matches grammar b ts xs rest) :
    Matches grammar (.alt a b) ts xs rest
  | manyNil {a ts} : Matches grammar (.many a) ts [] ts
  | manyCons {a ts mid rest xs ys} (first : Matches grammar a ts xs mid)
    (others : Matches grammar (.many a) mid ys rest) : Matches grammar (.many a) ts (xs ++ ys) rest
  | node {kind a ts rest xs} (inner : Matches grammar a ts xs rest) :
    Matches grammar (.node kind a) ts [wrap kind xs] rest
  | field {part a ts rest xs} (inner : Matches grammar a ts xs rest) :
    Matches grammar (.field part a) ts (xs.map (Tree.withField part)) rest
  | ahead {a ts} : Matches grammar (.ahead a) ts [] ts
  | notAhead {a ts} : Matches grammar (.notAhead a) ts [] ts
  | var {v ts rest xs} (inner : Matches grammar (grammar v) ts xs rest) :
    Matches grammar (.var v) ts xs rest
  | base {a steps ts rest t} (base : Matches grammar a ts [t] rest) :
    Matches grammar (.fold a steps) ts [t] rest
  | step {a steps ts mid rest t on kind left rule xs} (sofar : Matches grammar (.fold a steps) ts [t] mid)
    (mem : .mk on kind left rule ∈ steps) (applies : (on.isEmpty || on.contains t.kind) = true)
    (behind : Matches grammar rule mid xs rest) :
    Matches grammar (.fold a steps) ts
      [wrap kind ((left.elim t fun part => t.withField part) :: xs)] rest

variable {grammar : ν → Rule ν}

theorem Matches.takeLeaf {kind : Kind} {text : String} {ts rest : List Token} {xs : List Tree}
    (h : takeLeaf kind text ts = some (xs, rest)) : Matches grammar (.leaf kind text) ts xs rest := by
  unfold Rule.takeLeaf at h
  split at h
  · cases h
  · split at h
    · next hpiece =>
      cases h
      exact .leaf hpiece
    · cases h

theorem Matches.takeName {kind : Kind} {except : List String} {ts rest : List Token} {xs : List Tree}
    (h : takeName kind except ts = some (xs, rest)) :
    Matches grammar (.name kind except) ts xs rest := by
  unfold Rule.takeName at h
  split at h
  · cases h
  · split at h
    · next hword =>
      cases h
      exact .name hword.1 hword.2
    · cases h

theorem Matches.takeLiteral {ts rest : List Token} {xs : List Tree}
    (h : takeLiteral ts = some (xs, rest)) : Matches grammar .literal ts xs rest := by
  unfold Rule.takeLiteral at h
  split at h
  · cases h
  · split at h
    · next hliteral =>
      cases h
      exact .literal hliteral
    · cases h

/-- Rules, folds and steps share the fuel, so the three are treated at once. The steps still to be tried
are some of those of the fold. -/
theorem matches_of_fuel (n : Nat) :
    (∀ {rule ts xs rest}, run grammar n rule ts = some (xs, rest) →
      Matches grammar rule ts xs rest) ∧
    (∀ {base steps ts t mid}, Matches grammar (.fold base steps) ts [t] mid →
      ∃ u rest, runFold grammar n steps t mid = ([u], rest) ∧
        Matches grammar (.fold base steps) ts [u] rest) ∧
    (∀ {base steps tried ts t mid u rest}, runStep grammar n tried t mid = some (u, rest) →
      (∀ step ∈ tried, step ∈ steps) → Matches grammar (.fold base steps) ts [t] mid →
      Matches grammar (.fold base steps) ts [u] rest) := by
  induction n with
  | zero => exact ⟨nofun, fun h => ⟨_, _, rfl, h⟩, nofun⟩
  | succ n ih =>
    obtain ⟨ihRun, ihFold, ihStep⟩ := ih
    refine ⟨fun {rule ts xs rest} h => ?_, fun {base steps ts t mid} hsofar => ?_,
      fun {base steps tried ts t mid u rest} h htried hsofar => ?_⟩
    · cases rule with
      | empty =>
        cases h
        exact .empty
      | token pieces => exact .token h
      | leaf kind text => exact .takeLeaf h
      | name kind except => exact .takeName h
      | literal => exact .takeLiteral h
      | seq a b =>
        simp only [run] at h
        split at h
        · cases h
        · next ha =>
          split at h
          · cases h
          · next hb =>
            cases h
            exact .seq (ihRun ha) (ihRun hb)
      | alt a b =>
        simp only [run] at h
        split at h
        · exact .altRight (ihRun h)
        · next ha =>
          cases h
          exact .altLeft (ihRun ha)
      | many a =>
        simp only [run] at h
        split at h
        · cases h
          exact .manyNil
        · next ha =>
          split at h
          · cases h
          · next hrest =>
            cases h
            exact .manyCons (ihRun ha) (ihRun hrest)
      | node kind a =>
        obtain ⟨⟨ys, rest'⟩, ha, heq⟩ := Option.map_eq_some_iff.1 h
        cases heq
        exact .node (ihRun ha)
      | field part a =>
        obtain ⟨⟨ys, rest'⟩, ha, heq⟩ := Option.map_eq_some_iff.1 h
        cases heq
        exact .field (ihRun ha)
      | ahead a =>
        obtain ⟨_, _, heq⟩ := Option.map_eq_some_iff.1 h
        cases heq
        exact .ahead
      | notAhead a =>
        simp only [run] at h
        split at h
        · cases h
        · cases h
          exact .notAhead
      | var v => exact .var (ihRun h)
      | fold base steps =>
        simp only [run] at h
        split at h
        · next t mid hbase =>
          have hsofar : Matches grammar (.fold base steps) ts [t] mid := .base (ihRun hbase)
          obtain ⟨u, rest', hfold, hmatch⟩ := ihFold hsofar
          rw [hfold] at h
          cases h
          exact hmatch
        · cases h
    · unfold runFold
      cases hstep : runStep grammar n steps t mid with
      | none => exact ⟨t, mid, rfl, hsofar⟩
      | some next => exact ihFold (ihStep hstep (fun _ h => h) hsofar)
    · match tried with
      | [] => cases h
      | .mk on kind left rule :: tried =>
        have hlater := fun step hstep => htried step (List.mem_cons_of_mem _ hstep)
        simp only [runStep] at h
        split at h
        · next happlies =>
          split at h
          · next hrun =>
            cases h
            have hgrown := Matches.step hsofar (htried _ List.mem_cons_self) happlies (ihRun hrun)
            cases left <;> exact hgrown
          · exact ihStep h hlater hsofar
        · exact ihStep h hlater hsofar

/-- Whatever the parser finds is a match. -/
theorem matches_of_run {n : Nat} {rule : Rule ν} {ts rest : List Token} {xs : List Tree}
    (h : run grammar n rule ts = some (xs, rest)) : Matches grammar rule ts xs rest :=
  (matches_of_fuel n).1 h

end Rule

end Testwright.Java
