import Testwright.Proofs.Java.Derivation

/-!
# Enough fuel

A rule nests only so deep before a match of it takes a token (`Rule.depth`), and after each token it
may nest as deep again. So with fuel for every token, more fuel changes nothing (`Rule.run_stable`), and
`Rule.eval` is the match with fuel enough. Its equations do not mention fuel.
-/

namespace Testwright.Java

namespace Rule

variable {ν : Type} (known : Known ν) (cost : ν → Nat)

mutual

/-- How deep a rule nests before a match takes a token; `cost` says it of the variables. -/
def depth : Rule ν → Nat
  | .empty | .token _ | .leaf .. | .name .. | .literal => 1
  | .seq a b => 1 + max (depth a) (if gives known a then 0 else depth b)
  | .alt a b => 1 + max (depth a) (depth b)
  | .many a | .node _ a | .field _ a | .ahead a | .notAhead a => 1 + depth a
  | .var v => 1 + cost v
  | .fold base _ => 1 + depth base

/-- How deep some steps nest before one of them takes a token. -/
def depthSteps : List (Step ν) → Nat
  | [] => 1
  | .mk _ _ _ rule :: steps => 1 + max (depth rule) (depthSteps steps)

end

mutual

/-- Whether a rule nests less than 256 deep before each token, and repeats only what takes a token. -/
def fits : Rule ν → Bool
  | .empty | .token _ | .leaf .. | .name .. | .literal | .var _ => true
  | .seq a b => fits a && fits b && decide (depth known cost b < 256)
  | .alt a b => fits a && fits b
  | .many a => fits a && gives known a
  | .node _ a | .field _ a => fits a
  | .ahead a | .notAhead a => fits a && sound known a
  | .fold base steps =>
    fits base && gives known base && fitsSteps steps && decide (depthSteps known cost steps < 255)

/-- Whether some steps nest less than 256 deep before each token and take one. -/
def fitsSteps : List (Step ν) → Bool
  | [] => true
  | .mk _ _ _ rule :: steps => fits rule && gives known rule && fitsSteps steps

end

end Rule

namespace Rule

variable {ν : Type} {known : Known ν} {cost : ν → Nat} {steps steps' : List (Step ν)}

theorem fitsSteps_of_sublist (hsub : steps.Sublist steps') (h : fitsSteps known cost steps' = true) :
    fitsSteps known cost steps = true := by
  induction hsub with
  | slnil => rfl
  | cons step _ ih =>
    obtain ⟨on, kind, left, rule⟩ := step
    exact ih (Bool.and_eq_true_iff.1 h).2
  | cons_cons step _ ih =>
    obtain ⟨on, kind, left, rule⟩ := step
    obtain ⟨hrule, hsteps⟩ := Bool.and_eq_true_iff.1 h
    exact Bool.and_eq_true_iff.2 ⟨hrule, ih hsteps⟩

theorem depthSteps_le_of_sublist (hsub : steps.Sublist steps') :
    depthSteps known cost steps ≤ depthSteps known cost steps' := by
  induction hsub with
  | slnil => exact Nat.le_refl _
  | cons step _ ih =>
    obtain ⟨on, kind, left, rule⟩ := step
    rw [depthSteps]
    omega
  | cons_cons step _ ih =>
    obtain ⟨on, kind, left, rule⟩ := step
    rw [depthSteps, depthSteps]
    omega

end Rule

/-- The rules of the variables nest no deeper than `cost` says. -/
structure Known.Paced {ν : Type} (known : Known ν) (cost : ν → Nat) (grammar : ν → Rule ν) : Prop
    extends known.Holds grammar where
  fits : ∀ v, known.sound v = true → (grammar v).fits known cost = true
  depth : ∀ v, known.sound v = true → (grammar v).depth known cost ≤ cost v

theorem Derives.eq_nil_iff {used : List Token} {xs : List Tree} (h : Derives used xs) :
    used = [] ↔ xs = [] := by
  induction h with
  | nil => exact iff_of_true rfl rfl
  | leaf hhead _ =>
    refine iff_of_false ?_ (List.cons_ne_nil _ _)
    rintro rfl
    cases hhead
  | append _ _ ihx ihy => rw [List.append_eq_nil_iff, List.append_eq_nil_iff, ihx, ihy]
  | node _ full _ _ ih => exact iff_of_false (full ∘ ih.1) (List.cons_ne_nil _ _)
  | field _ ih => rw [ih, List.map_eq_nil_iff]

theorem Taken.length_le {ts rest : List Token} {xs : List Tree} (h : Taken ts xs rest) :
    rest.length ≤ ts.length := by
  obtain ⟨used, rfl, -⟩ := h
  simp

theorem Taken.length_lt {ts rest : List Token} {xs : List Tree} (h : Taken ts xs rest)
    (hxs : xs ≠ []) : rest.length < ts.length := by
  obtain ⟨used, rfl, hderives⟩ := h
  have := List.length_pos_iff.2 fun hnil => hxs (hderives.eq_nil_iff.1 hnil)
  simp only [List.length_append]
  omega

namespace Rule

variable {ν : Type} {known : Known ν} {cost : ν → Nat} {grammar : ν → Rule ν}

theorem length_lt_of_run (h : known.Holds grammar) {n : Nat} {rule : Rule ν} {ts rest : List Token}
    {xs : List Tree} (hrun : run grammar n rule ts = some (xs, rest)) (hsound : rule.sound known = true)
    (hgives : rule.gives known = true) : rest.length < ts.length :=
  have matched := (matches_of_run hrun).matched h hsound
  matched.taken.length_lt (matched.gives hgives)

/-- A step that applies takes a token. -/
theorem length_lt_of_runStep (h : known.Holds grammar) {n : Nat} {steps : List (Step ν)} {t u : Tree}
    {ts rest : List Token} (hrun : runStep grammar n steps t ts = some (u, rest))
    (hsound : soundSteps known steps = true) (hfits : fitsSteps known cost steps = true) :
    rest.length < ts.length := by
  induction steps generalizing n with
  | nil => cases n <;> cases hrun
  | cons step steps ih =>
    obtain ⟨on, kind, left, rule⟩ := step
    simp only [soundSteps, fitsSteps, Bool.and_eq_true] at hsound hfits
    cases n with
    | zero => cases hrun
    | succ n =>
      simp only [runStep] at hrun
      split at hrun
      · split at hrun
        · next hrule =>
          cases hrun
          exact length_lt_of_run h hrule hsound.1.2 hfits.1.2
        · exact ih hrun hsound.2 hfits.2
      · exact ih hrun hsound.2 hfits.2

/-! ## One level of a match -/

/-- Trees in front of those of a match. -/
def andThen (xs : List Tree) (found : List Tree × List Token) : List Tree × List Token :=
  (xs ++ found.1, found.2)

section
variable (n : Nat) (a b : Rule ν) (steps : List (Step ν)) (t : Tree) (ts : List Token)

theorem run_seq : run grammar (n + 1) (.seq a b) ts = (run grammar n a ts).bind fun found =>
    (run grammar n b found.2).map (andThen found.1) := by
  simp only [run]
  cases run grammar n a ts with
  | none => rfl
  | some found =>
    obtain ⟨xs, mid⟩ := found
    cases hb : run grammar n b mid <;> simp [hb, andThen]

theorem run_alt : run grammar (n + 1) (.alt a b) ts = (run grammar n a ts).or (run grammar n b ts) := by
  simp only [run]
  cases run grammar n a ts <;> rfl

theorem run_many : run grammar (n + 1) (.many a) ts =
    match run grammar n a ts with
    | none => some ([], ts)
    | some found => (run grammar n (.many a) found.2).map (andThen found.1) := by
  rw [run]
  cases run grammar n a ts with
  | none => rfl
  | some found =>
    obtain ⟨xs, mid⟩ := found
    cases hmany : run grammar n (.many a) mid <;> simp [hmany, andThen]

theorem run_node (kind : Kind) : run grammar (n + 1) (.node kind a) ts =
    (run grammar n a ts).map fun found => ([wrap kind found.1], found.2) := rfl

theorem run_field (part : Field) : run grammar (n + 1) (.field part a) ts =
    (run grammar n a ts).map fun found => (found.1.map (Tree.withField part), found.2) := rfl

theorem run_ahead : run grammar (n + 1) (.ahead a) ts =
    (run grammar n a ts).map fun _ => ([], ts) := rfl

theorem run_notAhead : run grammar (n + 1) (.notAhead a) ts =
    if (run grammar n a ts).isSome then none else some ([], ts) := rfl

theorem run_var (v : ν) : run grammar (n + 1) (.var v) ts = run grammar n (grammar v) ts := rfl

theorem run_fold : run grammar (n + 1) (.fold a steps) ts =
    match run grammar n a ts with
    | some ([t], rest) => some (runFold grammar n steps t rest)
    | _ => none := rfl

theorem runFold_succ : runFold grammar (n + 1) steps t ts =
    match runStep grammar n steps t ts with
    | none => ([t], ts)
    | some (u, rest) => runFold grammar n steps u rest := rfl

/-- The tree that a step makes of a tree and those behind it. -/
def stepTree (kind : Kind) (left : Option Field) (t : Tree) (xs : List Tree) : Tree :=
  wrap kind ((left.elim t fun part => t.withField part) :: xs)

theorem runStep_cons (on : List Kind) (kind : Kind) (left : Option Field) :
    runStep grammar (n + 1) (.mk on kind left a :: steps) t ts =
      ((if on.isEmpty || on.contains t.kind then run grammar n a ts else none).map fun found =>
        (stepTree kind left t found.1, found.2)).or (runStep grammar n steps t ts) := by
  simp only [runStep]
  split
  · cases run grammar n a ts with
    | none => rfl
    | some found => cases left <;> rfl
  · rfl

end

/-- With fuel for every token, more fuel changes nothing. The induction is on the fuel, which rules and
steps share. -/
theorem stable_of_fuel (h : known.Paced cost grammar) (n : Nat) :
    (∀ {rule ts}, rule.sound known = true → rule.fits known cost = true →
      256 * ts.length + rule.depth known cost ≤ n →
      run grammar n rule ts = run grammar (n + 1) rule ts) ∧
    (∀ {steps t ts}, soundSteps known steps = true → fitsSteps known cost steps = true →
      256 * ts.length + depthSteps known cost steps < n →
      runFold grammar n steps t ts = runFold grammar (n + 1) steps t ts) ∧
    (∀ {steps t ts}, soundSteps known steps = true → fitsSteps known cost steps = true →
      256 * ts.length + depthSteps known cost steps ≤ n →
      runStep grammar n steps t ts = runStep grammar (n + 1) steps t ts) := by
  induction n with
  | zero =>
    refine ⟨fun {rule ts} _ _ hn => ?_, fun _ _ hn => absurd hn (Nat.not_lt_zero _),
      fun {steps t ts} _ _ hn => ?_⟩
    · cases rule <;> simp only [depth] at hn <;> omega
    · rcases steps with - | ⟨⟨on, kind, left, rule⟩, steps⟩ <;> simp only [depthSteps] at hn <;> omega
  | succ n ih =>
    obtain ⟨ihRun, ihFold, ihStep⟩ := ih
    refine ⟨fun {rule ts} hsound hfits hn => ?_, fun {steps t ts} hsound hfits hn => ?_,
      fun {steps t ts} hsound hfits hn => ?_⟩
    · cases rule with
      | empty | token | leaf | name | literal => rfl
      | seq a b =>
        simp only [sound, fits, depth, Bool.and_eq_true, decide_eq_true_eq] at hsound hfits hn
        rw [run_seq, run_seq, ← ihRun hsound.1 hfits.1.1 (by omega)]
        refine Option.bind_congr fun found hrun => ?_
        have hle := ((matches_of_run hrun).matched h.toHolds hsound.1).taken.length_le
        rw [ihRun hsound.2 hfits.1.2]
        by_cases hgives : a.gives known = true
        · have hlt := length_lt_of_run h.toHolds hrun hsound.1 hgives
          omega
        · simp only [hgives, Bool.false_eq_true, if_false] at hn
          omega
      | alt a b =>
        simp only [sound, fits, depth, Bool.and_eq_true] at hsound hfits hn
        rw [run_alt, run_alt, ihRun hsound.1 hfits.1 (by omega), ihRun hsound.2 hfits.2 (by omega)]
      | many a =>
        have ha : a.fits known cost = true ∧ a.gives known = true := Bool.and_eq_true_iff.1 hfits
        have hdepth : 256 * ts.length + (1 + a.depth known cost) ≤ n + 1 := hn
        have hitem : run grammar n a ts = run grammar (n + 1) a ts := ihRun hsound ha.1 (by omega)
        rw [run_many, run_many, ← hitem]
        split
        · rfl
        · next hrun =>
          have hlt := length_lt_of_run h.toHolds hrun hsound ha.2
          rw [ihRun hsound hfits (by simp only [depth]; omega)]
      | node kind a =>
        simp only [sound, fits, depth, Bool.and_eq_true] at hsound hfits hn
        rw [run_node, run_node, ihRun hsound.1.1 hfits (by omega)]
      | field part a =>
        simp only [sound, fits, depth] at hsound hfits hn
        rw [run_field, run_field, ihRun hsound hfits (by omega)]
      | ahead a =>
        simp only [fits, depth, Bool.and_eq_true] at hfits hn
        rw [run_ahead, run_ahead, ihRun hfits.2 hfits.1 (by omega)]
      | notAhead a =>
        simp only [fits, depth, Bool.and_eq_true] at hfits hn
        rw [run_notAhead, run_notAhead, ihRun hfits.2 hfits.1 (by omega)]
      | var v =>
        have hdepth := h.depth v hsound
        simp only [depth] at hn
        exact ihRun (h.sound v hsound) (h.fits v hsound) (by omega)
      | fold base steps =>
        simp only [sound, fits, depth, Bool.and_eq_true, decide_eq_true_eq] at hsound hfits hn
        have hbase : run grammar n base ts = run grammar (n + 1) base ts :=
          ihRun hsound.1 hfits.1.1.1 (by omega)
        rw [run_fold, run_fold, ← hbase]
        split
        · next hrun =>
          have hlt := length_lt_of_run h.toHolds hrun hsound.1 hfits.1.1.2
          rw [ihFold hsound.2 hfits.1.2 (by omega)]
        · rfl
    · rw [runFold_succ, runFold_succ, ← ihStep hsound hfits (by omega)]
      split
      · rfl
      · next hstep =>
        have hlt := length_lt_of_runStep h.toHolds hstep hsound hfits
        exact ihFold hsound hfits (by omega)
    · rcases steps with - | ⟨⟨on, kind, left, rule⟩, steps⟩
      · rfl
      · simp only [soundSteps, fitsSteps, depthSteps, Bool.and_eq_true] at hsound hfits hn
        rw [runStep_cons, runStep_cons, ihRun hsound.1.2 hfits.1.1 (by omega),
          ihStep hsound.2 hfits.2 (by omega)]

theorem run_stable (h : known.Paced cost grammar) {rule : Rule ν} (hsound : rule.sound known = true)
    (hfits : rule.fits known cost = true) {ts : List Token} {m n : Nat}
    (hm : 256 * ts.length + rule.depth known cost ≤ m) (hmn : m ≤ n) :
    run grammar m rule ts = run grammar n rule ts := by
  induction hmn with
  | refl => rfl
  | step hmn ih => exact ih.trans ((stable_of_fuel h _).1 hsound hfits (Nat.le_trans hm hmn))

/-! ## Matches with fuel enough -/

/-- The match of a rule, with fuel for every token. -/
def eval (grammar : ν → Rule ν) (rule : Rule ν) (ts : List Token) : Option (List Tree × List Token) :=
  run grammar (256 * (ts.length + 1)) rule ts

/-- A rule is sound and nests no deeper than the fuel of `eval`. -/
structure Ready (known : Known ν) (cost : ν → Nat) (rule : Rule ν) : Prop where
  sound : rule.sound known = true
  fits : rule.fits known cost = true
  depth : rule.depth known cost ≤ 256

instance (known : Known ν) (cost : ν → Nat) (rule : Rule ν) : Decidable (Ready known cost rule) :=
  decidable_of_iff (rule.sound known = true ∧ rule.fits known cost = true ∧
    rule.depth known cost ≤ 256) ⟨fun h => ⟨h.1, h.2.1, h.2.2⟩, fun h => ⟨h.1, h.2, h.3⟩⟩

variable {rule a b : Rule ν} {ts rest : List Token} {xs : List Tree}

namespace Ready

theorem left (h : (seq a b).Ready known cost) : a.Ready known cost := by
  obtain ⟨hsound, hfits, hdepth⟩ := h
  simp only [Rule.sound, Rule.fits, Rule.depth, Bool.and_eq_true] at hsound hfits hdepth
  exact ⟨hsound.1, hfits.1.1, by omega⟩

theorem right (h : (seq a b).Ready known cost) : b.Ready known cost := by
  obtain ⟨hsound, hfits, hdepth⟩ := h
  simp only [Rule.sound, Rule.fits, Bool.and_eq_true, decide_eq_true_eq] at hsound hfits
  exact ⟨hsound.2, hfits.1.2, Nat.le_of_lt hfits.2⟩

theorem first (h : (alt a b).Ready known cost) : a.Ready known cost := by
  obtain ⟨hsound, hfits, hdepth⟩ := h
  simp only [Rule.sound, Rule.fits, Rule.depth, Bool.and_eq_true] at hsound hfits hdepth
  exact ⟨hsound.1, hfits.1, by omega⟩

theorem second (h : (alt a b).Ready known cost) : b.Ready known cost := by
  obtain ⟨hsound, hfits, hdepth⟩ := h
  simp only [Rule.sound, Rule.fits, Rule.depth, Bool.and_eq_true] at hsound hfits hdepth
  exact ⟨hsound.2, hfits.2, by omega⟩

theorem item (h : (many a).Ready known cost) : a.Ready known cost := by
  obtain ⟨hsound, hfits, hdepth⟩ := h
  simp only [Rule.fits, Rule.depth, Bool.and_eq_true] at hfits hdepth
  exact ⟨hsound, hfits.1, by omega⟩

theorem inner {kind : Kind} (h : (node kind a).Ready known cost) : a.Ready known cost := by
  obtain ⟨hsound, hfits, hdepth⟩ := h
  simp only [Rule.sound, Rule.depth, Bool.and_eq_true] at hsound hdepth
  exact ⟨hsound.1.1, hfits, by omega⟩

theorem part {part : Field} (h : (field part a).Ready known cost) : a.Ready known cost := by
  obtain ⟨hsound, hfits, hdepth⟩ := h
  simp only [Rule.depth] at hdepth
  exact ⟨hsound, hfits, by omega⟩

end Ready

section
variable (h : known.Paced cost grammar)
include h

theorem Ready.body {v : ν} (hready : (var v).Ready known cost) : (grammar v).Ready known cost := by
  obtain ⟨hsound, -, hdepth⟩ := hready
  have hcost := h.depth v hsound
  simp only [Rule.depth] at hdepth
  exact ⟨h.sound v hsound, h.fits v hsound, by omega⟩

theorem run_eq_eval (hready : rule.Ready known cost) {n : Nat}
    (hn : 256 * ts.length + rule.depth known cost ≤ n) :
    run grammar n rule ts = eval grammar rule ts := by
  have hdepth := hready.depth
  rcases Nat.le_total n (256 * (ts.length + 1)) with hle | hle
  · exact run_stable h hready.sound hready.fits hn hle
  · exact (run_stable h hready.sound hready.fits (by omega) hle).symm

/-- What a match amounts to. -/
theorem matched_of_eval (hready : rule.Ready known cost)
    (heval : eval grammar rule ts = some (xs, rest)) : Matched known rule ts xs rest :=
  (matches_of_run heval).matched h.toHolds hready.sound

theorem eval_seq (hready : (seq a b).Ready known cost) : eval grammar (.seq a b) ts =
    (eval grammar a ts).bind fun found => (eval grammar b found.2).map (andThen found.1) := by
  have hdepth : 1 + max (a.depth known cost) (if a.gives known then 0 else b.depth known cost) ≤ 256 :=
    hready.depth
  have hright : b.depth known cost < 256 := by
    have hfits := hready.fits
    simp only [fits, Bool.and_eq_true, decide_eq_true_eq] at hfits
    exact hfits.2
  show run grammar (256 * ts.length + 255 + 1) _ ts = _
  rw [run_seq, run_eq_eval h hready.left (by omega)]
  refine Option.bind_congr fun found hfound => ?_
  have matched := matched_of_eval h hready.left hfound
  have hle := matched.taken.length_le
  rw [run_eq_eval h hready.right (by omega)]

theorem eval_alt (hready : (alt a b).Ready known cost) :
    eval grammar (.alt a b) ts = (eval grammar a ts).or (eval grammar b ts) := by
  have hdepth : 1 + max (a.depth known cost) (b.depth known cost) ≤ 256 := hready.depth
  show run grammar (256 * ts.length + 255 + 1) _ ts = _
  rw [run_alt, run_eq_eval h hready.first (by omega), run_eq_eval h hready.second (by omega)]

theorem eval_many (hready : (many a).Ready known cost) : eval grammar (.many a) ts =
    match eval grammar a ts with
    | none => some ([], ts)
    | some found => (eval grammar (.many a) found.2).map (andThen found.1) := by
  have hdepth : 1 + a.depth known cost ≤ 256 := hready.depth
  have hgives : a.gives known = true := (Bool.and_eq_true_iff.1 hready.fits).2
  show run grammar (256 * ts.length + 255 + 1) _ ts = _
  rw [run_many, run_eq_eval h hready.item (by omega)]
  split
  · rfl
  · next hfound =>
    have matched := matched_of_eval h hready.item hfound
    have hlt := matched.taken.length_lt (matched.gives hgives)
    rw [run_eq_eval h hready (by simp only [depth]; omega)]

theorem eval_node {kind : Kind} (hready : (node kind a).Ready known cost) :
    eval grammar (.node kind a) ts =
      (eval grammar a ts).map fun found => ([wrap kind found.1], found.2) := by
  have hdepth : 1 + a.depth known cost ≤ 256 := hready.depth
  show run grammar (256 * ts.length + 255 + 1) _ ts = _
  rw [run_node, run_eq_eval h hready.inner (by omega)]

theorem eval_field {part : Field} (hready : (field part a).Ready known cost) :
    eval grammar (.field part a) ts =
      (eval grammar a ts).map fun found => (found.1.map (Tree.withField part), found.2) := by
  have hdepth : 1 + a.depth known cost ≤ 256 := hready.depth
  show run grammar (256 * ts.length + 255 + 1) _ ts = _
  rw [run_field, run_eq_eval h hready.part (by omega)]

theorem eval_var {v : ν} (hready : (var v).Ready known cost) :
    eval grammar (.var v) ts = eval grammar (grammar v) ts := by
  have hdepth : 1 + cost v ≤ 256 := hready.depth
  have hcost := h.depth v hready.sound
  show run grammar (256 * ts.length + 255 + 1) _ ts = _
  rw [run_var, run_eq_eval h (hready.body h) (by omega)]

end

end Rule

end Testwright.Java
