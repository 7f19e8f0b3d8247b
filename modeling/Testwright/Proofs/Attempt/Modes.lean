import Testwright.Proofs.Attempt.Overlapping

/-!
# The three modes agree

For attempts whose endings depend on their index alone the modes differ only in what they leave out:
attempts at the same time, in whatever order they overlap, have the outcomes of attempts one after
another, and a run that stops at the first success has these outcomes up to it (`haltAtPass`). Hence
all modes name the same first success, and an attempt that fails changes the outcome of no other one
(`modes_agree`).
-/

namespace Testwright

/-- The ending of an attempt depends on its index alone, and no attempt cancels the run. -/
structure Runner.Settled {σ : Type} (r : Runner σ) (reply : Nat → Ending) : Prop where
  ending : ∀ index world, (r index false world).1 = reply index
  quiet : ∀ index world, (r index false world).2.1 = false

namespace Schedule

variable {σ α : Type} {p : Stepwise σ α} {r : Runner σ} {reply : Nat → Ending} {s : State σ}

theorem Stepwise.Goes.settled (hp : p.Settled reply) {index : Nat} {a : α} {cancelled : Bool}
    {world : σ} {ending : Ending} {flag : Bool} {final : σ}
    (h : p.Goes index a cancelled world ending flag final) (hcancelled : cancelled = false)
    (ha : p.Reaches index a) : ending = reply index ∧ flag = false := by
  induction h with
  | @last a cancelled world ending cancels world' step_eq =>
    subst hcancelled
    have hquiet := hp.quiet world ha
    rw [step_eq] at hquiet
    exact ⟨hp.ending ha (congrArg Prod.fst step_eq), hquiet⟩
  | @more a a' cancelled world cancels world' ending flag final step_eq _ ih =>
    subst hcancelled
    have hquiet := hp.quiet world ha
    rw [step_eq] at hquiet
    exact ih hquiet (ha.step (congrArg Prod.fst step_eq))

/-- What holds of attempts in steps holds of them in one go. -/
theorem Stepwise.Settled.runner (hp : p.Settled reply) (hr : p.Performs r) : r.Settled reply where
  ending index world := ((hr index false world).settled hp rfl .start).1
  quiet index world := ((hr index false world).settled hp rfl .start).2

/-! ## Attempts one after another -/

/-- Outcomes up to the first success; what comes after it never starts. -/
def haltAtPass (outcomes : List Outcome) : List Outcome :=
  let n := outcomes.findIdx Outcome.passed + 1
  outcomes.take n ++ .replicate (outcomes.length - n) .notStarted

theorem haltAtPass_cons (outcome : Outcome) (outcomes : List Outcome) :
    haltAtPass (outcome :: outcomes) = outcome ::
      if outcome.passed then .replicate outcomes.length .notStarted else haltAtPass outcomes := by
  cases hpassed : outcome.passed <;> simp [haltAtPass, List.findIdx_cons, hpassed]

theorem attempt_of_settled (hr : r.Settled reply) (hs : s.cancelled = false) (index : Nat) :
    attempt r index s =
      (.ofEnding (reply index), ⟨(r index false s.world).2.2, false, s.started ++ [index]⟩) := by
  simp [attempt, hs, hr.ending, hr.quiet]

theorem sequential_all (hr : r.Settled reply) (hs : s.cancelled = false) (index count : Nat) :
    (sequential r false index count s).1 = outcomesOf reply (.range' index count) := by
  induction count generalizing index s with
  | zero => rfl
  | succ count ih =>
    rw [sequential, attempt_of_settled hr hs]
    exact congrArg _ (ih rfl (index + 1))

theorem sequential_stop (hr : r.Settled reply) (hs : s.cancelled = false) (index count : Nat) :
    (sequential r true index count s).1 = haltAtPass (outcomesOf reply (.range' index count)) ∧
      (sequential r true index count s).2.started = s.started ++ (List.range' index count).take
        ((outcomesOf reply (.range' index count)).findIdx Outcome.passed + 1) := by
  induction count generalizing index s with
  | zero => exact ⟨rfl, (List.append_nil _).symm⟩
  | succ count ih =>
    obtain ⟨hrest, hstarted⟩ := ih (s := ⟨(r index false s.world).2.2, false, s.started ++ [index]⟩)
      rfl (index + 1)
    have hown : outcomesOf reply (.range' index (count + 1)) =
        .ofEnding (reply index) :: outcomesOf reply (.range' (index + 1) count) := rfl
    have hlength : (outcomesOf reply (.range' (index + 1) count)).length = count := by
      simp [outcomesOf]
    rw [hown, sequential, attempt_of_settled hr hs, haltAtPass_cons, hlength, List.findIdx_cons,
      List.range'_succ]
    cases hpassed : (Outcome.ofEnding (reply index)).passed with
    | true => simp [hpassed]
    | false => simp [hpassed, hrest, hstarted]

theorem haltAtPass_of_none {outcomes : List Outcome}
    (h : outcomes.findIdx? Outcome.passed = none) : haltAtPass outcomes = outcomes := by
  rw [List.findIdx?_eq_none_iff_findIdx_eq] at h
  simp [haltAtPass, h, List.take_of_length_le]

theorem findIdx?_haltAtPass (outcomes : List Outcome) :
    (haltAtPass outcomes).findIdx? Outcome.passed = outcomes.findIdx? Outcome.passed := by
  induction outcomes with
  | nil => rfl
  | cons outcome outcomes ih =>
    rw [haltAtPass_cons, List.findIdx?_cons, List.findIdx?_cons]
    cases outcome.passed with
    | true => rfl
    | false => simp [ih]

/-- What is left of an outcome depends on it and on whether one before is a success. -/
theorem getElem?_haltAtPass (outcomes : List Outcome) (index : Nat) :
    (haltAtPass outcomes)[index]? = outcomes[index]?.map fun outcome =>
      if (outcomes.take index).any Outcome.passed then .notStarted else outcome := by
  induction outcomes generalizing index with
  | nil => rfl
  | cons outcome outcomes ih =>
    rw [haltAtPass_cons]
    cases index with
    | zero => simp
    | succ index =>
      cases hpassed : outcome.passed with
      | true =>
        by_cases hindex : index < outcomes.length <;> simp [hpassed, hindex]
      | false => simp [hpassed, ih]

/-! ## Attempts at the same time -/

namespace Stepwise

/-- Attempts that take a single step. -/
def ofRunner (r : Runner σ) : Stepwise σ Unit where
  start _ := ()
  step index _ cancelled world :=
    let (ending, cancels, world) := r index cancelled world
    (.inr ending, cancels, world)

theorem performs_ofRunner (r : Runner σ) : (ofRunner r).Performs r := fun _ _ _ => .last rfl

theorem settled_ofRunner (hr : r.Settled reply) : (ofRunner r).Settled reply where
  ending _ h := Sum.inr.inj h ▸ hr.ending _ _
  quiet world _ := hr.quiet _ world

end Stepwise

variable {count : Nat}

theorem outcomes_of_ends (hp : p.Settled reply) (hs : s.cancelled = false) {moves : List (Move σ)}
    {outcomes : List Outcome} (hends : (p.run (.start count s) moves).Ends outcomes) :
    outcomes = outcomesOf reply (.range count) :=
  ((Pool.sound_start hs).run hp moves).outcomes_of_ends hends

theorem outcomes_parallel (hr : r.Settled reply) (hs : s.cancelled = false) {order : List Nat}
    (horder : order.Perm (.range count)) :
    (parallel r order count s).1 = outcomesOf reply (.range count) := by
  obtain ⟨moves, hmoves⟩ := Stepwise.exists_moves_parallel (Stepwise.performs_ofRunner r) horder s
  exact outcomes_of_ends (Stepwise.settled_ofRunner hr) hs (congrArg Pool.slots hmoves)

/-! ## The modes -/

/-- What a mode leaves of the outcomes of attempts that all take place. -/
def leftBy : Mode → List Outcome → List Outcome
  | .stopAtSuccess, outcomes => haltAtPass outcomes
  | .parallel, outcomes | .exhaustive, outcomes => outcomes

theorem outcomes_run (hr : r.Settled reply) (hs : s.cancelled = false) (mode : Mode) :
    (run mode count r s).1.outcomes = leftBy mode (outcomesOf reply (.range count)) := by
  cases mode with
  | parallel => exact outcomes_parallel hr hs (.refl _)
  | stopAtSuccess =>
    rw [List.range_eq_range']
    exact (sequential_stop hr hs 0 count).1
  | exhaustive =>
    rw [List.range_eq_range']
    exact sequential_all hr hs 0 count

theorem firstSuccess?_run (hr : r.Settled reply) (hs : s.cancelled = false) (mode : Mode) :
    (run mode count r s).1.firstSuccess? =
      (outcomesOf reply (.range count)).findIdx? Outcome.passed := by
  rw [Summary.firstSuccess?, outcomes_run hr hs]
  cases mode with
  | stopAtSuccess => exact findIdx?_haltAtPass _
  | parallel | exhaustive => rfl

theorem started_stopAtSuccess (hr : r.Settled reply) (hs : s.cancelled = false) :
    (run .stopAtSuccess count r s).2.started = s.started ++ (List.range count).take
      ((outcomesOf reply (.range count)).findIdx Outcome.passed + 1) := by
  rw [List.range_eq_range']
  exact (sequential_stop hr hs 0 count).2

theorem passed_of_isFault {outcome : Outcome} (h : outcome.isFault = true) :
    outcome.passed = false := by
  cases outcome with
  | faulted => rfl
  | finished | notStarted => cases h

theorem getElem?_outcomesOf (reply : Nat → Ending) (index : Nat) :
    (outcomesOf reply (.range count))[index]? =
      if index < count then some (.ofEnding (reply index)) else none := by
  by_cases hindex : index < count <;> simp [outcomesOf, hindex]

/-- Whether an attempt before one passes does not depend on one that fails. -/
theorem any_take_congr {reply' : Nat → Ending} {index : Nat}
    (h : ∀ k < index, (Outcome.ofEnding (reply' k)).passed = (Outcome.ofEnding (reply k)).passed) :
    ((outcomesOf reply' (.range count)).take index).any Outcome.passed =
      ((outcomesOf reply (.range count)).take index).any Outcome.passed := by
  simp only [outcomesOf, ← List.map_take, List.take_range, List.any_map]
  refine Bool.eq_iff_iff.2 ?_
  simp only [List.any_eq_true, List.mem_range, Function.comp_apply]
  refine exists_congr fun k => and_congr_right fun hk => ?_
  rw [h k (Nat.lt_of_lt_of_le hk (Nat.min_le_left _ _))]

/-- What the modes have in common on `count` attempts whose endings are given by their index. -/
structure Agreement (p : Stepwise σ α) (r : Runner σ) (reply : Nat → Ending) (count : Nat)
    (s : State σ) : Prop where
  exhaustive : (run .exhaustive count r s).1.outcomes = outcomesOf reply (.range count)
  parallel : (run .parallel count r s).1.outcomes = (run .exhaustive count r s).1.outcomes
  /-- However the attempts overlap, the outcomes are the same. -/
  overlapping : ∀ moves outcomes, (p.run (.start count s) moves).Ends outcomes →
    outcomes = (run .exhaustive count r s).1.outcomes
  /-- Attempts in any order, each in one go, are among those that overlap. -/
  ordered : ∀ order, order.Perm (.range count) →
    (Schedule.parallel r order count s).1 = (run .exhaustive count r s).1.outcomes ∧
      ∃ moves, (p.run (.start count s) moves).Ends (Schedule.parallel r order count s).1
  stopped : ∀ index, (run .exhaustive count r s).1.firstSuccess? = some index →
    (run .stopAtSuccess count r s).1.outcomes =
        (run .exhaustive count r s).1.outcomes.take (index + 1) ++
          .replicate (count - (index + 1)) .notStarted ∧
      (run .stopAtSuccess count r s).2.started = s.started ++ .range (index + 1)
  unstopped : (run .exhaustive count r s).1.firstSuccess? = none →
    (run .stopAtSuccess count r s).1.outcomes = (run .exhaustive count r s).1.outcomes
  firstSuccess : ∀ mode,
    (run mode count r s).1.firstSuccess? = (run .exhaustive count r s).1.firstSuccess?
  satisfied : ∀ mode, (run mode count r s).1.satisfied = (run .exhaustive count r s).1.satisfied
  /-- A fault leaves the outcomes of the other attempts as they would be if the attempt ended in another
  way; only those behind a success in its place are not comparable if the run stops there. -/
  contained : ∀ k, (Outcome.ofEnding (reply k)).isFault = true →
    ∀ (r' : Runner σ) (reply' : Nat → Ending) (s' : State σ), r'.Settled reply' →
      s'.cancelled = false → (∀ index, index ≠ k → reply' index = reply index) →
      ∀ mode index, index ≠ k →
        (mode = .stopAtSuccess → k < index → (Outcome.ofEnding (reply' k)).passed = false) →
        (run mode count r' s').1.outcomes[index]? = (run mode count r s).1.outcomes[index]?

theorem contained_run {r' : Runner σ} {reply' : Nat → Ending} {s' : State σ} {k index : Nat}
    {mode : Mode} (hr : r.Settled reply) (hs : s.cancelled = false) (hr' : r'.Settled reply')
    (hs' : s'.cancelled = false) (hfault : (Outcome.ofEnding (reply k)).isFault = true)
    (hsame : ∀ index, index ≠ k → reply' index = reply index) (hindex : index ≠ k)
    (hpassed : mode = .stopAtSuccess → k < index → (Outcome.ofEnding (reply' k)).passed = false) :
    (run mode count r' s').1.outcomes[index]? = (run mode count r s).1.outcomes[index]? := by
  rw [outcomes_run hr hs, outcomes_run hr' hs']
  have hown : (outcomesOf reply' (.range count))[index]? =
      (outcomesOf reply (.range count))[index]? := by
    rw [getElem?_outcomesOf, getElem?_outcomesOf, hsame index hindex]
  cases mode with
  | parallel | exhaustive => exact hown
  | stopAtSuccess =>
    simp only [leftBy, getElem?_haltAtPass, hown]
    rw [any_take_congr fun j hj => ?_]
    by_cases hjk : j = k
    · subst hjk
      rw [hpassed rfl hj, passed_of_isFault hfault]
    · rw [hsame j hjk]

/-- **Modes agree.** If the endings of attempts depend on their index alone and nothing cancels the run,
attempts at the same time come to what they come to one after another, stopping at the first success
leaves out what comes after it, and a fault stays with its attempt. -/
theorem modes_agree (hr : p.Performs r) (hp : p.Settled reply) (count : Nat)
    (hs : s.cancelled = false) : Agreement p r reply count s := by
  have hsettled : r.Settled reply := hp.runner hr
  have hall : (run .exhaustive count r s).1.outcomes = outcomesOf reply (.range count) :=
    outcomes_run hsettled hs .exhaustive
  have hstop : (run .stopAtSuccess count r s).1.outcomes =
      haltAtPass (outcomesOf reply (.range count)) := outcomes_run hsettled hs .stopAtSuccess
  have hfirst (mode : Mode) : (run mode count r s).1.firstSuccess? =
      (outcomesOf reply (.range count)).findIdx? Outcome.passed :=
    firstSuccess?_run hsettled hs mode
  have hlength : (outcomesOf reply (.range count)).length = count := by simp [outcomesOf]
  constructor
  case exhaustive => exact hall
  case parallel => rw [hall, outcomes_run hsettled hs .parallel]; rfl
  case overlapping =>
    intro moves outcomes hends
    rw [hall, outcomes_of_ends hp hs hends]
  case ordered =>
    intro order horder
    rw [hall]
    obtain ⟨moves, hmoves⟩ := Stepwise.exists_moves_parallel hr horder s
    exact ⟨outcomes_parallel hsettled hs horder, moves, congrArg Pool.slots hmoves⟩
  case stopped =>
    intro index hindex
    rw [hfirst, List.findIdx?_eq_some_iff_findIdx_eq, hlength] at hindex
    obtain ⟨hlt, hfind⟩ := hindex
    rw [hall, hstop, started_stopAtSuccess hsettled hs, haltAtPass, hlength, hfind, List.take_range,
      Nat.min_eq_left (Nat.succ_le_of_lt hlt)]
    exact ⟨rfl, rfl⟩
  case unstopped =>
    intro hnone
    rw [hfirst] at hnone
    rw [hall, hstop, haltAtPass_of_none hnone]
  case firstSuccess => exact fun mode => (hfirst mode).trans (hfirst .exhaustive).symm
  case satisfied =>
    exact fun mode => congrArg Option.isSome ((hfirst mode).trans (hfirst .exhaustive).symm)
  case contained =>
    intro k hfault r' reply' s' hr' hs' hsame mode index hindex hpassed
    exact contained_run hsettled hs hr' hs' hfault hsame hindex hpassed

namespace Trio

def ending : Nat → Ending
  | 0 => .crashed (some "no space left")
  | 1 => .done { status := .succeeded, round := 0 }
  | _ => .done { status := .exhausted, round := 3 }

/-- Attempts of two steps that count all steps. -/
def steps : Stepwise Nat Bool where
  start _ := false
  step index last _ taken :=
    (if last then .inr (ending index) else .inl true, false, taken + 1)

def runner : Runner Nat := fun index _ taken => (ending index, false, taken + 2)

theorem performs : steps.Performs runner := by
  intro index cancelled taken
  cases cancelled <;> exact .more rfl (.last rfl)

theorem settled : steps.Settled ending where
  ending {_ last _ _} _ h := by
    cases last with
    | false => cases h
    | true => exact (Sum.inr.inj h).symm
  quiet _ _ := rfl

/-- The attempts begin in reverse order and take turns. -/
def turns : List (Move Nat) := [2, 1, 0, 2, 1, 0, 2, 1, 0].map .step

/-- The first attempt breaks down, the second one passes and the third one exhausts its rounds. -/
theorem modes_agree_trio : Agreement steps runner ending 3 { world := 0 } ∧
    (steps.run (.start 3 { world := 0 }) turns).Ends [.faulted "no space left",
      .finished { status := .succeeded, round := 0 }, .finished { status := .exhausted, round := 3 }] ∧
    (run .stopAtSuccess 3 runner { world := 0 }).1.outcomes = [.faulted "no space left",
      .finished { status := .succeeded, round := 0 }, .notStarted] :=
  ⟨modes_agree performs settled 3 rfl, rfl, rfl⟩

end Trio

end Schedule

end Testwright
