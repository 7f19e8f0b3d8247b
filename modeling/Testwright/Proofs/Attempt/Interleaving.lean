import Testwright.Attempt.Schedule
import Testwright.Proofs.Attempt.Watching

/-!
# Attempts at the same time

Attempts that run at the same time take turns: between two calls of one attempt others may make calls of
their own, the world may change by itself, and the run may be cancelled. `Stage` is what an attempt
has come to between two of its calls, `Campaign.step` is what it does next, and `Campaign.run` lets
attempts take turns in any order.

An attempt that takes all turns does what it does in one go (`leads_attempt`), so every scheduled run is
one of those in which attempts take turns (`exists_turns_schedule`).
-/

namespace Testwright

variable {σ : Type}

/-! ## A log among archives -/

/-- The state of collaborators, with the reports kept so far. -/
abbrev Logged (σ : Type) := σ × List Report

def Call.beside {ε α : Type} (c : Call σ ε α) : Call (Logged σ) ε α :=
  c.within Prod.fst fun w t => (w, t.2)

def Archive.beside (a : Archive σ) : Archive (Logged σ) := a.within Prod.fst fun w t => (w, t.2)

/-- The archive that keeps all reports in the log. -/
def Archive.logging : Archive (Logged σ) := Archive.log.within Prod.snd fun kept t => (t.1, kept)

/-- Attempts of a team whose reports go to a log, and to other archives before and after it. -/
structure Campaign (σ : Type) where
  team : Team σ
  assemble : Nat → σ → Dossier × σ
  before : List (Archive σ) := []
  after : List (Archive σ) := []

namespace Campaign

/-- The archives in the order in which they get a report. -/
def archives (c : Campaign σ) : List (Archive (Logged σ)) :=
  c.before.map .beside ++ .logging :: c.after.map .beside

/-- The team of a campaign, of which only the archives know the log. -/
def crew (c : Campaign σ) : Team (Logged σ) where
  author :=
    { generate := fun d => (c.team.author.generate d).beside
      repair := fun d diagnostics => (c.team.author.repair d diagnostics).beside }
  judge test := (c.team.judge test).beside
  archive := .all c.archives
  meter := c.team.meter.map fun m => (fun request => (m.1 request).beside, m.2)
  enrich := c.team.enrich.map fun enrich names st =>
    let (d, world) := enrich names (st.1, st.2.1)
    (d, world, st.2.2)
  policy := c.team.policy
  maxRounds := c.team.maxRounds
  clock t := c.team.clock t.1
  now t := c.team.now t.1

def assembleBeside (c : Campaign σ) (index : Nat) (t : Logged σ) : Dossier × Logged σ :=
  let (d, world) := c.assemble index t.1
  (d, world, t.2)

/-- The attempts of a campaign, each in one go. -/
def attempts (c : Campaign σ) : Runner (Logged σ × List Event) := c.crew.attempts c.assembleBeside

end Campaign

/-! ## Steps of an attempt -/

/-- What an attempt has come to between two calls. -/
inductive Stage (σ : Type) where
  | idle
  | begun
  | assembled (d : Dossier)
  /-- A round is about to begin. -/
  | resting (started remaining : Nat) (d : Dossier)
  | writing (started remaining : Nat) (d : Dossier)
  | judging (started remaining : Nat) (d : Dossier) (test : UnitTest)
  /-- A round has failed, and another one is to follow. -/
  | failed (started remaining : Nat) (d : Dossier)
  | passed (started : Nat) (d : Dossier)
  /-- Some archives have not got the report yet. -/
  | reporting (result : Result) (r : Report) (archives : List (Archive (Logged σ)))
  | ended (outcome : Outcome)

namespace Stage

/-- An attempt that is not under way: it has not begun, or is over. -/
def outcome? : Stage σ → Option Outcome
  | idle => some .notStarted
  | ended outcome => some outcome
  | _ => none

end Stage

/-- What a judge said of a test. -/
abbrev Judgement := UnitTest × Reply JudgeError Verdict

abbrev LoggedSession (σ : Type) := Session (Logged σ)

namespace Campaign

variable (c : Campaign σ) (index : Nat)

def file (result : Result) (r : Report) (s : LoggedSession σ) : Stage σ × LoggedSession σ :=
  (.reporting result r c.archives, { s with log := s.log ++ [.report r] })

def leave (run : Ending × LoggedSession σ) : Stage σ × LoggedSession σ :=
  (.ended (.ofEnding run.1), run.2)

/-- What an attempt comes to after a round. -/
def stageAfter (started : Nat) :
    Nat → RoundOutcome × Dossier × LoggedSession σ → Stage σ × LoggedSession σ
  | _, (.passed, d, s) => (.passed started d, s)
  | _, (.cancelled, d, s) => leave (c.crew.cancel started d s)
  | _, (.error e, _, s) => leave (.failed e, s)
  | _, (.crashed message, _, s) => leave (.crashed message, s)
  | 0, (.failed diagnostics, d, s) =>
    let d := d.fail diagnostics
    let result : Result :=
      { status := .exhausted, round := d.round, elapsed := c.crew.clock s.world - started }
    c.file result (.finished d result (c.crew.now s.world)) s
  | remaining + 1, (.failed diagnostics, d, s) =>
    (.failed started remaining { d.fail diagnostics with round := d.round + 1 }, s)

/-- What an attempt comes to when the author has replied. -/
def stageWritten (started remaining : Nat) (d : Dossier) :
    Reply AuthorError UnitTest × LoggedSession σ → Stage σ × LoggedSession σ
  | (.failed (.noTest message), s) => c.stageAfter started remaining (.failed message, d, s)
  | (.failed .cancelled, s) => c.stageAfter started remaining (.cancelled, d, s)
  | (.failed (.request reason), s) =>
    c.stageAfter started remaining (.error (.author (.request reason)), d, s)
  | (.crashed message, s) => c.stageAfter started remaining (.crashed message, d, s)
  | (.done test, s) => (.judging started remaining d test, s)

/-- What an attempt comes to when its passing test has been measured. -/
def stageMeasured (started : Nat) (d : Dossier) :
    Except (Option String) (Option Coverage) × LoggedSession σ → Stage σ × LoggedSession σ
  | (.ok coverage, s) =>
    let result : Result :=
      { status := .succeeded, round := d.round, elapsed := c.crew.clock s.world - started, coverage }
    c.file result (.finished d result (c.crew.now s.world)) s
  | (.error message, s) => leave (.crashed message, s)

/-- What an attempt comes to at the gate. -/
def stageAtGate (d : Dossier) (s : LoggedSession σ) : GateDecision → Stage σ × LoggedSession σ
  | .refused reason => c.file .skipped (.skipped d reason.message (c.crew.now s.world)) s
  | .admitted _ => (.resting (c.crew.clock s.world) c.crew.maxRounds { d with round := 0 }, s)

/-- The next step of an attempt, which makes one call at most. -/
def step : Stage σ → LoggedSession σ → Stage σ × LoggedSession σ
  | .idle, s => (if s.cancelled then .ended .notStarted else .begun, s)
  | .begun, s =>
    let (d, world) := c.assembleBeside index s.world
    (.assembled d, { s with world })
  | .assembled d, s =>
    if s.cancelled then leave (c.crew.cancel (c.crew.clock s.world) d s)
    else c.stageAtGate d s (c.crew.policy.judge d)
  | .resting started remaining d, s =>
    if s.cancelled then leave (c.crew.cancel started d s) else (.writing started remaining d, s)
  | .writing started remaining d, s => c.stageWritten started remaining d (c.crew.produce d s)
  | .judging started remaining d test, s =>
    let (reply, s) := s.call (.judge test) (c.crew.judge test)
    c.stageAfter started remaining (Team.roundOutcome reply, { d with unitTest := some test }, s)
  | .failed started remaining d, s =>
    let (d, s) := c.crew.enrichFromFailure d s
    (.resting started remaining d, s)
  | .passed started d, s => c.stageMeasured started d (c.crew.measure d s)
  | .reporting result r (archive :: rest), s =>
    (.reporting result r rest, { s with world := (archive r s.world).2 })
  | .reporting result _ [], s => (.ended (.finished result), s)
  | .ended outcome, s => (.ended outcome, s)

/-- What the judge says in the next step of an attempt. -/
def heard : Stage σ → LoggedSession σ → List Judgement
  | .judging _ _ _ test, s => [(test, (c.crew.judge test s.cancelled s.world).1)]
  | _, _ => []

/-! ## An attempt on its own -/

/-- Steps of one attempt while nothing else happens. -/
inductive Leads : Stage σ × LoggedSession σ → Stage σ × LoggedSession σ → Prop
  | refl {x} : Leads x x
  | step {stage s y} (rest : Leads (c.step index stage s) y) : Leads (stage, s) y

variable {c index}

theorem Leads.trans {x y z : Stage σ × LoggedSession σ} (h : c.Leads index x y)
    (h' : c.Leads index y z) : c.Leads index x z := by
  induction h with
  | refl => exact h'
  | step _ ih => exact .step (ih h')

variable {started remaining : Nat} {d : Dossier} {s : LoggedSession σ} {result : Result} {r : Report}

theorem leads_reporting (archives : List (Archive (Logged σ))) (s : LoggedSession σ) :
    c.Leads index (.reporting result r archives, s)
      (.ended (.finished result), { s with world := (Archive.all archives r s.world).2 }) := by
  induction archives generalizing s with
  | nil => exact .step .refl
  | cons archive rest ih => exact .step (ih { s with world := (archive r s.world).2 })

theorem leads_file : c.Leads index (c.file result r s) (leave (.done result, c.crew.keep r s)) :=
  leads_reporting c.archives { s with log := s.log ++ [.report r] }

theorem leads_passed : c.Leads index (.passed started d, s) (leave (c.crew.succeed started d s)) := by
  refine .step ?_
  change c.Leads index (c.stageMeasured started d (c.crew.measure d s)) _
  unfold Team.succeed
  match c.crew.measure d s with
  | (.ok _, _) => exact leads_file
  | (.error _, _) => exact .refl

theorem leads_writing : c.Leads index (.writing started remaining d, s)
    (c.stageAfter started remaining (c.crew.round d s)) := by
  refine .step ?_
  change c.Leads index (c.stageWritten started remaining d (c.crew.produce d s)) _
  unfold Team.round
  match c.crew.produce d s with
  | (.failed (.noTest _), _) | (.failed .cancelled, _) | (.failed (.request _), _)
  | (.crashed _, _) => exact .refl
  | (.done _, _) => exact .step .refl

theorem leads_resting (remaining : Nat) (d : Dossier) (s : LoggedSession σ) :
    c.Leads index (.resting started remaining d, s) (leave (c.crew.rounds started remaining d s)) := by
  -- as in `Team.rounds`, cancelling and a round come before the repairs are counted
  induction remaining using Nat.strongRecOn generalizing d s with
  | ind remaining ih =>
    refine .step ?_
    cases hcancelled : s.cancelled with
    | true =>
      rw [Team.rounds_of_cancelled hcancelled]
      simp only [step, hcancelled, if_true]
      exact .refl
    | false =>
      rw [Team.rounds_of_running hcancelled]
      simp only [step, hcancelled, Bool.false_eq_true, if_false]
      refine leads_writing.trans ?_
      match c.crew.round d s with
      | (.passed, _, _) => exact leads_passed
      | (.cancelled, _, _) | (.error _, _, _) | (.crashed _, _, _) => cases remaining <;> exact .refl
      | (.failed diagnostics, d, s) =>
        cases remaining with
        | zero => exact leads_file
        | succ remaining => exact .step (ih remaining (Nat.lt_succ_self remaining) _ _)

theorem leads_assembled : c.Leads index (.assembled d, s) (leave (c.crew.run d s)) := by
  refine .step ?_
  cases hcancelled : s.cancelled with
  | true =>
    rw [Team.run_of_cancelled hcancelled]
    simp only [step, hcancelled, if_true]
    exact .refl
  | false =>
    simp only [step, hcancelled, Bool.false_eq_true, if_false]
    cases hgate : c.crew.policy.judge d with
    | refused reason =>
      rw [Team.run_of_refused hcancelled hgate]
      exact leads_file
    | admitted score =>
      rw [Team.run_of_admitted hcancelled hgate]
      exact leads_resting _ _ _

/-- The session of the state in which a schedule is. -/
def session (s : Schedule.State (Logged σ × List Event)) : LoggedSession σ :=
  ⟨s.world.1, s.cancelled, s.world.2⟩

/-- An attempt that takes all steps does what it does in one go. -/
theorem leads_attempt (s : Schedule.State (Logged σ × List Event)) :
    c.Leads index (.idle, session s) (.ended (Schedule.attempt c.attempts index s).1,
      session (Schedule.attempt c.attempts index s).2) := by
  obtain ⟨⟨world, log⟩, cancelled, attempted⟩ := s
  refine .step ?_
  cases cancelled with
  | true => exact .refl
  | false => exact .step leads_assembled

end Campaign

/-! ## Attempts side by side -/

/-- An attempt under way, with what the judge has said in it. -/
structure Attempt (σ : Type) where
  stage : Stage σ := .idle
  judged : List Judgement := []

/-- Attempts by their index, and the session they share. -/
structure Joint (σ : Type) where
  attempts : List (Attempt σ)
  session : LoggedSession σ

/-- What happens next while attempts run side by side. -/
inductive Turn (σ : Type) where
  /-- An attempt takes its next step. -/
  | step (index : Nat)
  /-- Something changes that no attempt does. -/
  | drift (f : σ → σ)
  | cancel

namespace Joint

/-- No attempt has begun. -/
def start (count : Nat) (s : LoggedSession σ) : Joint σ := ⟨.replicate count {}, s⟩

/-- No attempt is under way, and these are the outcomes. -/
def Ends (j : Joint σ) (outcomes : List Outcome) : Prop :=
  j.attempts.map (fun a => a.stage.outcome?) = outcomes.map some

end Joint

namespace Campaign

variable (c : Campaign σ)

def advance (index : Nat) (a : Attempt σ) (s : LoggedSession σ) : Attempt σ × LoggedSession σ :=
  let (stage, s') := c.step index a.stage s
  (⟨stage, a.judged ++ c.heard a.stage s⟩, s')

def turn (j : Joint σ) : Turn σ → Joint σ
  | .step index =>
    match j.attempts[index]? with
    | none => j
    | some a =>
      let (a, s) := c.advance index a j.session
      ⟨j.attempts.set index a, s⟩
  | .drift f => { j with session.world := (f j.session.world.1, j.session.world.2) }
  | .cancel => { j with session.cancelled := true }

/-- Let things happen in an order. -/
def run (j : Joint σ) (turns : List (Turn σ)) : Joint σ := turns.foldl c.turn j

variable {c} {index : Nat}

theorem run_append (j : Joint σ) (turns turns' : List (Turn σ)) :
    c.run j (turns ++ turns') = c.run (c.run j turns) turns' :=
  List.foldl_append

theorem turn_step_of_none {j : Joint σ} (h : j.attempts[index]? = none) :
    c.turn j (.step index) = j := by
  simp [turn, h]

theorem turn_step_of_some {j : Joint σ} {a : Attempt σ} (h : j.attempts[index]? = some a) :
    c.turn j (.step index) = ⟨j.attempts.set index ⟨(c.step index a.stage j.session).1,
      a.judged ++ c.heard a.stage j.session⟩, (c.step index a.stage j.session).2⟩ := by
  simp [turn, h, advance]

/-- An attempt may take several steps while the others wait. -/
theorem Leads.exists_turns {front : List (Attempt σ)} {x y : Stage σ × LoggedSession σ}
    (h : c.Leads front.length x y) (back : List (Attempt σ)) (judged : List Judgement) :
    ∃ turns judged', c.run ⟨front ++ ⟨x.1, judged⟩ :: back, x.2⟩ turns =
      ⟨front ++ ⟨y.1, judged'⟩ :: back, y.2⟩ := by
  induction h generalizing judged with
  | refl => exact ⟨[], judged, rfl⟩
  | @step stage s y _ ih =>
    obtain ⟨turns, judged', hrun⟩ := ih (judged ++ c.heard stage s)
    refine ⟨.step front.length :: turns, judged', ?_⟩
    rw [← hrun]
    have hturn : c.turn ⟨front ++ ⟨stage, judged⟩ :: back, s⟩ (.step front.length) =
        ⟨front ++ ⟨(c.step front.length stage s).1, judged ++ c.heard stage s⟩ :: back,
          (c.step front.length stage s).2⟩ := by
      simp [turn, advance]
    rw [run, List.foldl_cons, hturn]
    rfl

/-! ## Scheduled attempts -/

theorem exists_turns_sequential (stop : Bool) (count : Nat) (front : List (Attempt σ))
    (s : Schedule.State (Logged σ × List Event)) :
    ∃ turns back,
      c.run ⟨front ++ .replicate count {}, session s⟩ turns = ⟨front ++ back,
        session (Schedule.sequential c.attempts stop front.length count s).2⟩ ∧
      back.map (fun a => a.stage.outcome?) =
        (Schedule.sequential c.attempts stop front.length count s).1.map some := by
  induction count generalizing front s with
  | zero => exact ⟨[], [], rfl, rfl⟩
  | succ count ih =>
    have hleads : c.Leads front.length (.idle, session s) _ := leads_attempt s
    obtain ⟨turns, judged, hrun⟩ := hleads.exists_turns (.replicate count {}) []
    rw [Schedule.sequential]
    generalize Schedule.attempt c.attempts front.length s = x at *
    obtain ⟨outcome, s'⟩ := x
    simp only at hrun ⊢
    split
    · refine ⟨turns, ⟨.ended outcome, judged⟩ :: .replicate count {}, hrun, ?_⟩
      simp [Stage.outcome?]
    · obtain ⟨turns', back, hrun', hback⟩ := ih (front ++ [⟨.ended outcome, judged⟩]) s'
      rw [List.length_append, List.length_singleton] at hrun' hback
      refine ⟨turns ++ turns', ⟨.ended outcome, judged⟩ :: back, ?_, ?_⟩
      · rw [run_append, List.replicate_succ, hrun]
        simpa using hrun'
      · simpa [Stage.outcome?] using hback

end Campaign

namespace Schedule

variable {τ : Type} (run : Runner τ)

/-- Attempts that take place at the same time, as if in order, take place as if one after another. -/
theorem inOrder_range' (count : Nat) (front : List Outcome) (s : State τ) :
    inOrder run (.range' front.length count) (front ++ .replicate count .notStarted, s) =
      (front ++ (sequential run false front.length count s).1,
        (sequential run false front.length count s).2) := by
  induction count generalizing front s with
  | zero => rfl
  | succ count ih =>
    rw [List.range'_succ, inOrder, sequential]
    generalize attempt run front.length s = x
    obtain ⟨outcome, s'⟩ := x
    have := ih (front ++ [outcome]) s'
    simpa [List.replicate_succ] using this

theorem parallel_range (count : Nat) (s : State τ) :
    parallel run (.range count) count s = sequential run false 0 count s := by
  rw [parallel, List.range_eq_range']
  exact inOrder_range' run count [] s

end Schedule

namespace Campaign

variable {c : Campaign σ}

/-- Every scheduled run is one of those in which attempts take turns. -/
theorem exists_turns_schedule (mode : Mode) (count : Nat)
    (s : Schedule.State (Logged σ × List Event)) :
    ∃ turns, (c.run (.start count (session s)) turns).Ends
        (Schedule.run mode count c.attempts s).1.outcomes ∧
      (c.run (.start count (session s)) turns).session =
        session (Schedule.run mode count c.attempts s).2 := by
  have sequential (stop : Bool) : ∃ turns, (c.run (.start count (session s)) turns).Ends
        (Schedule.sequential c.attempts stop 0 count s).1 ∧
      (c.run (.start count (session s)) turns).session =
        session (Schedule.sequential c.attempts stop 0 count s).2 := by
    obtain ⟨turns, back, hrun, hback⟩ := exists_turns_sequential (c := c) stop count [] s
    refine ⟨turns, ?_⟩
    have hrun : c.run (.start count (session s)) turns = ⟨back, _⟩ := hrun
    rw [hrun]
    exact ⟨hback, rfl⟩
  cases mode with
  | stopAtSuccess => exact sequential true
  | exhaustive => exact sequential false
  | parallel =>
    rw [Schedule.run]
    simp only [Schedule.parallel_range]
    exact sequential false

end Campaign

end Testwright
