import Testwright.Attempt.Collaborators
import Testwright.Attempt.Diagnostics
import Testwright.Attempt.Gate

/-!
# The rounds of an attempt

An attempt that the gate admits generates a test in round 0 and has it judged; as long as it fails
it is repaired and judged again, for at most `maxRounds` further rounds. Between rounds the dossier
may be enriched by the classes that the diagnostics name. Attempts that succeed, exhaust their
rounds or are refused by the gate are reported.

A run leaves its calls in order in the log of the session, so that statements about an attempt are
statements about a list.
-/

namespace Testwright

/-- A call that an attempt made. -/
inductive Event where
  | generate (d : Dossier)
  | repair (d : Dossier) (diagnostics : String)
  | judge (test : UnitTest)
  | measure (request : CoverageRequest)
  | enrich (names : Names)
  | report (r : Report)
  deriving DecidableEq, Repr, Inhabited

/-- The state of a run: that of the collaborators, whether the run is cancelled, and the calls so
far. -/
structure Session (σ : Type) where
  world : σ
  cancelled : Bool := false
  log : List Event := []

namespace Session

variable {σ ε α : Type}

/-- Make a call and log it. -/
def call (s : Session σ) (event : Event) (c : Call σ ε α) : Reply ε α × Session σ :=
  let (reply, cancels, world) := c s.cancelled s.world
  (reply, ⟨world, s.cancelled || cancels, s.log ++ [event]⟩)

end Session

/-- The collaborators of an attempt and the rules it follows. -/
structure Team (σ : Type) where
  author : Author σ
  judge : Judge σ
  archive : Archive σ
  /-- The meter for passing tests and the paths it needs. -/
  meter : Option (Meter σ × CoveragePaths) := none
  /-- How a dossier is enriched by classes that diagnostics name. -/
  enrich : Option (Names → Dossier × σ → Dossier × σ) := none
  policy : GatePolicy := {}
  /-- How often a failing test may be repaired. -/
  maxRounds : Nat := 3
  /-- A count of nanoseconds. -/
  clock : σ → Nat
  /-- The present time. -/
  now : σ → Timestamp

/-- An error that ends an attempt without a result. -/
inductive AttemptError where
  | author (error : AuthorError)
  | judge (error : JudgeError)
  deriving DecidableEq, Repr, Inhabited

/-- The error in words. -/
def AttemptError.message : AttemptError → String
  | author error => error.message
  | judge error => error.message

/-- How an attempt ends. -/
abbrev Ending := Reply AttemptError Result

/-- What a round comes to. -/
inductive RoundOutcome where
  | passed
  | failed (diagnostics : String)
  | cancelled
  | error (error : AttemptError)
  | crashed (message : Option String)
  deriving DecidableEq, Repr, Inhabited

namespace Team

variable {σ : Type}

/-! ## One round -/

/-- Have a test written in round 0, or repaired in a later one. -/
def produce (team : Team σ) (d : Dossier) (s : Session σ) : Reply AuthorError UnitTest × Session σ :=
  if d.round = 0 then s.call (.generate d) (team.author.generate d)
  else
    let diagnostics := (d.lastFailure?.map Failure.diagnostics).getD ""
    s.call (.repair d diagnostics) (team.author.repair d diagnostics)

/-- What a judge's reply means for the round. -/
def roundOutcome : Reply JudgeError Verdict → RoundOutcome
  | .done .pass => .passed
  | .done (.fail diagnostics) => .failed diagnostics
  | .failed .cancelled => .cancelled
  | .failed e => .error (.judge e)
  | .crashed message => .crashed message

/-- A round: a test is written and judged. The dossier keeps the test. -/
def round (team : Team σ) (d : Dossier) (s : Session σ) : RoundOutcome × Dossier × Session σ :=
  match team.produce d s with
  | (.failed (.noTest message), s) => (.failed message, d, s)
  | (.failed .cancelled, s) => (.cancelled, d, s)
  | (.failed (.request reason), s) => (.error (.author (.request reason)), d, s)
  | (.crashed message, s) => (.crashed message, d, s)
  | (.done test, s) =>
    let (reply, s) := s.call (.judge test) (team.judge test)
    (roundOutcome reply, { d with unitTest := some test }, s)

/-! ## Between and after the rounds -/

/-- Keep a report; a failure to do so changes nothing. -/
def keep (team : Team σ) (r : Report) (s : Session σ) : Session σ :=
  let (_, world) := team.archive r s.world
  { s with world, log := s.log ++ [.report r] }

/-- Measure the coverage of the test of a dossier, if there is a meter; the error is the message of
a crash. -/
def measure (team : Team σ) (d : Dossier) (s : Session σ) :
    Except (Option String) (Option Coverage) × Session σ :=
  match team.meter, d.unitTest with
  | some (meter, paths), some test =>
    let request : CoverageRequest :=
      ⟨test.source, test.className, d.className, d.methodSignature, paths⟩
    match s.call (.measure request) (meter request) with
    | (.done percent, s) => (.ok (some (.percent percent)), s)
    | (.failed message, s) => (.ok (some (.error message)), s)
    | (.crashed message, s) => (.error message, s)
  | _, _ => (.ok none, s)

/-- End an attempt whose test passed. -/
def succeed (team : Team σ) (started : Nat) (d : Dossier) (s : Session σ) : Ending × Session σ :=
  match team.measure d s with
  | (.ok coverage, s) =>
    let result : Result :=
      { status := .succeeded, round := d.round, elapsed := team.clock s.world - started, coverage }
    (.done result, team.keep (.finished d result (team.now s.world)) s)
  | (.error message, s) => (.crashed message, s)

/-- End an attempt whose last round failed. -/
def exhaust (team : Team σ) (started : Nat) (d : Dossier) (s : Session σ) : Ending × Session σ :=
  let result : Result :=
    { status := .exhausted, round := d.round, elapsed := team.clock s.world - started }
  (.done result, team.keep (.finished d result (team.now s.world)) s)

/-- End an attempt that is cancelled. -/
def cancel (team : Team σ) (started : Nat) (d : Dossier) (s : Session σ) : Ending × Session σ :=
  (.done { status := .cancelled, round := d.round, elapsed := team.clock s.world - started }, s)

/-- Enrich a dossier by the classes that the latest diagnostics name. -/
def enrichFromFailure (team : Team σ) (d : Dossier) (s : Session σ) : Dossier × Session σ :=
  match team.enrich, d.lastFailure? with
  | some enrich, some failure =>
    let names := Diagnostics.classNames failure.diagnostics
    if names.isEmpty then (d, s)
    else
      let (d, world) := enrich names (d, s.world)
      (d, { s with world, log := s.log ++ [.enrich names] })
  | _, _ => (d, s)

/-! ## The attempt -/

/-- Run the round of a dossier and, while tests fail, at most `remaining` further ones. -/
def rounds (team : Team σ) (started : Nat) :
    Nat → Dossier → Session σ → Ending × Session σ
  | remaining, d, s =>
    if s.cancelled then team.cancel started d s
    else
      match team.round d s with
      | (.passed, d, s) => team.succeed started d s
      | (.cancelled, d, s) => team.cancel started d s
      | (.error e, _, s) => (.failed e, s)
      | (.crashed message, _, s) => (.crashed message, s)
      | (.failed diagnostics, d, s) =>
        let d := d.fail diagnostics
        match remaining with
        | 0 => team.exhaust started d s
        | remaining + 1 =>
          let (d, s) := team.enrichFromFailure { d with round := d.round + 1 } s
          rounds team started remaining d s

/-- Run an attempt over its dossier. -/
def run (team : Team σ) (d : Dossier) (s : Session σ) : Ending × Session σ :=
  let started := team.clock s.world
  if s.cancelled then team.cancel started d s
  else
    match team.policy.judge d with
    | .refused reason =>
      (.done .skipped, team.keep (.skipped d reason.message (team.now s.world)) s)
    | .admitted _ => team.rounds started team.maxRounds { d with round := 0 } s

end Team

end Testwright
