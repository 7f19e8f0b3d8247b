import Testwright.Attempt.Assembly
import Testwright.Attempt.Rounds

/-!
# Scheduling attempts

The attempts at a method run one after another until the first success, all one after another, or
all at the same time. An attempt that fails or crashes is a fault of that attempt only, and an
attempt that would begin after the run was cancelled never starts.

The outcome of a run that is concurrent is described by the order in which its attempts take
place (`Schedule.inOrder`).
-/

namespace Testwright

/-- How attempts are scheduled. -/
inductive Mode where
  /-- In order, up to the first success. -/
  | stopAtSuccess
  /-- All at the same time. -/
  | parallel
  /-- All of them in order. -/
  | exhaustive
  deriving DecidableEq, Repr, Inhabited

/-- The mode of two settings. -/
def Mode.ofFlags (stop parallel : Bool) : Mode :=
  if stop then .stopAtSuccess else if parallel then .parallel else .exhaustive

/-- What became of an attempt. -/
inductive Outcome where
  | finished (r : Result)
  /-- The attempt ended in an error or crashed. -/
  | faulted (message : String)
  | notStarted
  deriving DecidableEq, Repr, Inhabited

namespace Outcome

def ofEnding : Ending → Outcome
  | .done r => .finished r
  | .failed e => .faulted e.message
  | .crashed message => .faulted (message.getD "unknown panic")

/-- Whether an attempt produced a passing test. -/
def passed : Outcome → Bool
  | finished r => r.passed
  | _ => false

/-- Whether an attempt failed or crashed. -/
def isFault : Outcome → Bool
  | faulted _ => true
  | _ => false

/-- Whether an attempt has a status. -/
def hasStatus (status : Status) : Outcome → Bool
  | finished r => r.status == status
  | _ => false

end Outcome

/-- The outcomes of all attempts, by their index. -/
structure Summary where
  mode : Mode
  outcomes : List Outcome
  deriving DecidableEq, Repr, Inhabited

namespace Summary

/-- The first attempt that produced a passing test. -/
def firstSuccess? (s : Summary) : Option Nat := s.outcomes.findIdx? Outcome.passed

/-- Whether some attempt produced a passing test. -/
def satisfied (s : Summary) : Bool := s.firstSuccess?.isSome

/-- The number of attempts that produced a passing test. -/
def succeeded (s : Summary) : Nat := s.outcomes.countP Outcome.passed

/-- The number of attempts that failed or crashed. -/
def faulted (s : Summary) : Nat := s.outcomes.countP Outcome.isFault

/-- The number of attempts that never started. -/
def notStarted (s : Summary) : Nat := s.outcomes.countP (· == .notStarted)

/-- The number of attempts with a status. -/
def count (s : Summary) (status : Status) : Nat := s.outcomes.countP (Outcome.hasStatus status)

end Summary

/-- Runs the attempt of an index. -/
abbrev Runner (σ : Type) := Nat → Call σ AttemptError Result

namespace Schedule

variable {σ : Type}

/-- The state of a run: that of the attempts, whether the run is cancelled, and the attempts
started so far, in order. -/
structure State (σ : Type) where
  world : σ
  cancelled : Bool := false
  started : List Nat := []

/-- Run one attempt unless the run is cancelled. -/
def attempt (run : Runner σ) (index : Nat) (s : State σ) : Outcome × State σ :=
  if s.cancelled then (.notStarted, s)
  else
    let (ending, cancels, world) := run index s.cancelled s.world
    (.ofEnding ending, ⟨world, s.cancelled || cancels, s.started ++ [index]⟩)

/-- Run `count` attempts in order from an index on; with `stop` those after a success never
start. -/
def sequential (run : Runner σ) (stop : Bool) (index : Nat) :
    Nat → State σ → List Outcome × State σ
  | 0, s => ([], s)
  | count + 1, s =>
    let (outcome, s) := attempt run index s
    if stop && outcome.passed then (outcome :: List.replicate count .notStarted, s)
    else
      let (rest, s) := sequential run stop (index + 1) count s
      (outcome :: rest, s)

/-- Run the attempts of some indices in the given order; outcomes are kept by index. -/
def inOrder (run : Runner σ) : List Nat → List Outcome × State σ → List Outcome × State σ
  | [], st => st
  | index :: rest, (outcomes, s) =>
    let (outcome, s) := attempt run index s
    inOrder run rest (outcomes.set index outcome, s)

/-- Run attempts at the same time, as if in the given order. -/
def parallel (run : Runner σ) (order : List Nat) (count : Nat) (s : State σ) :
    List Outcome × State σ :=
  inOrder run order (List.replicate count .notStarted, s)

def run (mode : Mode) (count : Nat) (run : Runner σ) (s : State σ) : Summary × State σ :=
  let (outcomes, s) := match mode with
    | .stopAtSuccess => sequential run true 0 count s
    | .exhaustive => sequential run false 0 count s
    | .parallel => parallel run (List.range count) count s
  (⟨mode, outcomes⟩, s)

end Schedule

/-- Attempts at a method: each assembles a fresh dossier and runs its rounds. The state is that of
the collaborators with the log of all calls. -/
def Team.attempts {σ : Type} (team : Team σ) (assemble : Nat → σ → Dossier × σ) :
    Runner (σ × List Event) := fun index cancelled (world, log) =>
  let (d, world) := assemble index world
  let (ending, s) := team.run d ⟨world, cancelled, log⟩
  (ending, s.cancelled, s.world, s.log)

end Testwright
