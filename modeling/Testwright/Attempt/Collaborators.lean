import Testwright.Attempt.Report

/-!
# Collaborators of an attempt

An attempt works with an author who writes tests, a judge who runs them, a meter for their
coverage and an archive for reports. Each is known only by how it reacts to a call: it changes a
state `σ` of its own, may cancel the run meanwhile, and ends the call with a value, an error or a
crash.

A run that is cancelled stays cancelled (`Session.call`): a collaborator can raise the flag but not
lower it.
-/

namespace Testwright

/-! ## Calls -/

/-- How a call ends. -/
inductive Reply (ε α : Type) where
  | done (value : α)
  | failed (error : ε)
  /-- The collaborator broke down, possibly with a message. -/
  | crashed (message : Option String)
  deriving DecidableEq, Repr, Inhabited

/-- A call: from the flag whether the run is cancelled, and the collaborators' state, to the reply,
whether the run was cancelled meanwhile, and the new state. -/
abbrev Call (σ ε α : Type) := Bool → σ → Reply ε α × Bool × σ

namespace Call

variable {σ τ ε α : Type}

/-- A call on a part of a larger state. -/
def within (get : τ → σ) (set : σ → τ → τ) (c : Call σ ε α) : Call τ ε α := fun cancelled t =>
  let (reply, cancels, s) := c cancelled (get t)
  (reply, cancels, set s t)

end Call

/-! ## Errors -/

/-- Why an author gives no test. -/
inductive AuthorError where
  /-- The author could not be reached or refused. -/
  | request (reason : String)
  /-- The author's answer holds no test. -/
  | noTest (reason : String)
  | cancelled
  deriving DecidableEq, Repr, Inhabited

/-- The error in words. -/
def AuthorError.message : AuthorError → String
  | request reason => "oracle request failed: " ++ reason
  | noTest reason => "oracle returned no usable test: " ++ reason
  | cancelled => "oracle call cancelled"

/-- What a judge finds. -/
inductive Verdict where
  | pass
  | fail (diagnostics : String)
  deriving DecidableEq, Repr, Inhabited

/-- Why a judge finds nothing. -/
inductive JudgeError where
  /-- A file or directory could not be prepared. -/
  | prepare (path reason : String)
  /-- A program could not be started. -/
  | launch (program reason : String)
  | cancelled
  deriving DecidableEq, Repr, Inhabited

/-- The error in words. -/
def JudgeError.message : JudgeError → String
  | prepare path reason => "failed to prepare " ++ path ++ ": " ++ reason
  | launch program reason => "failed to launch " ++ program ++ ": " ++ reason
  | cancelled => "validation cancelled"

/-! ## The collaborators -/

/-- An author writes tests and repairs them. -/
structure Author (σ : Type) where
  generate : Dossier → Call σ AuthorError UnitTest
  repair : Dossier → String → Call σ AuthorError UnitTest

/-- A judge compiles and runs a test. -/
abbrev Judge (σ : Type) := UnitTest → Call σ JudgeError Verdict

/-- Where the classes under test and their libraries are found. -/
structure CoveragePaths where
  buildPaths : List String := []
  sourceRoots : List String := []
  classpath : List String := []
  deriving DecidableEq, Repr, Inhabited

/-- What is to be measured. -/
structure CoverageRequest where
  testSource : String
  testName : String
  targetClass : String
  targetMethod : String
  paths : CoveragePaths
  deriving DecidableEq, Repr, Inhabited

/-- A meter measures the branch coverage of a test, in percent. -/
abbrev Meter (σ : Type) := CoverageRequest → Call σ String Binary64

/-- An archive keeps reports, or says why it cannot. -/
abbrev Archive (σ : Type) := Report → σ → Option String × σ

namespace Archive

variable {σ : Type}

/-- An archive that hands each report to several archives; the first failure is reported after
all of them had their turn. -/
def all : List (Archive σ) → Archive σ
  | [], _, s => (none, s)
  | a :: rest, r, s =>
    let (failure, s) := a r s
    let (later, s) := all rest r s
    (failure.or later, s)

/-- An archive that keeps all reports in order. -/
def log : Archive (List Report) := fun r kept => (none, kept ++ [r])

/-- An archive on a part of a larger state. -/
def within {τ : Type} (get : τ → σ) (set : σ → τ → τ) (a : Archive σ) : Archive τ := fun r t =>
  let (failure, s) := a r (get t)
  (failure, set s t)

end Archive

end Testwright
