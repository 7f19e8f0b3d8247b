import Testwright.Attempt.Dossier
import Testwright.Java.Decision

/-!
# The gate before an attempt

A method is worth an attempt if its body branches often enough and at least one class it depends
on had to be reconstructed. How branching is measured, and how often is enough, is a policy.
-/

namespace Testwright

/-- A measure of branching. -/
inductive Measure where
  /-- Conditionals, switch arms and loops with a condition. -/
  | branchConstructs
  /-- Every decision. -/
  | decisionPoints
  deriving DecidableEq, Repr, Inhabited

namespace Measure

def name : Measure → String
  | branchConstructs => "branch-constructs"
  | decisionPoints => "decision-points"

/-- The branching of a profile. -/
def score : Measure → Java.DecisionProfile → Nat
  | branchConstructs, p => p.branchConstructs
  | decisionPoints, p => p.decisionPoints

end Measure

/-- The measure of branching and the least score that is enough. -/
structure GatePolicy where
  measure : Measure := .branchConstructs
  threshold : Nat := 2
  deriving DecidableEq, Repr, Inhabited

/-- Why the gate refuses a method. -/
inductive Rejection where
  | belowThreshold (policy : GatePolicy) (score : Nat)
  /-- No class had to be reconstructed. -/
  | noActivations
  deriving DecidableEq, Repr, Inhabited

/-- The reason in words. -/
def Rejection.message : Rejection → String
  | belowThreshold policy score =>
    policy.measure.name ++ " score " ++ toString score ++ " is below threshold "
      ++ toString policy.threshold
  | noActivations => "no dependency required fallback reconstruction"

inductive GateDecision where
  | admitted (score : Nat)
  | refused (reason : Rejection)
  deriving DecidableEq, Repr, Inhabited

namespace GatePolicy

/-- The decision profile of a method; text that is no Java does not branch. -/
def profile (source : String) : Java.DecisionProfile := (Java.methodProfile? source.toList).getD {}

/-- How much a method branches by the policy's measure. -/
def score (policy : GatePolicy) (source : String) : Nat := policy.measure.score (profile source)

/-- Decide on a score and a number of reconstructed classes; the score is looked at first. -/
def decide (policy : GatePolicy) (score activations : Nat) : GateDecision :=
  if score < policy.threshold then .refused (.belowThreshold policy score)
  else if activations = 0 then .refused .noActivations
  else .admitted score

/-- Decide on a method. -/
def judge (policy : GatePolicy) (d : Dossier) : GateDecision :=
  policy.decide (policy.score d.methodSource) d.activations

end GatePolicy

end Testwright
