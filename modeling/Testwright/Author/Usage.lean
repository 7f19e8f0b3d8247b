import Testwright.Author.Provider

/-!
# Usage of a model

The completions of a run with their tokens, and what they cost.
-/

namespace Testwright

/-- The text of a completion and the tokens it took, as far as these are reported. -/
structure Completion where
  text : String
  inputTokens : Option Nat := none
  outputTokens : Option Nat := none
  deriving DecidableEq, Repr, Inhabited

/-- The completions so far and their tokens. -/
structure Usage where
  rates : Rates
  calls : Nat := 0
  inputTokens : Nat := 0
  outputTokens : Nat := 0
  deriving DecidableEq, Repr, Inhabited

namespace Usage

/-- Count a completion; tokens that are not reported count as none. -/
def record (u : Usage) (input output : Option Nat) : Usage :=
  { u with
    calls := u.calls + 1
    inputTokens := u.inputTokens + input.getD 0
    outputTokens := u.outputTokens + output.getD 0 }

def price (tokens : Nat) (rate : Binary64) : Binary64 :=
  .ofNat tokens / .ofNat 1000000 * rate

/-- The cost of all completions in dollars. -/
def cost (u : Usage) : Binary64 :=
  price u.inputTokens u.rates.input + price u.outputTokens u.rates.output

/-- The usage in words, with the cost to four places. -/
def text (u : Usage) : String :=
  toString u.calls ++ " calls, " ++ toString u.inputTokens ++ " input / " ++
    toString u.outputTokens ++ " output tokens, $" ++ u.cost.fixed 4

end Usage

end Testwright
