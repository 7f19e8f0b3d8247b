import Testwright.Attempt.Collaborators
import Testwright.Author.Prompt
import Testwright.Author.Usage

/-!
# Models as authors

A language model becomes an author by prompts and answers: a request that fails is repeated while
another try may succeed, and the first completion is read for a test. The state of such an author
is the usage so far beside the state of the model.
-/

namespace Testwright

/-- A model completes a request under standing instructions. -/
abbrev Completer (σ : Type) := (system user : String) → Call σ ProviderError Completion

namespace Completer

variable {σ : Type}

/-- Request a completion and, while errors allow it, try again for at most `retries` times. -/
def ask (complete : Call σ ProviderError Completion) :
    Nat → Call (Usage × σ) AuthorError Completion
  | retries, cancelled, (usage, s) =>
    if cancelled then (.failed .cancelled, false, usage, s)
    else
      match complete cancelled s with
      | (.done c, cancels, s) => (.done c, cancels, usage.record c.inputTokens c.outputTokens, s)
      | (.crashed message, cancels, s) => (.crashed message, cancels, usage, s)
      | (.failed e, cancels, s) =>
        match retries with
        | 0 => (.failed (.request e.message), cancels, usage, s)
        | retries + 1 =>
          if e.isRetryable then
            let (reply, later, st) := ask complete retries (cancelled || cancels) (usage, s)
            (reply, cancels || later, st)
          else (.failed (.request e.message), cancels, usage, s)

def readTest (d : Dossier) : Reply AuthorError Completion → Reply AuthorError UnitTest
  | .done c =>
    match Answer.test? d c.text with
    | .ok test => .done test
    | .error missing => .failed (.noTest missing.message)
  | .failed e => .failed e
  | .crashed message => .crashed message

/-- Send a request and read the answer. -/
def answer (complete : Completer σ) (retries : Nat) (d : Dossier) (user : String) :
    Call (Usage × σ) AuthorError UnitTest := fun cancelled st =>
  let (reply, cancels, st) := ask (complete Prompt.instructions user) retries cancelled st
  (readTest d reply, cancels, st)

/-- The request to repair the test of a dossier; without a test the request for a first one. -/
def repairRequest (d : Dossier) (diagnostics : String) : String :=
  match d.unitTest with
  | some test => Prompt.repair d test diagnostics
  | none => Prompt.generation d

/-- The author that a model makes. -/
def author (complete : Completer σ) (retries : Nat) : Author (Usage × σ) where
  generate d := answer complete retries d (Prompt.generation d)
  repair d diagnostics := answer complete retries d (repairRequest d diagnostics)

end Completer

end Testwright
