import Testwright.Author.Model
import Testwright.Json.Reader
import Testwright.Json.Writer

/-!
# Chat requests to providers

A completion is requested by posting a JSON value, and read from the JSON value of the response.
How a request travels is a parameter (`Transport`).
-/

namespace Testwright

/-- A request to post a JSON value. -/
structure PostRequest where
  url : String
  headers : List (String × String)
  body : Json
  deriving Repr, Inhabited

/-- What a server sends back. -/
structure PostResponse where
  status : Nat
  body : String
  deriving DecidableEq, Repr, Inhabited

/-- How a request travels: the response, or why there is none. -/
abbrev Transport (σ : Type) := PostRequest → σ → Except String PostResponse × σ

/-- How requests fare without a network. -/
def Transport.offline {σ : Type} : Transport σ := fun _ s =>
  (.error "io: Network is unreachable (os error 101)", s)

namespace Chat

/-- The most tokens that a model may write. -/
def maxTokens : Nat := 8192

/-- A message of a conversation. -/
def message (role content : String) : Json :=
  .obj [("role", .str role), ("content", .str content)]

/-- The request for a completion. -/
def request (p : Provider) (system user : String) : PostRequest :=
  let common : List (String × Json) :=
    [("model", .str p.model), ("max_tokens", .ofNat maxTokens)]
  let json := ("content-type", "application/json")
  match p.vendor with
  | .anthropic =>
    { url := "https://api.anthropic.com/v1/messages"
      headers := [("x-api-key", p.key), ("anthropic-version", "2023-06-01"), json]
      body := .obj (common ++
        [("system", .str system), ("messages", .arr [message "user" user])]) }
  | .openai =>
    let base := onChars (Text.dropEndWhile (· == '/')) (p.baseUrl.getD "https://api.openai.com")
    { url := base ++ "/v1/chat/completions"
      headers := [("Authorization", "Bearer " ++ p.key), json]
      body := .obj (common ++
        [("messages", .arr [message "system" system, message "user" user])]) }

def text? (vendor : Vendor) (response : Json) : Option String :=
  match vendor with
  | .anthropic =>
    (response.get "content").arr?.map fun blocks =>
      String.join (blocks.filterMap fun b => (b.get "text").str?)
  | .openai =>
    match (response.get "choices").elements with
    | [] => none
    | choice :: _ => ((choice.get "message").get "content").str?

/-- The names under which a vendor reports tokens read and written. -/
def tokenNames : Vendor → String × String
  | .anthropic => ("input_tokens", "output_tokens")
  | .openai => ("prompt_tokens", "completion_tokens")

def completion (vendor : Vendor) (response : PostResponse) : Except ProviderError Completion :=
  if 400 ≤ response.status then .error (.api response.status "request rejected")
  else
    match Json.parse? response.body with
    | none => .error (.parse "the response is no JSON")
    | some json =>
      match json.get? "error" with
      | some e => .error (.api 400 ((e.get "message").str?.getD "unknown error"))
      | none =>
        match text? vendor json with
        | none => .error .emptyResponse
        | some text =>
          if (Text.trim text.toList).isEmpty then .error .emptyResponse
          else
            let usage := json.get "usage"
            let (input, output) := tokenNames vendor
            .ok ⟨text, (usage.get input).nat?, (usage.get output).nat?⟩

/-- A provider's model as something that completes requests. -/
def completer {σ : Type} (p : Provider) (transport : Transport σ) : Completer σ :=
  fun system user _ s =>
    match transport (request p system user) s with
    | (.error reason, s) => (.failed (.http reason), false, s)
    | (.ok response, s) =>
      match completion p.vendor response with
      | .ok c => (.done c, false, s)
      | .error e => (.failed e, false, s)

end Chat

end Testwright
