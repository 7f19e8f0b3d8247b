import Testwright.Number.Binary64
import Testwright.Text.Basic

/-!
# Providers of language models

The vendors whose models can write tests, the models with their prices, and what can go wrong with
a request.
-/

namespace Testwright

/-- A vendor of language models. -/
inductive Vendor where
  | anthropic
  | openai
  deriving DecidableEq, Repr, Inhabited

namespace Vendor

/-- The name under which a vendor is configured. -/
def name : Vendor → String
  | anthropic => "anthropic"
  | openai => "openai"

def all : List Vendor := [anthropic, openai]

def ofName? (name : String) : Option Vendor := all.find? fun v => v.name == name

/-- The environment variable that holds the key for a vendor. -/
def keyVariable : Vendor → String
  | anthropic => "ANTHROPIC_API_KEY"
  | openai => "OPENAI_API_KEY"

/-- The model that is used unless another one is asked for. -/
def defaultModel : Vendor → String
  | anthropic => "claude-sonnet-4-5"
  | openai => "gpt-4o-mini"

end Vendor

/-- Prices in dollars for a million tokens. -/
structure Rates where
  input : Binary64
  output : Binary64
  deriving DecidableEq, Repr, Inhabited

namespace Rates

/-- Prices in cents. -/
def ofCents (input output : Nat) : Rates := ⟨.ofDecimal false input (-2), .ofDecimal false output (-2)⟩

/-- The prices of a model, by a part of its name. -/
def ofModel (vendor : Vendor) (model : String) : Rates :=
  let has (part : String) : Bool := Text.isInfix part.toList model.toList
  match vendor with
  | .anthropic =>
    if has "haiku" then ofCents 100 500
    else if has "opus" then ofCents 1500 7500
    else ofCents 300 1500
  | .openai =>
    if has "4o-mini" then ofCents 15 60
    else if has "4o" then ofCents 250 1000
    else ofCents 50 150

end Rates

/-- What can go wrong with a request to a provider. -/
inductive ProviderError where
  /-- The request did not get through. -/
  | http (reason : String)
  /-- The provider refused the request. -/
  | api (status : Nat) (reason : String)
  /-- The response cannot be read. -/
  | parse (reason : String)
  /-- The response holds no text. -/
  | emptyResponse
  | missingKey (name : String)
  | unknownProvider (name : String)
  deriving DecidableEq, Repr, Inhabited

namespace ProviderError

/-- The error in words. -/
def message : ProviderError → String
  | http reason => "HTTP request failed: " ++ reason
  | api status reason => "API error (" ++ toString status ++ "): " ++ reason
  | parse reason => "response parse error: " ++ reason
  | emptyResponse => "empty response from LLM"
  | missingKey name => name ++ " is not set"
  | unknownProvider name =>
    "unknown provider '" ++ name ++ "'. Available: " ++
      ", ".intercalate (Vendor.all.map Vendor.name)

/-- Whether another try may succeed; a refusal is final unless it is for too many requests or for
a fault of the provider. -/
def isRetryable : ProviderError → Bool
  | http _ => true
  | parse _ => true
  | emptyResponse => true
  | api status _ => status == 429 || 500 ≤ status
  | missingKey _ => false
  | unknownProvider _ => false

end ProviderError

/-- A model at a vendor with the key to use it. -/
structure Provider where
  vendor : Vendor
  key : String
  model : String
  /-- The address of a server that takes the vendor's place. -/
  baseUrl : Option String := none
  deriving DecidableEq, Repr, Inhabited

namespace Provider

/-- The prices of a provider's model. -/
def rates (p : Provider) : Rates := .ofModel p.vendor p.model

def create (name key : String) (model baseUrl : Option String) : Except ProviderError Provider :=
  match Vendor.ofName? name with
  | none => .error (.unknownProvider name)
  | some vendor => .ok { vendor, key, model := model.getD vendor.defaultModel, baseUrl }

def fromEnvironment (environment : String → Option String) (name : String)
    (model baseUrl : Option String) : Except ProviderError Provider :=
  match Vendor.ofName? name with
  | none => .error (.unknownProvider name)
  | some vendor =>
    match environment vendor.keyVariable with
    | none => .error (.missingKey vendor.keyVariable)
    | some key => create name key model baseUrl

end Provider

end Testwright
