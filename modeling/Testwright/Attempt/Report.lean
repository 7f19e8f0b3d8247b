import Testwright.Attempt.Dossier
import Testwright.Json.Decode
import Testwright.Project.Overload
import Testwright.Time.Timestamp

/-!
# Reports of attempts

The result of an attempt and the report that is kept of it. A report is stored under a stem made
of class, method, parameter types and attempt, so that overloads have files of their own.
-/

namespace Testwright

/-- How an attempt ends. -/
inductive Status where
  /-- A test passed. -/
  | succeeded
  /-- Every round failed. -/
  | exhausted
  /-- The gate refused the method. -/
  | skipped
  /-- The run was cancelled before the attempt ended otherwise. -/
  | cancelled
  deriving DecidableEq, Repr, Inhabited

/-- The branch coverage of a passing test, or why it could not be measured. -/
inductive Coverage where
  | percent (value : Binary64)
  | error (message : String)
  deriving DecidableEq, Repr, Inhabited

/-- The result of an attempt. -/
structure Result where
  status : Status
  /-- The round that passed, or the last one tried. -/
  round : Nat
  /-- The time the attempt took, in nanoseconds. -/
  elapsed : Nat := 0
  coverage : Option Coverage := none
  deriving DecidableEq, Repr, Inhabited

namespace Result

/-- Whether the attempt produced a passing test. -/
def passed (r : Result) : Bool := r.status == .succeeded

/-- The result of an attempt that the gate refuses. -/
def skipped : Result := { status := .skipped, round := 0 }

/-- The time the attempt took, in seconds: whole seconds and the rest are rounded apart. -/
def elapsedSeconds (r : Result) : Binary64 :=
  .ofNat (r.elapsed / 1000000000) + .ofNat (r.elapsed % 1000000000) / .ofNat 1000000000

end Result

/-- What is kept of an attempt. -/
structure Report where
  className : String
  methodSignature : String
  attempt : Nat
  round : Nat
  status : Status
  passed : Bool
  elapsedSeconds : Binary64
  coverage : Option Coverage := none
  skipReason : Option String := none
  testClass : Option String := none
  testSource : Option String := none
  recordedAt : Timestamp
  deriving DecidableEq, Repr, Inhabited

namespace Report

/-- The report of an attempt that went through its rounds. -/
def finished (d : Dossier) (r : Result) (now : Timestamp) : Report where
  className := d.className
  methodSignature := d.methodSignature
  attempt := d.attempt
  round := r.round
  status := r.status
  passed := r.passed
  elapsedSeconds := r.elapsedSeconds
  coverage := r.coverage
  testClass := d.unitTest.map UnitTest.className
  testSource := d.unitTest.map UnitTest.source
  recordedAt := now

/-- The report of an attempt that the gate refused. -/
def skipped (d : Dossier) (reason : String) (now : Timestamp) : Report where
  className := d.className
  methodSignature := d.methodSignature
  attempt := d.attempt
  round := 0
  status := .skipped
  passed := false
  elapsedSeconds := .zero false
  skipReason := some reason
  recordedAt := now

/-! ## The stem of a report's file -/

/-- The characters outside angle brackets. -/
def erase (depth : Nat) : List Char → List Char
  | [] => []
  | c :: rest =>
    if c = '<' then erase (depth + 1) rest
    else if c = '>' then erase (depth - 1) rest
    else if depth = 0 then c :: erase depth rest
    else erase depth rest

def bracketPairs : List Char → Nat
  | '[' :: ']' :: rest => bracketPairs rest + 1
  | _ :: rest => bracketPairs rest
  | [] => 0

/-- A type without pairs of brackets. -/
def dropBracketPairs : List Char → List Char
  | '[' :: ']' :: rest => dropBracketPairs rest
  | c :: rest => c :: dropBracketPairs rest
  | [] => []

/-- A parameter type as a part of a stem: its simple name in ASCII, and `Array` for every
dimension. -/
def stemPart (param : List Char) : List Char :=
  let spread := if ['.', '.', '.'] <:+ param then 1 else 0
  let base := Text.trim (dropBracketPairs (Overload.dropSpread param))
  let name := (Overload.rawType base).filter fun c => c.isAlphanum || c == '$'
  name ++ (List.replicate (bracketPairs param + spread) "Array".toList).flatten

def stemParts (params : List Char) : List (List Char) :=
  let types := (Text.fields ',' (erase 0 (Text.dropEndWhile (· == ')') params))).map Text.trim
  (types.filter fun t => !t.isEmpty).map stemPart

/-- The name of a report's file without its extension. -/
def stem (r : Report) : String :=
  let (method, params) := (Text.cutAt? '(' r.methodSignature.toList).getD
    (r.methodSignature.toList, [])
  simpleName r.className ++ "_" ++ .ofList (Text.trim method) ++
    String.join ((stemParts params).map fun p => "_" ++ .ofList p) ++ "_" ++ toString r.attempt

/-! ## The stored form -/

/-- The stored form of a status. -/
def statusText : Status → String
  | .succeeded => "succeeded"
  | .exhausted => "exhausted"
  | .skipped => "skipped"
  | .cancelled => "cancelled"

def status? (name : String) : Option Status :=
  [Status.succeeded, .exhausted, .skipped, .cancelled].find? fun s => statusText s == name

/-- A status from its stored form: its name, or its name with nothing. -/
def statusOfJson? : Json → Option Status
  | .str name => status? name
  | .obj [(name, .null)] => status? name
  | _ => none

/-- The stored form of a coverage. -/
def coverageJson : Coverage → Json
  | .percent x => .obj [("percent", .float x)]
  | .error message => .obj [("error", .str message)]

/-- A coverage from its stored form. -/
def coverageOfJson? : Json → Option Coverage
  | .obj [("percent", v)] => v.number?.map .percent
  | .obj [("error", v)] => v.str?.map .error
  | _ => none

/-- The stored form of a report; what is absent is left out. -/
def toJson (r : Report) : Json :=
  .obj <|
    [("class_name", .str r.className), ("method_signature", .str r.methodSignature),
      ("attempt", .ofNat r.attempt), ("round", .ofNat r.round),
      ("status", .str (statusText r.status)), ("passed", .bool r.passed),
      ("elapsed_secs", .float r.elapsedSeconds)] ++
    (r.coverage.toList.map fun c => ("coverage", coverageJson c)) ++
    (r.skipReason.toList.map fun s => ("skip_reason", .str s)) ++
    (r.testClass.toList.map fun s => ("test_class", .str s)) ++
    (r.testSource.toList.map fun s => ("test_source", .str s)) ++
    [("recorded_at", .str r.recordedAt.text)]

/-- The names of the parts of a stored report. -/
def parts : List String :=
  ["class_name", "method_signature", "attempt", "round", "status", "passed", "elapsed_secs",
    "coverage", "skip_reason", "test_class", "test_source", "recorded_at"]

/-- A report from its stored form. -/
def ofJson? (j : Json) : Option Report := do
  let j ← j.record? parts
  let className ← j.required? "class_name" Json.str?
  let methodSignature ← j.required? "method_signature" Json.str?
  let attempt ← j.required? "attempt" Json.nat?
  let round ← j.required? "round" Json.nat?
  let status ← j.required? "status" statusOfJson?
  let passed ← j.required? "passed" Json.bool?
  let elapsedSeconds ← j.required? "elapsed_secs" Json.number?
  let coverage ← j.optional? "coverage" none (Json.nullable? coverageOfJson?)
  let skipReason ← j.optional? "skip_reason" none (Json.nullable? Json.str?)
  let testClass ← j.optional? "test_class" none (Json.nullable? Json.str?)
  let testSource ← j.optional? "test_source" none (Json.nullable? Json.str?)
  let recordedAt ← j.required? "recorded_at" fun v => v.str?.bind Timestamp.parse?
  some
    { className, methodSignature, attempt, round, status, passed, elapsedSeconds, coverage,
      skipReason, testClass, testSource, recordedAt }

end Report

end Testwright
