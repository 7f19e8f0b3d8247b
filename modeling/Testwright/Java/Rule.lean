import Testwright.Java.Tree

/-!
# Grammar rules

A grammar gives each of its variables a `Rule`, and `Rule.run` matches a rule at the beginning of
a list of tokens. Alternatives are ordered: the first that matches counts. Left recursion is
written as `Rule.fold`, a base with steps that each wrap the tree so far.

A match takes tokens from the front only (`Rule.run_suffix` for the leaves), and `fuel` bounds the
nesting of rules; no rule of a grammar without left recursion nests deeper than a multiple of
the number of tokens.
-/

namespace Testwright.Java

mutual

/-- What to match at the beginning of a list of tokens; `ν` are the variables of the grammar. -/
inductive Rule (ν : Type) where
  /-- Nothing. -/
  | empty
  /-- Adjacent words or symbols that together are one keyword or operator. -/
  | token (pieces : List String)
  /-- A keyword or symbol, as a node of a kind. -/
  | leaf (kind : Kind) (text : String)
  /-- A word other than the given ones, as a node of a kind. -/
  | name (kind : Kind) (except : List String)
  /-- A literal. -/
  | literal
  /-- One match after another. -/
  | seq (first second : Rule ν)
  /-- The first alternative that matches. -/
  | alt (first second : Rule ν)
  /-- As many matches as there are. -/
  | many (rule : Rule ν)
  /-- A node around the trees of a match. -/
  | node (kind : Kind) (rule : Rule ν)
  /-- A match whose trees play a part. -/
  | field (part : Field) (rule : Rule ν)
  /-- A match that takes no tokens. -/
  | ahead (rule : Rule ν)
  /-- No match here. -/
  | notAhead (rule : Rule ν)
  /-- The rule of a variable. -/
  | var (name : ν)
  /-- A tree, wrapped as often as one of the steps applies. -/
  | fold (base : Rule ν) (steps : List (Step ν))

/-- One way to wrap a tree: if its kind is among `on`, or `on` is empty, and `rule` matches after
it, then it becomes the first child, in the part `left`, of a node of kind `kind`. -/
inductive Step (ν : Type) where
  | mk (on : List Kind) (kind : Kind) (left : Option Field) (rule : Rule ν)

end

namespace Rule

variable {ν : Type}

instance : Inhabited (Rule ν) := ⟨.empty⟩

/-- One match after another, for a list of rules. -/
def all : List (Rule ν) → Rule ν
  | [] => .empty
  | [r] => r
  | r :: rest => .seq r (all rest)

/-- The first alternative of a list that matches. -/
def any : List (Rule ν) → Rule ν
  | [] => .notAhead .empty
  | [r] => r
  | r :: rest => .alt r (any rest)

/-- A match or nothing. -/
def opt (r : Rule ν) : Rule ν := .alt r .empty

/-- A keyword or symbol. -/
def tok (text : String) : Rule ν := .token [text]

/-- One match or more. -/
def many1 (r : Rule ν) : Rule ν := .seq r (.many r)

/-- One match or more with separators between them. -/
def sepBy1 (sep r : Rule ν) : Rule ν := .seq r (.many (.seq sep r))

/-- Matches with separators between them, possibly none. -/
def sepBy (sep r : Rule ν) : Rule ν := opt (sepBy1 sep r)

/-- A node from the first to the last of its children. -/
def wrap (k : Kind) (cs : List Tree) : Tree :=
  .node k none ((cs.head?.map Tree.start).getD 0) ((cs.getLast?.map Tree.stop).getD 0) cs

/-- Whether a token is the given keyword or symbol. -/
def isPiece (text : String) (t : Token) : Bool :=
  match t.lexeme with
  | .word => t.text == text
  | .symbol => t.text == text
  | _ => false

/-- Match adjacent tokens: the position after them and the tokens that follow. -/
def takePieces (pos : Nat) : List String → List Token → Option (Nat × List Token)
  | [], ts => some (pos, ts)
  | _ :: _, [] => none
  | p :: ps, t :: ts =>
    if isPiece p t && t.start == pos then takePieces t.stop ps ts else none

/-- Match the words and symbols of one keyword or operator. -/
def takeToken (pieces : List String) : List Token → Option (List Tree × List Token)
  | [] => none
  | t :: ts =>
    (takePieces t.start pieces (t :: ts)).map fun (stop, rest) =>
      ([.node (.token (String.join pieces)) none t.start stop []], rest)

/-- Match a word other than the given ones. -/
def takeName (kind : Kind) (except : List String) : List Token → Option (List Tree × List Token)
  | [] => none
  | t :: ts =>
    if t.lexeme = .word ∧ t.text ∉ except then some ([.ofToken kind t], ts) else none

/-- Match a keyword or symbol that is a node of its own. -/
def takeLeaf (kind : Kind) (text : String) : List Token → Option (List Tree × List Token)
  | [] => none
  | t :: ts => if isPiece text t then some ([.ofToken kind t], ts) else none

/-- Match a literal. -/
def takeLiteral : List Token → Option (List Tree × List Token)
  | [] => none
  | t :: ts =>
    match t.lexeme with
    | .literal kind => some ([.ofToken kind t], ts)
    | _ => none

mutual

/-- The trees of the match of a rule and the tokens after it. -/
def run (grammar : ν → Rule ν) :
    Nat → Rule ν → List Token → Option (List Tree × List Token)
  | 0, _, _ => none
  | n + 1, rule, ts =>
    match rule with
    | .empty => some ([], ts)
    | .token pieces => takeToken pieces ts
    | .leaf kind text => takeLeaf kind text ts
    | .name kind except => takeName kind except ts
    | .literal => takeLiteral ts
    | .seq a b =>
      match run grammar n a ts with
      | none => none
      | some (xs, ts) =>
        match run grammar n b ts with
        | none => none
        | some (ys, ts) => some (xs ++ ys, ts)
    | .alt a b =>
      match run grammar n a ts with
      | none => run grammar n b ts
      | some found => some found
    | .many a =>
      match run grammar n a ts with
      | none => some ([], ts)
      | some (xs, ts) =>
        match run grammar n (.many a) ts with
        | none => none
        | some (ys, ts) => some (xs ++ ys, ts)
    | .node kind a => (run grammar n a ts).map fun (xs, ts) => ([wrap kind xs], ts)
    | .field f a => (run grammar n a ts).map fun (xs, ts) => (xs.map (Tree.withField f), ts)
    | .ahead a => (run grammar n a ts).map fun _ => ([], ts)
    | .notAhead a => if (run grammar n a ts).isSome then none else some ([], ts)
    | .var v => run grammar n (grammar v) ts
    | .fold base steps =>
      match run grammar n base ts with
      | some ([t], ts) => some (runFold grammar n steps t ts)
      | _ => none

/-- Wrap a tree as often as one of the steps applies. -/
def runFold (grammar : ν → Rule ν) :
    Nat → List (Step ν) → Tree → List Token → List Tree × List Token
  | 0, _, t, ts => ([t], ts)
  | n + 1, steps, t, ts =>
    match runStep grammar n steps t ts with
    | none => ([t], ts)
    | some (t, ts) => runFold grammar n steps t ts

/-- Wrap a tree by the first step that applies. -/
def runStep (grammar : ν → Rule ν) :
    Nat → List (Step ν) → Tree → List Token → Option (Tree × List Token)
  | 0, _, _, _ => none
  | _ + 1, [], _, _ => none
  | n + 1, .mk on kind left rule :: steps, t, ts =>
    if on.isEmpty || on.contains t.kind then
      match run grammar n rule ts with
      | some (xs, ts) =>
        let t := match left with
          | some f => t.withField f
          | none => t
        some (wrap kind (t :: xs), ts)
      | none => runStep grammar n steps t ts
    else runStep grammar n steps t ts

end

end Rule

end Testwright.Java
