import Testwright.Java.Declaration

/-!
# Decision points

The profile of a method counts the places where its body branches. Bodies of lambdas, of
anonymous and local classes and of their methods belong to other code and do not count
(`isForeign`).
-/

namespace Testwright.Java

/-- How often a method body branches, by the kind of branching. -/
structure DecisionProfile where
  /-- `if` statements. -/
  conditionals : Nat := 0
  /-- Groups and rules of switches, defaults included. -/
  switchArms : Nat := 0
  /-- `for`, `while` and `do` loops. -/
  loops : Nat := 0
  /-- `for` loops over collections. -/
  foreachLoops : Nat := 0
  /-- `&&` and `||`. -/
  shortCircuits : Nat := 0
  /-- `? :`. -/
  ternaries : Nat := 0
  deriving DecidableEq, Repr, Inhabited

namespace DecisionProfile

/-- Branching by statements: conditionals, switch arms and loops with a condition. -/
def branchConstructs (p : DecisionProfile) : Nat := p.conditionals + p.switchArms + p.loops

/-- Branching of every kind. -/
def decisionPoints (p : DecisionProfile) : Nat :=
  p.branchConstructs + p.foreachLoops + p.shortCircuits + p.ternaries

end DecisionProfile

namespace Tree

/-- Whether a node is code of its own whose branching does not count for the method around it. -/
def isForeign (t : Tree) : Bool :=
  match t.kind with
  | .lambdaExpression => true
  | .classBody => true
  | .classDeclaration => true
  | .methodDeclaration => true
  | .recordDeclaration => true
  | .enumDeclaration => true
  | .interfaceDeclaration => true
  | _ => false

/-- Whether a node is `&&` or `||` with its operands. -/
def isShortCircuit (t : Tree) : Bool :=
  t.kind == .binaryExpression &&
    match t.child? .operator with
    | some op => op.kind == .token "&&" || op.kind == .token "||"
    | none => false

def ownNodes (body : Tree) (p : Tree → Bool) : List Tree := body.collect isForeign p

def profile (body : Tree) : DecisionProfile :=
  let count (p : Tree → Bool) : Nat := (body.ownNodes p).length
  { conditionals := count fun t => t.kind == .ifStatement
    switchArms := count fun t => t.kind == .switchBlockStatementGroup || t.kind == .switchRule
    loops := count fun t =>
      t.kind == .forStatement || t.kind == .whileStatement || t.kind == .doStatement
    foreachLoops := count fun t => t.kind == .enhancedForStatement
    shortCircuits := count isShortCircuit
    ternaries := count fun t => t.kind == .ternaryExpression }

/-- The first body of a method or constructor in the class that a source begins with. -/
def firstBody? (root : Tree) : Option Tree :=
  match root.namedChildren with
  | [] => none
  | cls :: _ =>
    match cls.child? .body with
    | none => none
    | some body =>
      (body.namedChildren.filter fun m =>
        m.kind == .methodDeclaration || m.kind == .constructorDeclaration).findSome? fun m =>
          m.child? .body

end Tree

/-- The decision profile of the first method or constructor with a body among some members of a
class; `none` if they are no Java. -/
def methodProfile? (members : List Char) : Option DecisionProfile :=
  let source := "class __Wrapper__ \x7b\n".toList ++ members ++ "\n\x7d\n".toList
  (parse? source).map fun root => (root.firstBody?.map Tree.profile).getD {}

end Testwright.Java
