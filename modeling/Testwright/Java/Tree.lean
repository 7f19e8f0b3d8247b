import Testwright.Java.Token
import Testwright.Text.Basic

/-!
# Syntax trees

A node has a kind, the part it plays in its parent, its place in the source and its children.
Comments are nodes too: each is a child of the innermost node that spans it
(`Tree.insertInto`).

`Tree.WellNested` says that the children of every node follow one another inside the node.
-/

namespace Testwright.Java

/-- A node of a syntax tree; positions count the characters of the source. -/
inductive Tree where
  | node (kind : Kind) (field : Option Field) (start stop : Nat) (children : List Tree)
  deriving Repr, Inhabited

namespace Tree

/-- The kind of a node. -/
def kind : Tree → Kind
  | .node k _ _ _ _ => k

/-- The part a node plays in its parent. -/
def field : Tree → Option Field
  | .node _ f _ _ _ => f

/-- The position of the first character of a node. -/
def start : Tree → Nat
  | .node _ _ s _ _ => s

/-- The position after the last character of a node. -/
def stop : Tree → Nat
  | .node _ _ _ e _ => e

/-- The children of a node. -/
def children : Tree → List Tree
  | .node _ _ _ _ cs => cs

/-- The same node in another part. -/
def withField (f : Field) : Tree → Tree
  | .node k _ s e cs => .node k (some f) s e cs

def namedChildren (t : Tree) : List Tree := t.children.filter fun c => c.kind.named

/-- The children that play a part. -/
def childrenAt (t : Tree) (f : Field) : List Tree := t.children.filter fun c => c.field == some f

/-- The first child that plays a part. -/
def child? (t : Tree) (f : Field) : Option Tree := t.children.find? fun c => c.field == some f

/-- The characters of a source between two positions. -/
def slice (source : List Char) (start stop : Nat) : List Char :=
  (source.drop start).take (stop - start)

/-- The characters of a node. -/
def chars (source : List Char) (t : Tree) : List Char := slice source t.start t.stop

/-- The text of a node. -/
def text (source : List Char) (t : Tree) : String := .ofList (t.chars source)

/-- The text of a node without blanks. -/
def squeezed (source : List Char) (t : Tree) : String :=
  .ofList ((t.chars source).filter fun c => !Text.isBlank c)

/-! ## Comments -/

/-- The leaf of a token. -/
def ofToken (kind : Kind) (t : Token) : Tree := .node kind none t.start t.stop []

mutual

/-- Put a comment into a node that spans it. -/
def insertInto (c : Tree) : Tree → Tree
  | .node k f s e cs => .node k f s e (insertAmong c cs)

/-- Put a comment among siblings: into the one that spans it, or before the first that follows
it. -/
def insertAmong (c : Tree) : List Tree → List Tree
  | [] => [c]
  | t :: rest =>
    if t.stop ≤ c.start then t :: insertAmong c rest
    else if t.start < c.start then insertInto c t :: rest
    else c :: t :: rest

end

mutual

/-- The nodes below and including a node that satisfy a condition, parents first; the nodes below
those that satisfy `stopAt` are passed over, as are these themselves. -/
def collect (stopAt p : Tree → Bool) : Tree → List Tree
  | t@(.node _ _ _ _ cs) =>
    if stopAt t then []
    else if p t then t :: collectAll stopAt p cs
    else collectAll stopAt p cs

/-- The nodes that satisfy a condition below and among some siblings. -/
def collectAll (stopAt p : Tree → Bool) : List Tree → List Tree
  | [] => []
  | t :: rest => collect stopAt p t ++ collectAll stopAt p rest

end

/-- All nodes below and including a node that satisfy a condition, parents first. -/
def nodes (p : Tree → Bool) (t : Tree) : List Tree := collect (fun _ => false) p t

mutual

/-- The children of every node follow one another inside the node. -/
def WellNested : Tree → Prop
  | .node _ _ s e cs => s ≤ e ∧ NestedIn s e cs

/-- Siblings follow one another between two positions, each well nested. -/
def NestedIn (from_ to_ : Nat) : List Tree → Prop
  | [] => True
  | .node k f s e cs :: rest =>
    from_ ≤ s ∧ e ≤ to_ ∧ WellNested (.node k f s e cs) ∧ NestedIn e to_ rest

end

end Tree

end Testwright.Java
