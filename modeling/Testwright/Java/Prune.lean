import Testwright.Java.Declaration

/-!
# Pruning

`prune?` reduces a source to the methods a caller uses. In every class-like declaration, nested
ones included and classes inside methods excluded:

* private fields are removed,
* methods of a wanted signature stay as they are,
* other public methods lose their body, and the remaining methods are removed.

Constructors, initializers, constants and nested types stay. The text is edited in place
(`Edit.splice`), so all that stays is preserved character by character.
-/

namespace Testwright.Java

/-- The replacement of the characters between two positions. -/
structure Edit where
  start : Nat
  stop : Nat
  replacement : List Char
  deriving DecidableEq, Repr, Inhabited

namespace Edit

/-- The text with one part replaced. -/
def apply (text : List Char) (e : Edit) : List Char :=
  text.take e.start ++ e.replacement ++ text.drop e.stop

/-- The text with several parts replaced, the rearmost first, so that the positions of the others
stay valid. -/
def splice (text : List Char) (edits : List Edit) : List Char :=
  (edits.mergeSort fun a b => b.start ≤ a.start).foldl apply text

end Edit

/-- A source reduced to the wanted methods. -/
structure Pruned where
  source : List Char
  /-- The wanted signatures that a method of the source has. -/
  kept : Names
  /-- How many public methods lost their body. -/
  stubbed : Nat
  /-- How many fields and methods were removed. -/
  removed : Nat
  deriving DecidableEq, Repr, Inhabited

namespace Prune

/-- The range of a node, widened to whole lines if the node stands alone on its lines. -/
def lineSpan (source : List Char) (start stop : Nat) : Nat × Nat :=
  let front := (source.take start).reverse
  let indent := (front.takeWhile fun c => c == ' ' || c == '\t').length
  let rest := source.drop stop
  let trail := (rest.takeWhile fun c => c == ' ' || c == '\t' || c == '\r').length
  let aloneBefore := match front.drop indent with
    | [] => true
    | c :: _ => c == '\n'
  match rest.drop trail with
  | [] => if aloneBefore then (start - indent, stop + trail) else (start, stop)
  | c :: _ =>
    if aloneBefore && c == '\n' then (start - indent, stop + trail + 1) else (start, stop)

/-- What happens to a member. -/
inductive Fate where
  /-- It stays as it is. -/
  | stay
  /-- It stays, and its signature is wanted. -/
  | keep (signature : String)
  /-- Its body is replaced by a semicolon. -/
  | stub
  /-- It is removed. -/
  | remove
  deriving DecidableEq, Repr

/-- What happens to a member of a class-like declaration; the methods of an interface are public
unless they are private. -/
def fate (source : List Char) (wanted : Names) (inInterface : Bool) (member : Tree) : Fate :=
  match member.kind with
  | .fieldDeclaration => if member.hasModifier "private" then .remove else .stay
  | .methodDeclaration =>
    match member.signature? source with
    | none => .stay
    | some signature =>
      if wanted.contains signature then .keep signature
      else if member.hasModifier "public" || (inInterface && !member.hasModifier "private") then
        if (member.child? .body).isSome then .stub else .stay
      else .remove
  | _ => .stay

/-- The members of all class-like declarations of a source with what happens to them. -/
def fates (source : List Char) (wanted : Names) (root : Tree) : List (Tree × Fate) :=
  root.declarations.flatMap fun d =>
    d.decl.members.map fun m =>
      (m, fate source wanted (d.decl.kind == .interfaceDeclaration) m)

/-- The edit that a member undergoes. -/
def edit? (source : List Char) : Tree × Fate → Option Edit
  | (m, .remove) =>
    let (start, stop) := lineSpan source m.start m.stop
    some ⟨start, stop, []⟩
  | (m, .stub) =>
    (m.child? .body).map fun body =>
      ⟨m.start + (m.header source).length, body.stop, [';']⟩
  | _ => none

/-- The wanted signature of a member that has one. -/
def kept? : Tree × Fate → Option String
  | (_, .keep signature) => some signature
  | _ => none

end Prune

open Prune in
/-- Reduce a source to the methods of the wanted signatures; `none` if the source or the result is
no Java. -/
def prune? (source : List Char) (wanted : Names) : Option Pruned :=
  match parse? source with
  | none => none
  | some root =>
    let members := fates source (normalizeSignatures wanted) root
    let out := Edit.splice source (members.filterMap (edit? source))
    if (parse? out).isSome then
      some
        { source := out
          kept := .ofList (members.filterMap kept?)
          stubbed := members.countP fun m => m.2 == .stub
          removed := members.countP fun m => m.2 == .remove }
    else none

end Testwright.Java
