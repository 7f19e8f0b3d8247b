import Mathlib.Data.List.Chain
import Testwright.Proofs.Java.Shapes

/-!
# Trees of texts with a gap

A text is moved apart at some character. What begins there or behind it moves, and so does what ends
behind it (`Gap.begin`, `Gap.finish`), so the order of tokens and nodes stays as it was.

The parser looks at positions only to see whether the pieces of an operator touch. If no operator is torn
apart, what a rule matches in the moved tokens is what it matched before, moved (`Rule.run_moved`). A
comment put between two tokens therefore gives the tree of the text moved apart with the comment inside
(`parse?_of_puts`).
-/

namespace Testwright.Java

/-- Room for some characters in front of the one at a position. -/
structure Gap where
  pos : Nat
  width : Nat

namespace Gap

variable (g : Gap) {a b : Nat}

/-- Where that begins which began at a position. -/
def begin (a : Nat) : Nat := if a < g.pos then a else a + g.width

/-- Where that ends which ended at a position. -/
def finish (a : Nat) : Nat := if a ≤ g.pos then a else a + g.width

theorem finish_le_begin : g.finish a ≤ g.begin b ↔ a ≤ b := by
  unfold finish begin
  split <;> split <;> omega

theorem begin_lt_begin : g.begin a < g.begin b ↔ a < b := by
  unfold begin
  split <;> split <;> omega

theorem finish_le_pos : g.finish a ≤ g.pos ↔ a ≤ g.pos := by
  unfold finish
  split <;> omega

theorem begin_lt_pos : g.begin a < g.pos ↔ a < g.pos := by
  unfold begin
  split <;> omega

/-- Behind the gap nothing gets longer. -/
theorem finish_sub_begin (h : g.pos ≤ a) : g.finish b - g.begin a = b - a := by
  unfold finish begin
  split <;> split <;> omega

theorem begin_zero (h : 0 < g.pos) : g.begin 0 = 0 := if_pos h

theorem finish_zero : g.finish 0 = 0 := if_pos (Nat.zero_le _)

/-- What followed directly still does, except at the gap. -/
theorem begin_eq_finish (h : a ≤ b) (hgap : ¬(a = g.pos ∧ b = g.pos)) :
    g.begin b = g.finish a ↔ b = a := by
  unfold begin finish
  split <;> split <;> omega

end Gap

/-- Whether a position lies strictly inside of a node. -/
def Tree.Spans (t : Tree) (pos : Nat) : Prop := t.start < pos ∧ pos < t.stop

instance (t : Tree) (pos : Nat) : Decidable (t.Spans pos) := inferInstanceAs (Decidable (_ ∧ _))

namespace Token

def moved (g : Gap) (t : Token) : Token := { t with start := g.begin t.start, stop := g.finish t.stop }

@[simp] theorem start_moved (g : Gap) (t : Token) : (t.moved g).start = g.begin t.start := rfl

@[simp] theorem stop_moved (g : Gap) (t : Token) : (t.moved g).stop = g.finish t.stop := rfl

@[simp] theorem isComment_moved (g : Gap) (t : Token) : (t.moved g).isComment = t.isComment := rfl

end Token

namespace Tree

mutual

def moved (g : Gap) : Tree → Tree
  | .node k f s e cs => .node k f (g.begin s) (g.finish e) (movedAll g cs)

def movedAll (g : Gap) : List Tree → List Tree
  | [] => []
  | t :: ts => moved g t :: movedAll g ts

end

variable {g : Gap} {c d t : Tree}

@[simp] theorem movedAll_eq (ts : List Tree) : movedAll g ts = ts.map (moved g) := by
  induction ts with
  | nil => rfl
  | cons t ts ih => rw [movedAll, ih, List.map_cons]

theorem moved_node {k : Kind} {f : Option Field} {s e : Nat} {cs : List Tree} :
    (Tree.node k f s e cs).moved g = .node k f (g.begin s) (g.finish e) (cs.map (moved g)) := by
  rw [moved, movedAll_eq]

@[simp] theorem kind_moved : (t.moved g).kind = t.kind := by
  cases t
  rfl

@[simp] theorem field_moved : (t.moved g).field = t.field := by
  cases t
  rfl

@[simp] theorem start_moved : (t.moved g).start = g.begin t.start := by
  cases t
  rfl

@[simp] theorem stop_moved : (t.moved g).stop = g.finish t.stop := by
  cases t
  rfl

@[simp] theorem children_moved : (t.moved g).children = t.children.map (moved g) := by
  cases t
  simp [moved, children]

theorem moved_withField (part : Field) : (t.withField part).moved g = (t.moved g).withField part := by
  cases t
  rfl

/-- With something in front of the gap, nodes around nothing stay where they are. -/
theorem moved_wrap (hpos : 0 < g.pos) (kind : Kind) (xs : List Tree) :
    (Rule.wrap kind xs).moved g = Rule.wrap kind (xs.map (moved g)) := by
  have hstart : g.begin ((xs.head?.map start).getD 0) =
      (((xs.map (moved g)).head?).map start).getD 0 := by
    cases xs with
    | nil => exact g.begin_zero hpos
    | cons x xs => simp
  have hstop : g.finish ((xs.getLast?.map stop).getD 0) =
      (((xs.map (moved g)).getLast?).map stop).getD 0 := by
    rw [List.getLast?_map]
    cases xs.getLast? with
    | none => exact g.finish_zero
    | some x => simp
  simp only [Rule.wrap, moved, movedAll_eq, hstart, hstop]

/-! ## Comments in moved trees -/

mutual

/-- Comments move with the node they are in. -/
theorem moved_insertInto (c : Tree) : ∀ t : Tree,
    (insertInto c t).moved g = insertInto (c.moved g) (t.moved g)
  | .node _ _ _ _ cs => by
    simp only [insertInto, moved_node, map_moved_insertAmong c cs]

theorem map_moved_insertAmong (c : Tree) : ∀ ts : List Tree,
    (insertAmong c ts).map (moved g) = insertAmong (c.moved g) (ts.map (moved g))
  | [] => rfl
  | t :: ts => by
    have hbehind := g.finish_le_begin (a := t.stop) (b := c.start)
    have hinside := g.begin_lt_begin (a := t.start) (b := c.start)
    simp only [List.map_cons, insertAmong, stop_moved, start_moved, hbehind, hinside]
    split
    · rw [List.map_cons, map_moved_insertAmong c ts]
    · split
      · rw [List.map_cons, moved_insertInto c t]
      · rfl

end

mutual

/-- It makes no difference which of two comments is put into a tree first. -/
theorem insertInto_comm (hc : c.start < c.stop) (hcd : c.stop ≤ d.start) (hd : d.start < d.stop) :
    ∀ t : Tree, insertInto d (insertInto c t) = insertInto c (insertInto d t)
  | .node _ _ _ _ cs => by
    simp only [insertInto, insertAmong_comm hc hcd hd cs]

theorem insertAmong_comm (hc : c.start < c.stop) (hcd : c.stop ≤ d.start) (hd : d.start < d.stop) :
    ∀ ts : List Tree, insertAmong d (insertAmong c ts) = insertAmong c (insertAmong d ts)
  | [] => by
    have hdc : ¬d.stop ≤ c.start := by omega
    have hdc' : ¬d.start < c.start := by omega
    simp [insertAmong, hcd, hdc, hdc']
  | t :: ts => by
    have hdc : ¬d.stop ≤ c.start := by omega
    have hdc' : ¬d.start < c.start := by omega
    by_cases hbehind : t.stop ≤ c.start
    · have hbehind' : t.stop ≤ d.start := by omega
      simp only [insertAmong, hbehind, hbehind', if_true, insertAmong_comm hc hcd hd ts]
    · by_cases hinside : t.start < c.start
      · have hinside' : t.start < d.start := by omega
        by_cases hbehind' : t.stop ≤ d.start
        · simp [insertAmong, hbehind, hinside, hbehind']
        · simp [insertAmong, hbehind, hinside, hbehind', hinside', insertInto_comm hc hcd hd t]
      · by_cases hbehind' : t.stop ≤ d.start
        · simp [insertAmong, hbehind, hinside, hbehind', hcd]
        · by_cases hinside' : t.start < d.start
          · simp [insertAmong, hbehind, hinside, hbehind', hinside', hcd]
          · simp [insertAmong, hbehind, hinside, hbehind', hinside', hcd, hdc, hdc']

end

/-- A comment may as well be put into a tree after the comments behind it. -/
theorem foldl_insertInto {ds : List Tree} (hc : c.start < c.stop)
    (hds : ∀ d ∈ ds, c.stop ≤ d.start ∧ d.start < d.stop) (t : Tree) :
    ds.foldl (fun t d => insertInto d t) (insertInto c t) =
      insertInto c (ds.foldl (fun t d => insertInto d t) t) := by
  induction ds generalizing t with
  | nil => rfl
  | cons d ds ih =>
    have hd := hds d List.mem_cons_self
    rw [List.foldl_cons, insertInto_comm hc hd.1 hd.2, List.foldl_cons]
    exact ih (fun d hd => hds d (List.mem_cons_of_mem _ hd)) _

end Tree

/-! ## Operators -/

namespace Rule

variable {ν : Type} {joints : List (String × String)}

mutual

/-- Whether the operators of a rule are joined from pieces only where a list allows it. -/
def jointsIn (joints : List (String × String)) : Rule ν → Bool
  | .empty | .leaf .. | .name .. | .literal | .var _ => true
  | .token pieces => !pieces.isEmpty && decide (pieces.IsChain fun a b => (a, b) ∈ joints)
  | .seq a b | .alt a b => jointsIn joints a && jointsIn joints b
  | .many a | .node _ a | .field _ a | .ahead a | .notAhead a => jointsIn joints a
  | .fold base steps => jointsIn joints base && stepJointsIn joints steps

def stepJointsIn (joints : List (String × String)) : List (Step ν) → Bool
  | [] => true
  | .mk _ _ _ rule :: steps => jointsIn joints rule && stepJointsIn joints steps

end

theorem stepJointsIn_eq_all (joints : List (String × String)) (steps : List (Step ν)) :
    stepJointsIn joints steps = steps.all fun
      | .mk _ _ _ rule => rule.jointsIn joints := by
  induction steps with
  | nil => rfl
  | cons step steps ih =>
    obtain ⟨on, kind, left, rule⟩ := step
    rw [stepJointsIn, ih]
    rfl

/-- The tokens that may be pieces of one operator touch where they did before. -/
def Unbroken (joints : List (String × String)) (g : Gap) (ts : List Token) : Prop :=
  ts.IsChain fun a b =>
    (a.text, b.text) ∈ joints → (g.begin b.start = g.finish a.stop ↔ b.start = a.stop)

theorem text_of_isPiece {p : String} {t : Token} (h : isPiece p t = true) : t.text = p := by
  unfold isPiece at h
  split at h
  · simpa using h
  · simpa using h
  · cases h

@[simp] theorem isPiece_moved (g : Gap) (p : String) (t : Token) : isPiece p (t.moved g) = isPiece p t := by
  cases t
  rfl

variable {g : Gap}

/-- The pieces of an operator are found in the moved tokens if and only if they were found before. -/
theorem takePieces_moved {p : String} {pieces : List String} {ts : List Token} (pos pos' : Nat)
    (hpieces : (p :: pieces).IsChain fun a b => (a, b) ∈ joints) (hts : Unbroken joints g ts)
    (hpos : ∀ t ∈ ts.head?, isPiece p t = true → (g.begin t.start = pos' ↔ t.start = pos)) :
    takePieces pos' (p :: pieces) (ts.map (Token.moved g)) =
      (takePieces pos (p :: pieces) ts).map fun found => (g.finish found.1, found.2.map (Token.moved g)) := by
  induction pieces generalizing p ts pos pos' with
  | nil =>
    cases ts with
    | nil => rfl
    | cons t ts =>
      cases hpiece : isPiece p t with
      | false => simp [takePieces, hpiece]
      | true =>
        have hsame := hpos t rfl hpiece
        simp only [List.map_cons, takePieces, isPiece_moved, hpiece, Bool.true_and, Token.start_moved,
          beq_iff_eq, hsame]
        split <;> rfl
  | cons q pieces ih =>
    cases ts with
    | nil => rfl
    | cons t ts =>
      obtain ⟨hjoint, hpieces⟩ := List.isChain_cons_cons.1 hpieces
      cases hpiece : isPiece p t with
      | false => simp [takePieces, hpiece]
      | true =>
        have hsame := hpos t rfl hpiece
        have hrest := ih t.stop (g.finish t.stop) hpieces hts.tail ?_
        · rw [List.map_cons, takePieces, takePieces]
          simp only [isPiece_moved, hpiece, Bool.true_and, Token.start_moved, beq_iff_eq, hsame]
          split
          · exact hrest
          · rfl
        · intro u hu hpiece'
          cases ts with
          | nil => cases hu
          | cons v ts =>
            cases Option.some.inj hu
            refine (List.isChain_cons_cons.1 hts).1 ?_
            rw [text_of_isPiece hpiece, text_of_isPiece hpiece']
            exact hjoint

theorem takeToken_moved {pieces : List String} {ts : List Token}
    (hpieces : (Rule.token (ν := ν) pieces).jointsIn joints = true) (hts : Unbroken joints g ts) :
    takeToken pieces (ts.map (Token.moved g)) =
      (takeToken pieces ts).map fun found => (found.1.map (Tree.moved g), found.2.map (Token.moved g)) := by
  simp only [jointsIn, Bool.and_eq_true, decide_eq_true_eq] at hpieces
  cases pieces with
  | nil => cases hpieces.1
  | cons p pieces =>
    cases ts with
    | nil => rfl
    | cons t ts =>
      have htake := takePieces_moved t.start (g.begin t.start) hpieces.2 hts
        fun u hu _ => by cases Option.some.inj hu; simp
      rw [List.map_cons] at htake
      simp only [List.map_cons, takeToken]
      rw [show (t.moved g).start = g.begin t.start from rfl, htake, Option.map_map, Option.map_map]
      rfl

/-! ## Matches in moved tokens -/

variable {grammar : ν → Rule ν}

/-- A match with its trees and the tokens behind it moved. -/
def movedMatch (g : Gap) (found : List Tree × List Token) : List Tree × List Token :=
  (found.1.map (Tree.moved g), found.2.map (Token.moved g))

theorem takeLeaf_moved (kind : Kind) (text : String) (ts : List Token) :
    takeLeaf kind text (ts.map (Token.moved g)) = (takeLeaf kind text ts).map (movedMatch g) := by
  cases ts with
  | nil => rfl
  | cons t ts =>
    simp only [List.map_cons, takeLeaf, isPiece_moved]
    split <;> rfl

theorem takeName_moved (kind : Kind) (except : List String) (ts : List Token) :
    takeName kind except (ts.map (Token.moved g)) = (takeName kind except ts).map (movedMatch g) := by
  cases ts with
  | nil => rfl
  | cons t ts =>
    have hword : (t.moved g).lexeme = .word ∧ (t.moved g).text ∉ except ↔
        t.lexeme = .word ∧ t.text ∉ except := Iff.rfl
    simp only [List.map_cons, takeName, hword]
    by_cases h : t.lexeme = .word ∧ t.text ∉ except
    · rw [if_pos h, if_pos h]
      rfl
    · rw [if_neg h, if_neg h]
      rfl

theorem takeLiteral_moved (ts : List Token) :
    takeLiteral (ts.map (Token.moved g)) = (takeLiteral ts).map (movedMatch g) := by
  cases ts with
  | nil => rfl
  | cons t ts =>
    have hlexeme : (t.moved g).lexeme = t.lexeme := rfl
    simp only [List.map_cons, takeLiteral, hlexeme]
    split <;> rfl

/-- The tokens behind a step are the last of those it began with. -/
theorem runStep_suffix {n : Nat} {steps : List (Step ν)} {t u : Tree} {ts rest : List Token}
    (h : runStep grammar n steps t ts = some (u, rest)) : rest <:+ ts := by
  induction steps generalizing n with
  | nil => cases n <;> cases h
  | cons step steps ih =>
    cases n with
    | zero => cases h
    | succ n =>
      obtain ⟨on, kind, left, rule⟩ := step
      simp only [runStep] at h
      split at h
      · split at h
        · next hrun =>
          cases h
          exact (matches_of_run hrun).suffix
        · exact ih h
      · exact ih h

/-- Rules, folds and steps share the fuel, so the three are treated at once. -/
theorem moved_of_fuel (hpos : 0 < g.pos) (hgrammar : ∀ v, (grammar v).jointsIn joints = true) (n : Nat) :
    (∀ rule {ts}, rule.jointsIn joints = true → Unbroken joints g ts →
      run grammar n rule (ts.map (Token.moved g)) = (run grammar n rule ts).map (movedMatch g)) ∧
    (∀ {steps t ts}, stepJointsIn joints steps = true → Unbroken joints g ts →
      runFold grammar n steps (t.moved g) (ts.map (Token.moved g)) =
        movedMatch g (runFold grammar n steps t ts)) ∧
    (∀ {steps t ts}, stepJointsIn joints steps = true → Unbroken joints g ts →
      runStep grammar n steps (t.moved g) (ts.map (Token.moved g)) =
        (runStep grammar n steps t ts).map fun found =>
          (found.1.moved g, found.2.map (Token.moved g))) := by
  induction n with
  | zero => exact ⟨fun _ _ _ _ => rfl, fun _ _ => rfl, fun _ _ => rfl⟩
  | succ n ih =>
    obtain ⟨ihRun, ihFold, ihStep⟩ := ih
    refine ⟨fun rule {ts} hrule hts => ?_, fun {steps t ts} hsteps hts => ?_,
      fun {steps t ts} hsteps hts => ?_⟩
    · cases rule with
      | empty => rfl
      | token pieces => exact takeToken_moved hrule hts
      | leaf kind text => exact takeLeaf_moved kind text ts
      | name kind except => exact takeName_moved kind except ts
      | literal => exact takeLiteral_moved ts
      | seq a b =>
        simp only [jointsIn, Bool.and_eq_true] at hrule
        simp only [run, ihRun a hrule.1 hts]
        cases ha : run grammar n a ts with
        | none => rfl
        | some found =>
          have hmid := hts.suffix (matches_of_run ha).suffix
          simp only [Option.map_some, movedMatch, ihRun b hrule.2 hmid]
          cases run grammar n b found.2 with
          | none => rfl
          | some found' => simp [movedMatch]
      | alt a b =>
        simp only [jointsIn, Bool.and_eq_true] at hrule
        simp only [run, ihRun a hrule.1 hts, ihRun b hrule.2 hts]
        cases run grammar n a ts <;> rfl
      | many a =>
        have ha := ihRun a hrule hts
        simp only [run, ha]
        cases hfirst : run grammar n a ts with
        | none => rfl
        | some found =>
          have hmid := hts.suffix (matches_of_run hfirst).suffix
          simp only [Option.map_some, movedMatch, ihRun (.many a) hrule hmid]
          cases run grammar n (.many a) found.2 with
          | none => rfl
          | some found' => simp [movedMatch]
      | node kind a =>
        simp only [run, ihRun a hrule hts]
        cases run grammar n a ts with
        | none => rfl
        | some found => simp [movedMatch, Tree.moved_wrap hpos]
      | field part a =>
        simp only [run, ihRun a hrule hts]
        cases run grammar n a ts with
        | none => rfl
        | some found => simp [movedMatch, Tree.moved_withField]
      | ahead a =>
        simp only [run, ihRun a hrule hts]
        cases run grammar n a ts <;> rfl
      | notAhead a =>
        simp only [run, ihRun a hrule hts, Option.isSome_map]
        split <;> rfl
      | var v =>
        simp only [run]
        exact ihRun (grammar v) (hgrammar v) hts
      | fold base steps =>
        simp only [jointsIn, Bool.and_eq_true] at hrule
        simp only [run, ihRun base hrule.1 hts]
        cases hbase : run grammar n base ts with
        | none => rfl
        | some found =>
          have hmid := hts.suffix (matches_of_run hbase).suffix
          obtain ⟨xs, mid⟩ := found
          cases xs with
          | nil => rfl
          | cons t xs =>
            cases xs with
            | nil =>
              simp only [Option.map_some, movedMatch, List.map_cons, List.map_nil,
                ihFold hrule.2 hmid]
            | cons => rfl
    · simp only [runFold, ihStep hsteps hts]
      cases hstep : runStep grammar n steps t ts with
      | none => rfl
      | some found => exact ihFold hsteps (hts.suffix (runStep_suffix hstep))
    · cases steps with
      | nil => rfl
      | cons step steps =>
        obtain ⟨on, kind, left, rule⟩ := step
        simp only [stepJointsIn, Bool.and_eq_true] at hsteps
        simp only [runStep, Tree.kind_moved, ihRun rule hsteps.1 hts, ihStep hsteps.2 hts]
        split
        · cases run grammar n rule ts with
          | none => rfl
          | some found =>
            cases left <;> simp [movedMatch, Tree.moved_wrap hpos, Tree.moved_withField]
        · rfl

theorem run_moved (hpos : 0 < g.pos) (hgrammar : ∀ v, (grammar v).jointsIn joints = true) {n : Nat}
    {rule : Rule ν} {ts : List Token} (hrule : rule.jointsIn joints = true)
    (hts : Unbroken joints g ts) :
    run grammar n rule (ts.map (Token.moved g)) = (run grammar n rule ts).map (movedMatch g) :=
  (moved_of_fuel hpos hgrammar n).1 rule hrule hts

end Rule

/-! ## The grammar of Java -/

namespace Grammar

open Rule

/-- The operators of several tokens are joined from these. -/
def joints : List (String × String) := [(">", ">"), (">", "="), ("non", "-"), ("-", "sealed")]

theorem stepJointsIn_operatorSteps (label : Bool) (min : Nat) :
    stepJointsIn joints (operatorSteps label min) = true := by
  have hbinary : ∀ op ∈ binaryOperators, (Rule.token (ν := Variable) op.1).jointsIn joints = true := by
    decide
  simp only [stepJointsIn_eq_all, operatorSteps, List.all_append, List.all_map, Bool.and_eq_true]
  refine ⟨⟨⟨?_, ?_⟩, ?_⟩, ?_⟩
  · split <;> decide
  · split <;> decide
  · refine List.all_eq_true.2 fun op hop => ?_
    exact Bool.and_eq_true_iff.2 ⟨hbinary op (List.mem_filter.1 hop).1, rfl⟩
  · split <;> rfl

theorem jointsIn_grammar (v : Variable) : (grammar v).jointsIn joints = true := by
  cases v with
  | expression label min => exact Bool.and_eq_true_iff.2 ⟨rfl, stepJointsIn_operatorSteps label min⟩
  | operand label => cases label <;> decide
  | _ => decide

end Grammar

/-! ## A comment between two tokens -/

/-- A comment that is put into a text. -/
structure Insertion where
  front : List Char
  remark : List Char
  back : List Char

namespace Insertion

variable (i : Insertion) {before after : List Token} {root : Tree}

def text : List Char := i.front ++ i.back

def remarked : List Char := i.front ++ i.remark ++ i.back

def gap : Gap := ⟨i.front.length, i.remark.length⟩

def comment : Token :=
  ⟨.comment .blockComment, .ofList i.remark, i.front.length, i.front.length + i.remark.length⟩

/-- The comment stands between tokens: the tokens of the text are left, and it is one more. -/
structure Between (before after : List Token) : Prop where
  front : before ≠ []
  back : after ≠ []
  tokens : tokens? i.text = some (before ++ after)
  remarked : tokens? i.remarked = some (before ++ i.comment :: after.map (Token.moved i.gap))

/-- The comment tears no operator apart. -/
def Harmless (ts : List Token) : Prop :=
  ∀ a ∈ ts, ∀ b ∈ ts, a.stop = i.front.length → b.start = i.front.length →
    (a.text, b.text) ∉ Grammar.joints

variable {i}

theorem length_remarked : i.remarked.length = i.text.length + i.remark.length := by
  simp [remarked, text]
  omega

namespace Between

variable (h : i.Between before after)
include h

theorem comment_nonempty : 0 < i.remark.length := by
  have hfirm := (tokens?_placed h.remarked).firm i.comment (by simp)
  have hlt : i.front.length < i.front.length + i.remark.length := hfirm.nonempty
  omega

theorem of_mem_before {t : Token} (ht : t ∈ before) : t.start < t.stop ∧ t.stop ≤ i.front.length := by
  have hplaced := tokens?_placed h.remarked
  refine ⟨(hplaced.firm t (List.mem_append_left _ ht)).nonempty, ?_⟩
  exact (List.pairwise_append.1 hplaced.ordered).2.2 t ht i.comment List.mem_cons_self

theorem of_mem_after {t : Token} (ht : t ∈ after) :
    i.front.length ≤ t.start ∧ t.start < t.stop ∧ t.stop ≤ i.text.length := by
  have hfirm := (tokens?_placed h.tokens).firm t (List.mem_append_right _ ht)
  have hordered := (List.pairwise_append.1 (tokens?_placed h.remarked).ordered).2.1
  have hbehind : i.comment.stop ≤ i.gap.begin t.start :=
    (List.pairwise_cons.1 hordered).1 _ (List.mem_map_of_mem ht)
  refine ⟨?_, hfirm.nonempty, hfirm.inside⟩
  have hpos := h.comment_nonempty
  unfold Gap.begin at hbehind
  split at hbehind
  · next hlt =>
    simp only [comment] at hbehind
    simp only [gap] at hlt
    omega
  · next hle => exact Nat.le_of_not_lt hle

theorem front_nonempty : 0 < i.front.length := by
  obtain ⟨t, ht⟩ := List.exists_mem_of_ne_nil _ h.front
  have := h.of_mem_before ht
  omega

theorem back_nonempty : i.front.length < i.text.length := by
  obtain ⟨t, ht⟩ := List.exists_mem_of_ne_nil _ h.back
  have := h.of_mem_after ht
  omega

/-- What is in front of the comment stays where it is. -/
theorem map_moved_before (p : Token → Bool) :
    (before.filter p).map (Token.moved i.gap) = before.filter p := by
  refine (List.map_congr_left fun t ht => ?_).trans (List.map_id _)
  obtain ⟨hlt, hle⟩ := h.of_mem_before (List.mem_filter.1 ht).1
  have hstart : i.gap.begin t.start = t.start := if_pos (Nat.lt_of_lt_of_le hlt hle)
  have hstop : i.gap.finish t.stop = t.stop := if_pos hle
  simp only [Token.moved, hstart, hstop, id_eq]

/-- Apart from the comment, the tokens are those of the text, moved. -/
theorem filter_remarked (p : Token → Bool) (hp : ∀ t, p (t.moved i.gap) = p t) :
    (before ++ i.comment :: after.map (Token.moved i.gap)).filter p =
      (before.filter p).map (Token.moved i.gap) ++
        ([i.comment].filter p ++ (after.filter p).map (Token.moved i.gap)) := by
  have hafter : (after.map (Token.moved i.gap)).filter p = (after.filter p).map (Token.moved i.gap) := by
    rw [List.filter_map]
    congr 1
    exact List.filter_congr fun t _ => hp t
  rw [h.map_moved_before, List.filter_append, ← List.singleton_append, List.filter_append, hafter]

theorem unbroken (hharmless : i.Harmless (before ++ after)) (p : Token → Bool) :
    Rule.Unbroken Grammar.joints i.gap ((before ++ after).filter p) := by
  have hplaced := (tokens?_placed h.tokens).filter p
  have hchain : ((before ++ after).filter p).IsChain fun a b => a.stop ≤ b.start := hplaced.ordered.isChain
  refine hchain.imp_of_mem_imp fun a b ha hb hle hjoint => ?_
  refine i.gap.begin_eq_finish hle fun ⟨hstop, hstart⟩ => ?_
  exact hharmless a (List.mem_filter.1 ha).1 b (List.mem_filter.1 hb).1 hstop hstart hjoint

end Between

end Insertion

theorem Tree.moved_foldl_insertInto {g : Gap} (comments : List Token) (t : Tree) :
    (comments.foldl (fun t c => (parse?.ofComment c).insertInto t) t).moved g =
      (comments.map (Token.moved g)).foldl (fun t c => (parse?.ofComment c).insertInto t)
        (t.moved g) := by
  induction comments generalizing t with
  | nil => rfl
  | cons c comments ih =>
    have hcomment : (parse?.ofComment c).moved g = parse?.ofComment (c.moved g) := by
      have hlexeme : (c.moved g).lexeme = c.lexeme := rfl
      simp only [parse?.ofComment, hlexeme]
      split <;> rfl
    rw [List.foldl_cons, ih, Tree.moved_insertInto, hcomment, List.map_cons, List.foldl_cons]

/-- It makes no difference whether the comment is put into a tree before or after those behind it. -/
theorem Insertion.Between.foldl_insertInto {i : Insertion} {before after : List Token}
    (h : i.Between before after) (t : Tree) :
    ((after.filter Token.isComment).map (Token.moved i.gap)).foldl
        (fun t c => (parse?.ofComment c).insertInto t)
        ((Tree.ofToken .blockComment i.comment).insertInto t) =
      (Tree.ofToken .blockComment i.comment).insertInto
        (((after.filter Token.isComment).map (Token.moved i.gap)).foldl
          (fun t c => (parse?.ofComment c).insertInto t) t) := by
  have hplaced := tokens?_placed h.remarked
  have hbehind := (List.pairwise_cons.1 (List.pairwise_append.1 hplaced.ordered).2.1).1
  have hcomment : (Tree.ofToken .blockComment i.comment).start <
      (Tree.ofToken .blockComment i.comment).stop := (hplaced.firm i.comment (by simp)).nonempty
  rw [← List.foldl_map (f := parse?.ofComment) (g := fun t d => Tree.insertInto d t),
    ← List.foldl_map (f := parse?.ofComment) (g := fun t d => Tree.insertInto d t)]
  refine Tree.foldl_insertInto hcomment (fun d hd => ?_) t
  obtain ⟨c, hc, rfl⟩ := List.mem_map.1 hd
  obtain ⟨u, hu, rfl⟩ := List.mem_map.1 hc
  have hmem := List.mem_map_of_mem (f := Token.moved i.gap) (List.mem_filter.1 hu).1
  obtain ⟨kind, heq⟩ := ofComment_eq (u.moved i.gap)
  rw [heq]
  exact ⟨hbehind _ hmem, (hplaced.firm _ (by simp [hmem])).nonempty⟩

/-- **A remark.** A comment put between two tokens of a text, none of them torn off an operator, is put
into the tree of the text, which is moved apart for it. -/
theorem parse?_remarked {i : Insertion} {before after : List Token} {root : Tree}
    (h : i.Between before after) (hharmless : i.Harmless (before ++ after))
    (hparse : parse? i.text = some root) :
    parse? i.remarked = some ((Tree.ofToken .blockComment i.comment).insertInto (root.moved i.gap)) := by
  unfold parse? at hparse ⊢
  rw [h.tokens] at hparse
  rw [h.remarked]
  simp only [List.partition_eq_filter_filter] at hparse ⊢
  have hcode : (before ++ i.comment :: after.map (Token.moved i.gap)).filter (not ∘ Token.isComment) =
      ((before ++ after).filter (not ∘ Token.isComment)).map (Token.moved i.gap) := by
    rw [h.filter_remarked _ fun _ => rfl, List.filter_append, List.map_append]
    rfl
  rw [hcode, List.length_map, Rule.run_moved h.front_nonempty Grammar.jointsIn_grammar rfl
    (h.unbroken hharmless _)]
  split at hparse
  · next t hrun =>
    cases hparse
    obtain ⟨xs, rfl, -⟩ := run_program hrun
    simp only [hrun, Option.map_some, Rule.movedMatch, List.map_cons, List.map_nil]
    have hstop : i.gap.finish i.text.length = i.remarked.length := by
      rw [Insertion.length_remarked, Gap.finish]
      exact if_neg (Nat.not_le.2 h.back_nonempty)
    rw [h.filter_remarked _ fun _ => rfl, List.foldl_append, List.foldl_append, List.filter_append,
      List.foldl_append, Tree.moved_foldl_insertInto, Tree.moved_foldl_insertInto]
    simp only [Rule.wrap, Tree.moved_node, hstop, i.gap.begin_zero h.front_nonempty]
    refine congrArg some (h.foldl_insertInto _)
  · cases hparse

end Testwright.Java
