import Testwright.Java.Grammar
import Testwright.Proofs.Java.Matching

/-!
# What matches of rules are made of

`Derives used trees` says how trees may come from tokens: leaves stand for one token or more, and
nodes are put around trees that come from adjacent tokens. Every match of a sound rule is such a
derivation from the tokens it takes (`Rule.Matches.matched`).

Soundness is checked on the rules themselves: around no trees there can be no node, and in a node
that declares a class the body must not come first and must end in a token. What the checks assume of
variables is collected in `Known`, and `holds_known` checks it for the grammar of Java.
-/

namespace Testwright.Java

/-- Whether nodes of a kind declare a class, an interface, an enumeration or a record. -/
def Kind.declares (k : Kind) : Bool :=
  k == .classDeclaration || k == .interfaceDeclaration || k == .enumDeclaration ||
    k == .recordDeclaration

/-- The last of the children of a node, if any, is a keyword or punctuation. -/
def Tree.Shut (t : Tree) : Prop := ∀ c ∈ t.children.getLast?, c.kind.named = false

/-- How trees may come from tokens. -/
inductive Derives : List Token → List Tree → Prop
  | nil : Derives [] []
  | leaf {kind first last used} (head : used.head? = some first) (getLast : used.getLast? = some last) :
    Derives used [.node kind none first.start last.stop []]
  | append {used used' xs ys} (front : Derives used xs) (back : Derives used' ys) :
    Derives (used ++ used') (xs ++ ys)
  | node {kind used xs} (inner : Derives used xs) (full : xs ≠ [])
    (plain : kind.declares = true → ∀ x ∈ xs.head?, x.field ≠ some .body)
    (framed : kind.declares = true → ∀ x ∈ xs, x.field = some .body → x.Shut) :
    Derives used [Rule.wrap kind xs]
  | field {part used xs} (inner : Derives used xs) : Derives used (xs.map (Tree.withField part))

/-- What is known about the variables of a grammar: whether their rules are sound, whether each
match gives a tree, whether the first tree of a match is never a body, whether its bodies end in a
token, and whether all of its trees do. -/
structure Known (ν : Type) where
  sound : ν → Bool
  gives : ν → Bool
  plain : ν → Bool
  framed : ν → Bool
  shut : ν → Bool

namespace Rule

variable {ν : Type} (known : Known ν)

/-- Whether every match of a rule gives a tree. -/
def gives : Rule ν → Bool
  | .empty | .many _ | .ahead _ | .notAhead _ => false
  | .token _ | .leaf .. | .name .. | .literal | .node .. | .fold .. => true
  | .seq a b => gives a || gives b
  | .alt a b => gives a && gives b
  | .field _ a => gives a
  | .var v => known.gives v

/-- Whether the first tree of a match is never a body. -/
def plain : Rule ν → Bool
  | .empty | .ahead _ | .notAhead _ | .token _ | .leaf .. | .name .. | .literal | .node .. => true
  | .seq a b => plain a && (gives known a || plain b)
  | .alt a b => plain a && plain b
  | .many a => plain a
  | .field part _ => part != .body
  | .var v => known.plain v
  | .fold .. => false

/-- Whether the last tree of every match is a keyword or punctuation. -/
def ends : Rule ν → Bool
  | .token _ => true
  | .seq _ b => ends b
  | _ => false

/-- Whether all trees of a match end in a token. -/
def shut : Rule ν → Bool
  | .node _ a => ends a
  | .var v => known.shut v
  | _ => false

/-- Whether the bodies among the trees of a match end in a token. -/
def framed : Rule ν → Bool
  | .empty | .ahead _ | .notAhead _ | .token _ | .leaf .. | .name .. | .literal | .node .. => true
  | .seq a b | .alt a b => framed a && framed b
  | .many a => framed a
  | .field part a => part != .body || shut known a
  | .var v => known.framed v
  | .fold .. => false

mutual

/-- Whether all nodes that a rule makes are around trees of the right form. -/
def sound : Rule ν → Bool
  | .empty | .ahead _ | .notAhead _ | .leaf .. | .name .. | .literal => true
  | .token pieces => !pieces.isEmpty
  | .seq a b | .alt a b => sound a && sound b
  | .many a | .field _ a => sound a
  | .node kind a =>
    sound a && gives known a && (!kind.declares || plain known a && framed known a)
  | .var v => known.sound v
  | .fold base steps => sound base && soundSteps steps

/-- Whether all nodes that some steps make are around trees of the right form. -/
def soundSteps : List (Step ν) → Bool
  | [] => true
  | .mk _ kind _ rule :: steps => !kind.declares && sound rule && soundSteps steps

end

end Rule

/-- What is said to be known about the variables is true of their rules. -/
structure Known.Holds {ν : Type} (known : Known ν) (grammar : ν → Rule ν) : Prop where
  sound : ∀ v, known.sound v = true → (grammar v).sound known = true
  gives : ∀ v, known.gives v = true → (grammar v).gives known = true
  plain : ∀ v, known.plain v = true → (grammar v).plain known = true
  framed : ∀ v, known.framed v = true → (grammar v).framed known = true
  shut : ∀ v, known.shut v = true → (grammar v).shut known = true

/-! ## Matches -/

/-- Trees come from the tokens in front of the rest. -/
def Taken (ts : List Token) (xs : List Tree) (rest : List Token) : Prop :=
  ∃ used, ts = used ++ rest ∧ Derives used xs

/-- The first of some trees, if any, is no body. -/
def PlainHead (xs : List Tree) : Prop := ∀ x ∈ xs.head?, x.field ≠ some .body

/-- The bodies among some trees end in a token. -/
def Framed (xs : List Tree) : Prop := ∀ x ∈ xs, x.field = some .body → x.Shut

/-- The last of some trees is a keyword or punctuation. -/
def Ends (xs : List Tree) : Prop := ∃ x ∈ xs.getLast?, x.kind.named = false

theorem plainHead_append {xs ys : List Tree} (hx : PlainHead xs) (hy : xs = [] → PlainHead ys) :
    PlainHead (xs ++ ys) := by
  cases xs with
  | nil => exact hy rfl
  | cons x xs => exact hx

namespace Taken

variable {ts mid rest : List Token} {xs ys : List Tree} {kind : Kind}

theorem nil : Taken ts [] ts := ⟨[], rfl, .nil⟩

theorem append (h : Taken ts xs mid) (h' : Taken mid ys rest) : Taken ts (xs ++ ys) rest := by
  obtain ⟨used, rfl, hx⟩ := h
  obtain ⟨used', rfl, hy⟩ := h'
  exact ⟨used ++ used', (List.append_assoc ..).symm, hx.append hy⟩

theorem node (h : Taken ts xs rest) (full : xs ≠ [])
    (plain : kind.declares = true → PlainHead xs) (framed : kind.declares = true → Framed xs) :
    Taken ts [Rule.wrap kind xs] rest :=
  let ⟨used, hts, hx⟩ := h
  ⟨used, hts, hx.node full plain framed⟩

theorem field (part : Field) (h : Taken ts xs rest) :
    Taken ts (xs.map (Tree.withField part)) rest :=
  let ⟨used, hts, hx⟩ := h
  ⟨used, hts, hx.field⟩

/-- A single token is a leaf. -/
theorem ofToken (kind : Kind) (t : Token) : Taken (t :: ts) [.ofToken kind t] ts :=
  ⟨[t], rfl, .leaf rfl rfl⟩

end Taken

namespace Rule

variable {ν : Type} {known : Known ν} {grammar : ν → Rule ν}

/-- Adjacent pieces are taken from the front, and the match ends with the last of them. -/
theorem takePieces_eq_some {pieces : List String} {pos stop : Nat} {ts rest : List Token}
    (h : takePieces pos pieces ts = some (stop, rest)) :
    ∃ used, ts = used ++ rest ∧ (used.getLast?.map Token.stop).getD pos = stop ∧
      (pieces ≠ [] → used ≠ []) := by
  induction pieces generalizing pos ts with
  | nil =>
    cases h
    exact ⟨[], rfl, rfl, nofun⟩
  | cons p pieces ih =>
    cases ts with
    | nil => cases h
    | cons t ts =>
      unfold takePieces at h
      split at h
      · obtain ⟨used, rfl, hstop, -⟩ := ih h
        refine ⟨t :: used, rfl, ?_, by simp⟩
        rw [← hstop]
        cases used with
        | nil => rfl
        | cons u used => simp [List.getLast?_eq_some_getLast]
      · cases h

/-- What a match of a rule amounts to. -/
structure Matched (known : Known ν) (rule : Rule ν) (ts : List Token) (xs : List Tree)
    (rest : List Token) : Prop where
  taken : Taken ts xs rest
  gives : rule.gives known = true → xs ≠ []
  plain : rule.plain known = true → PlainHead xs
  framed : rule.framed known = true → Framed xs
  shut : rule.shut known = true → ∀ x ∈ xs, x.Shut
  ends : rule.ends = true → Ends xs

theorem matched_takeToken {pieces : List String} (hpieces : pieces ≠ []) {ts rest : List Token}
    {xs : List Tree} (h : takeToken pieces ts = some (xs, rest)) :
    Matched known (.token pieces) ts xs rest := by
  unfold takeToken at h
  split at h
  · cases h
  · next t ts =>
    obtain ⟨⟨stop, rest'⟩, htake, heq⟩ := Option.map_eq_some_iff.1 h
    cases heq
    obtain ⟨used, hsplit, rfl, hused⟩ := takePieces_eq_some htake
    have hlast := List.getLast?_eq_some_getLast (hused hpieces)
    have hhead : used.head? = some t := by
      cases used with
      | nil => exact absurd rfl (hused hpieces)
      | cons u used => exact congrArg some (List.cons.inj hsplit).1.symm
    refine ⟨⟨used, hsplit, ?_⟩, by simp, by simp [PlainHead, Tree.field],
      by simp [Framed, Tree.field], by simp [shut], fun _ => ⟨_, rfl, rfl⟩⟩
    rw [hlast]
    exact .leaf hhead hlast

namespace Matched

variable {a b : Rule ν} {ts mid rest : List Token} {xs ys : List Tree}

theorem nothing {rule : Rule ν} (h : rule.gives known = false) (hends : rule.ends = false) :
    Matched known rule ts [] ts :=
  ⟨.nil, by simp [h], fun _ => nofun, fun _ => nofun, fun _ => nofun, by simp [hends]⟩

/-- A match that is a leaf of one token. -/
theorem ofToken {rule : Rule ν} (kind : Kind) (t : Token) (hends : rule.ends = false) :
    Matched known rule (t :: ts) [.ofToken kind t] ts :=
  ⟨.ofToken kind t, by simp, by simp [PlainHead, Tree.ofToken, Tree.field],
    by simp [Framed, Tree.ofToken, Tree.field], by simp [Tree.Shut, Tree.ofToken, Tree.children],
    by simp [hends]⟩

theorem seq (h : Matched known a ts xs mid) (h' : Matched known b mid ys rest) :
    Matched known (.seq a b) ts (xs ++ ys) rest where
  taken := h.taken.append h'.taken
  gives hgives := by
    simp only [Rule.gives, Bool.or_eq_true] at hgives
    rcases hgives with hgives | hgives
    · simp [h.gives hgives]
    · simp [h'.gives hgives]
  plain hplain := by
    simp only [Rule.plain, Bool.and_eq_true, Bool.or_eq_true] at hplain
    refine plainHead_append (h.plain hplain.1) fun hnil => h'.plain ?_
    exact hplain.2.resolve_left fun hgives => h.gives hgives hnil
  framed hframed := by
    obtain ⟨ha, hb⟩ := Bool.and_eq_true_iff.1 hframed
    exact List.forall_mem_append.2 ⟨h.framed ha, h'.framed hb⟩
  shut := nofun
  ends hends := by
    obtain ⟨y, hy, hnamed⟩ := h'.ends hends
    exact ⟨y, by simp [List.getLast?_append, Option.mem_def.1 hy], hnamed⟩

theorem altLeft (h : Matched known a ts xs rest) : Matched known (.alt a b) ts xs rest where
  taken := h.taken
  gives hgives := h.gives (Bool.and_eq_true_iff.1 hgives).1
  plain hplain := h.plain (Bool.and_eq_true_iff.1 hplain).1
  framed hframed := h.framed (Bool.and_eq_true_iff.1 hframed).1
  shut := nofun
  ends := nofun

theorem altRight (h : Matched known b ts xs rest) : Matched known (.alt a b) ts xs rest where
  taken := h.taken
  gives hgives := h.gives (Bool.and_eq_true_iff.1 hgives).2
  plain hplain := h.plain (Bool.and_eq_true_iff.1 hplain).2
  framed hframed := h.framed (Bool.and_eq_true_iff.1 hframed).2
  shut := nofun
  ends := nofun

theorem many (h : Matched known a ts xs mid) (h' : Matched known (.many a) mid ys rest) :
    Matched known (.many a) ts (xs ++ ys) rest where
  taken := h.taken.append h'.taken
  gives := nofun
  plain hplain := plainHead_append (h.plain hplain) fun _ => h'.plain hplain
  framed hframed := List.forall_mem_append.2 ⟨h.framed hframed, h'.framed hframed⟩
  shut := nofun
  ends := nofun

theorem node {kind : Kind} (h : Matched known a ts xs rest) (hgives : a.gives known = true)
    (hdeclares : kind.declares = true → a.plain known = true ∧ a.framed known = true) :
    Matched known (.node kind a) ts [wrap kind xs] rest where
  taken := h.taken.node (h.gives hgives) (fun hkind => h.plain (hdeclares hkind).1)
    fun hkind => h.framed (hdeclares hkind).2
  gives _ := by simp
  plain _ := by simp [PlainHead, wrap, Tree.field]
  framed _ := by simp [Framed, wrap, Tree.field]
  shut hshut := by
    obtain ⟨y, hy, hnamed⟩ := h.ends hshut
    simp [Tree.Shut, wrap, Tree.children, Option.mem_def.1 hy, hnamed]
  ends := nofun

theorem field {part : Field} (h : Matched known a ts xs rest) :
    Matched known (.field part a) ts (xs.map (Tree.withField part)) rest where
  taken := h.taken.field part
  gives hgives := by simpa using h.gives hgives
  plain hplain := by
    intro x hx
    rw [List.head?_map, Option.mem_def, Option.map_eq_some_iff] at hx
    obtain ⟨y, -, rfl⟩ := hx
    cases y
    simpa [Tree.withField, Tree.field, Rule.plain] using hplain
  framed hframed := by
    intro x hx hfield
    obtain ⟨y, hy, rfl⟩ := List.mem_map.1 hx
    obtain ⟨k, f, s, e, cs⟩ := y
    simp only [Rule.framed, Bool.or_eq_true, bne_iff_ne, ne_eq] at hframed
    rcases hframed with hpart | hshut
    · exact absurd (Option.some.inj hfield) hpart
    · exact h.shut hshut (.node k f s e cs) hy
  shut := nofun
  ends := nofun

theorem var {v : ν} (hknown : known.Holds grammar) (h : Matched known (grammar v) ts xs rest) :
    Matched known (.var v) ts xs rest where
  taken := h.taken
  gives hgives := h.gives (hknown.gives v hgives)
  plain hplain := h.plain (hknown.plain v hplain)
  framed hframed := h.framed (hknown.framed v hframed)
  shut hshut := h.shut (hknown.shut v hshut)
  ends := nofun

end Matched

theorem taken_wrap {ts mid rest : List Token} {t : Tree} {xs : List Tree} {kind : Kind}
    (left : Option Field) (hkind : kind.declares = false) (h : Taken ts [t] mid)
    (h' : Taken mid xs rest) :
    Taken ts [wrap kind ((left.elim t fun part => t.withField part) :: xs)] rest := by
  have hleft : Taken ts [left.elim t fun part => t.withField part] mid := by
    cases left with
    | none => exact h
    | some part => exact h.field part
  exact (hleft.append h').node (by simp) (by simp [hkind]) (by simp [hkind])

/-- Whether the node that a step makes declares nothing and is around trees of the right form. -/
def stepSound (known : Known ν) : Step ν → Bool
  | .mk _ kind _ rule => !kind.declares && rule.sound known

theorem soundSteps_eq_all (known : Known ν) (steps : List (Step ν)) :
    soundSteps known steps = steps.all (stepSound known) := by
  induction steps with
  | nil => rfl
  | cons step steps ih =>
    obtain ⟨on, kind, left, rule⟩ := step
    rw [soundSteps, ih]
    rfl

/-- Every match of a sound rule comes from the tokens it takes. -/
theorem Matches.matched (hknown : known.Holds grammar) {rule : Rule ν} {ts rest : List Token}
    {xs : List Tree} (h : Matches grammar rule ts xs rest) (hsound : rule.sound known = true) :
    Matched known rule ts xs rest := by
  induction h with
  | empty | manyNil | ahead | notAhead => exact .nothing rfl rfl
  | @token pieces _ _ _ taken =>
    have hpieces : pieces ≠ [] := by simpa [sound] using hsound
    exact matched_takeToken hpieces taken
  | leaf | name | literal => exact .ofToken _ _ rfl
  | seq _ _ ihFront ihBack =>
    simp only [sound, Bool.and_eq_true] at hsound
    exact (ihFront hsound.1).seq (ihBack hsound.2)
  | altLeft _ ih =>
    simp only [sound, Bool.and_eq_true] at hsound
    exact (ih hsound.1).altLeft
  | altRight _ ih =>
    simp only [sound, Bool.and_eq_true] at hsound
    exact (ih hsound.2).altRight
  | manyCons _ _ ihFirst ihOthers => exact (ihFirst hsound).many (ihOthers hsound)
  | node _ ih =>
    simp only [sound, Bool.and_eq_true] at hsound
    exact (ih hsound.1.1).node hsound.1.2 fun hkind => by simpa [hkind] using hsound.2
  | field _ ih => exact (ih hsound).field
  | var _ ih => exact (ih (hknown.sound _ hsound)).var hknown
  | base _ ih =>
    simp only [sound, Bool.and_eq_true] at hsound
    exact ⟨(ih hsound.1).taken, by simp, nofun, nofun, nofun, nofun⟩
  | step _ mem _ _ ihSofar ihBehind =>
    have htaken := (ihSofar hsound).taken
    simp only [sound, Bool.and_eq_true, soundSteps_eq_all] at hsound
    have hstep := List.all_eq_true.1 hsound.2 _ mem
    simp only [stepSound, Bool.and_eq_true, Bool.not_eq_true'] at hstep
    exact ⟨taken_wrap _ hstep.1 htaken (ihBehind hstep.2).taken, by simp, nofun, nofun, nofun, nofun⟩

end Rule

/-! ## The grammar of Java -/

namespace Grammar

open Rule

/-- What is known about the variables of the grammar: all but the whole program have sound rules,
the parts of a declaration in front of its body are no bodies, and the body of a class ends in a
token. -/
def known : Known Variable where
  sound v := v ≠ .program
  gives _ := true
  plain v := v = .modifiers
  framed v := v = .modifiers ∨ v = .typeParameters ∨ v = .formalParameters
  shut v := v = .classBody

theorem soundSteps_operatorSteps (label : Bool) (min : Nat) :
    soundSteps known (operatorSteps label min) = true := by
  have hbinary : ∀ op ∈ binaryOperators, op.1 ≠ [] := by decide
  simp only [soundSteps_eq_all, operatorSteps, List.all_append, List.all_map, Bool.and_eq_true]
  refine ⟨⟨⟨?_, ?_⟩, ?_⟩, ?_⟩
  · split <;> rfl
  · split <;> rfl
  · refine List.all_eq_true.2 fun op hop => ?_
    have := hbinary op (List.mem_filter.1 hop).1
    simp [stepSound, sound, known, Kind.declares, this]
  · split <;> rfl

theorem holds_known : known.Holds grammar where
  sound v hv := by
    cases v with
    | program => cases hv
    | expression label min => exact soundSteps_operatorSteps label min
    | operand label => cases label <;> decide
    | _ => decide
  gives v _ := by
    cases v with
    | operand label => cases label <;> rfl
    | _ => rfl
  plain v hv := by
    cases of_decide_eq_true hv
    rfl
  framed v hv := by
    rcases of_decide_eq_true hv with rfl | rfl | rfl <;> rfl
  shut v hv := by
    cases of_decide_eq_true hv
    rfl

end Grammar

end Testwright.Java
