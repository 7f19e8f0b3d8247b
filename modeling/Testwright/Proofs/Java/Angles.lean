import Testwright.Proofs.Java.Excerpts
import Testwright.Proofs.Java.Gaps
import Testwright.Proofs.Java.Parameters
import Testwright.Proofs.Project.Separating

/-!
# Angle brackets in the types of parameters

`Rule.angles` says how many angle brackets a match of a rule leaves open, as long as no at sign stands in it, so that
there are no annotations with expressions inside (`Rule.Matches.turns`). All that a parameter is made of,
a declarator apart, leaves none open (`Rule.fair`). So a type of a parameter is balanced if it has neither
annotations nor comments inside (`balanced_of_parameterType?`).
-/

namespace Testwright.Java

open Overload

/-- The texts of some tokens, one behind the other. -/
def spelled (ts : List Token) : List Char := ts.flatMap fun t => t.text.toList

theorem spelled_append (ts us : List Token) : spelled (ts ++ us) = spelled ts ++ spelled us := List.flatMap_append

/-- Behind some tokens as many angle brackets are open as a function says of those open before, unless an at sign is
among the tokens. -/
def Turns (f : Nat → Option Nat) (ts rest : List Token) : Prop :=
  ∃ used, ts = used ++ rest ∧ ('@' ∉ spelled used → ∀ d d', f d = some d' → depth? d (spelled used) = some d')

namespace Turns

variable {f g : Nat → Option Nat} {ts mid rest : List Token}

theorem refl : Turns some ts ts := ⟨[], rfl, fun _ _ _ h => h⟩

theorem mono (h : Turns f ts rest) (hle : ∀ d d', g d = some d' → f d = some d') : Turns g ts rest := by
  obtain ⟨used, hts, hused⟩ := h
  exact ⟨used, hts, fun hat d d' h => hused hat d d' (hle d d' h)⟩

theorem trans (h : Turns f ts mid) (h' : Turns g mid rest) : Turns (fun d => (f d).bind g) ts rest := by
  obtain ⟨used, rfl, hused⟩ := h
  obtain ⟨used', rfl, hused'⟩ := h'
  refine ⟨used ++ used', (List.append_assoc ..).symm, fun hat d d' h => ?_⟩
  rw [spelled_append, List.mem_append, not_or] at hat
  obtain ⟨d'', hfront, hback⟩ := Option.bind_eq_some_iff.1 h
  rw [spelled_append, depth?_append, hused hat.1 d d'' hfront]
  exact hused' hat.2 d'' d' hback

end Turns

/-! ## What rules do to angle brackets -/

namespace Rule

variable {ν : Type} (level : ν → Bool)

/-- Whether a rule is an at sign, so that an annotation begins. -/
def isAt : Rule ν → Bool
  | .token [text] => text == "@"
  | _ => false

mutual

/-- The angle brackets that are open behind a match without an at sign. The variables in `level` leave as many open
as there were before. -/
def angles : Rule ν → Nat → Option Nat
  | .empty, d | .ahead _, d | .notAhead _, d | .name .., d => some d
  | .token pieces, d => depth? d (String.join pieces).toList
  | .leaf _ text, d => depth? d text.toList
  | .literal, _ => none
  | .seq a b, d => if isAt a then some d else (angles a d).bind (angles b)
  | .alt a b, d => if angles a d = angles b d then angles a d else none
  | .many a, d => if angles a d = some d then some d else none
  | .node _ a, d | .field _ a, d => angles a d
  | .var v, d => if level v then some d else none
  | .fold base steps, d => (angles base d).bind fun d' => if anglesSteps steps d' then some d' else none

def anglesSteps : List (Step ν) → Nat → Bool
  | [], _ => true
  | .mk _ _ _ rule :: steps, d => decide (angles rule d = some d) && anglesSteps steps d

end

attribute [local simp] angles anglesSteps

variable {level} {grammar : ν → Rule ν}

theorem angles_of_anglesSteps {steps : List (Step ν)} {d : Nat} (h : anglesSteps level steps d = true)
    {on : List Kind} {kind : Kind} {left : Option Field} {rule : Rule ν} (hmem : .mk on kind left rule ∈ steps) :
    rule.angles level d = some d := by
  induction steps with
  | nil => cases hmem
  | cons step steps ih =>
    obtain ⟨on', kind', left', rule'⟩ := step
    rw [anglesSteps, Bool.and_eq_true, decide_eq_true_eq] at h
    rcases List.mem_cons.1 hmem with heq | hmem
    · cases heq
      exact h.1
    · exact ih h.2 hmem

theorem of_angles_many {a : Rule ν} {d d' : Nat} (h : (many a).angles level d = some d') :
    a.angles level d = some d ∧ some d = some d' := by
  simpa using h

theorem of_angles_fold {base : Rule ν} {steps : List (Step ν)} {d d' : Nat}
    (h : (fold base steps).angles level d = some d') :
    base.angles level d = some d' ∧ anglesSteps level steps d' = true := by
  rw [angles] at h
  obtain ⟨d'', hbase, hsteps⟩ := Option.bind_eq_some_iff.1 h
  split at hsteps
  · next hall =>
    cases hsteps
    exact ⟨hbase, hall⟩
  · cases hsteps

theorem spelled_of_takePieces {pieces : List String} {pos stop : Nat} {ts rest : List Token}
    (h : takePieces pos pieces ts = some (stop, rest)) :
    ∃ used, ts = used ++ rest ∧ spelled used = (String.join pieces).toList := by
  induction pieces generalizing pos ts with
  | nil =>
    cases h
    exact ⟨[], rfl, rfl⟩
  | cons p pieces ih =>
    cases ts with
    | nil => cases h
    | cons t ts =>
      unfold takePieces at h
      split at h
      · next hpiece =>
        obtain ⟨used, rfl, hused⟩ := ih h
        have htext : t.text = p := text_of_isPiece (Bool.and_eq_true_iff.1 hpiece).1
        refine ⟨t :: used, rfl, ?_⟩
        rw [spelled, List.flatMap_cons, htext, String.join_cons, String.toList_append]
        exact congrArg _ hused
      · cases h

theorem spelled_of_takeToken {pieces : List String} {ts rest : List Token} {xs : List Tree}
    (h : takeToken pieces ts = some (xs, rest)) :
    ∃ used, ts = used ++ rest ∧ spelled used = (String.join pieces).toList := by
  unfold takeToken at h
  split at h
  · cases h
  · obtain ⟨⟨stop, rest'⟩, htake, heq⟩ := Option.map_eq_some_iff.1 h
    cases heq
    exact spelled_of_takePieces htake

/-- Every match that begins an annotation has an at sign. -/
theorem Matches.at_mem {a : Rule ν} {ts mid : List Token} {xs : List Tree} (h : Matches grammar a ts xs mid)
    (hat : a.isAt = true) : ∃ used, ts = used ++ mid ∧ '@' ∈ spelled used := by
  unfold isAt at hat
  split at hat
  · cases h with
    | token taken =>
      obtain ⟨used, hts, hused⟩ := spelled_of_takeToken taken
      refine ⟨used, hts, ?_⟩
      rw [hused, beq_iff_eq.1 hat]
      decide
  · cases hat

theorem ne_of_isWordContinue {c : Char} (h : Token.isWordContinue c = true) : c ≠ '<' ∧ c ≠ '>' ∧ c ≠ ',' := by
  refine ⟨?_, ?_, ?_⟩ <;> rintro rfl <;> exact absurd h (by decide)

/-- A match leaves as many brackets open as its rule says. -/
theorem Matches.turns (hlevel : ∀ v, level v = true → (grammar v).angles level 0 = some 0) {rule : Rule ν}
    {ts rest : List Token} {xs : List Tree} (h : Matches grammar rule ts xs rest)
    (hwords : ∀ t ∈ ts, t.lexeme = .word → ∀ c ∈ t.text.toList, Token.isWordContinue c = true) :
    Turns (rule.angles level) ts rest := by
  induction h with
  | empty | ahead | notAhead => exact .refl
  | token taken =>
    obtain ⟨used, hts, hused⟩ := spelled_of_takeToken taken
    exact ⟨used, hts, fun _ d d' h => hused ▸ h⟩
  | @leaf kind text t ts piece =>
    refine ⟨[t], rfl, fun _ d d' h => ?_⟩
    rw [angles, ← text_of_isPiece piece] at h
    simpa [spelled] using h
  | @name kind except t ts word =>
    refine ⟨[t], rfl, fun _ d d' h => ?_⟩
    cases h
    refine depth?_of_ne fun c hc => ne_of_isWordContinue (hwords t List.mem_cons_self word c ?_)
    simpa [spelled] using hc
  | literal => exact ⟨[_], rfl, fun _ d d' h => by cases h⟩
  | @seq a b ts mid rest xs ys front back ihFront ihBack =>
    have hback := ihBack fun t ht => hwords t (front.suffix.mem ht)
    cases hbegins : a.isAt with
    | true =>
      -- The annotation has an at sign, so nothing is left to show.
      obtain ⟨used, hfront, hat⟩ := front.at_mem hbegins
      obtain ⟨used', hback, -⟩ := hback
      refine ⟨used ++ used', by rw [hfront, hback, List.append_assoc], fun hnone => absurd ?_ hnone⟩
      rw [spelled_append]
      exact List.mem_append_left _ hat
    | false =>
      refine ((ihFront hwords).trans hback).mono fun d d' h => ?_
      rwa [angles, if_neg (by rw [hbegins]; decide)] at h
  | altLeft left ih =>
    refine (ih hwords).mono fun d d' h => ?_
    rw [angles] at h
    split at h
    · exact h
    · cases h
  | altRight right ih =>
    refine (ih hwords).mono fun d d' h => ?_
    rw [angles] at h
    split at h
    · next hsame => exact hsame ▸ h
    · cases h
  | manyNil => exact .mono .refl fun d d' h => (of_angles_many h).2
  | manyCons first others ihFirst ihOthers =>
    refine ((ihFirst hwords).trans (ihOthers fun t ht => hwords t (first.suffix.mem ht))).mono fun d d' h => ?_
    rw [(of_angles_many h).1]
    exact h
  | node _ ih | field _ ih => exact ih hwords
  | @var v ts rest xs inner ih =>
    obtain ⟨used, hts, hused⟩ := ih hwords
    refine ⟨used, hts, fun hat d d' h => ?_⟩
    rw [angles] at h
    split at h
    · next hv =>
      cases h
      simpa using depth?_add (k := d) (hused hat 0 0 (hlevel v hv))
    · cases h
  | base inner ih => exact (ih hwords).mono fun d d' h => (of_angles_fold h).1
  | step sofar mem applies behind ihSofar ihBehind =>
    refine ((ihSofar hwords).trans (ihBehind fun t ht => hwords t (sofar.suffix.mem ht))).mono fun d d' h => ?_
    rw [h]
    exact angles_of_anglesSteps (of_angles_fold h).2 mem

end Rule

/-! ## Nodes and their texts -/

namespace Tree

/-- The angle brackets in the text of a node are balanced, unless it has annotations or comments. -/
def Even (source : List Char) (t : Tree) : Prop :=
  '@' ∉ t.chars source → '/' ∉ t.chars source → Balanced (t.chars source)

end Tree

section
variable {source back u X : List Char} {pos : Nat} {ts used : List Token} {t : Tree}

theorem ne_of_isSpace {c : Char} (h : Token.isSpace c = true) : c ≠ '<' ∧ c ≠ '>' ∧ c ≠ ',' := by
  refine ⟨?_, ?_, ?_⟩ <;> rintro rfl <;> exact absurd h (by decide)

/-- A comment begins with a slash. -/
theorem head?_of_comment {s : List Char} {kind : Kind} {n : Nat} (h : Token.scan? s = some (.comment kind, n)) :
    s.head? = some '/' := by
  have other {found : Option Nat} {lexeme : Lexeme} (hlexeme : lexeme ≠ .comment kind) :
      found.map (fun n => (lexeme, n)) ≠ some (.comment kind, n) := by
    intro heq
    obtain ⟨m, -, heq⟩ := Option.map_eq_some_iff.1 heq
    exact hlexeme (Prod.mk.inj heq).1
  unfold Token.scan? at h
  split at h
  · rfl
  · rfl
  · exact absurd h (other nofun)
  · exact absurd h (other nofun)
  · exact absurd h (other nofun)
  · split at h <;> cases h
  · split at h
    · cases h
    · split at h
      · cases h
      · exact absurd h (other nofun)
  · cases h

/-- A text without slashes is read as tokens of which none is a comment, and its angle brackets are theirs. -/
theorem Reads.depth?_eq (h : Reads back pos u ts) (hslash : '/' ∉ u) :
    code ts = ts ∧ (∀ c ∈ spelled ts, c ∈ u) ∧ ∀ d, depth? d u = depth? d (spelled ts) := by
  induction h with
  | blank space => exact ⟨rfl, nofun, fun d => depth?_of_ne fun c hc => ne_of_isSpace (space c hc)⟩
  | @token pos w v u lexeme start stop ts space full solid scan hstart hstop rest ih =>
    simp only [List.mem_append, not_or] at hslash
    obtain ⟨hcode, hmem, hdepth⟩ := ih hslash.2.2
    have hspelled : spelled (⟨lexeme, .ofList v, start, stop⟩ :: ts) = v ++ spelled ts := by
      rw [spelled, List.flatMap_cons, String.toList_ofList, spelled]
    refine ⟨?_, ?_, fun d => ?_⟩
    · rw [code, List.filter_cons_of_pos, ← code, hcode]
      cases lexeme with
      | comment kind =>
        have hhead := head?_of_comment scan
        rw [List.head?_append_of_ne_nil _ full] at hhead
        exact absurd (List.mem_of_mem_head? hhead) hslash.2.1
      | _ => rfl
    · rw [hspelled]
      grind
    · rw [hspelled, depth?_append, depth?_of_ne fun c hc => ne_of_isSpace (space c hc), Option.bind_some,
        depth?_append, depth?_append]
      exact congrArg _ (funext hdepth)

/-- A node is even if the tokens that it stands for are. -/
theorem even_of_spannedBy {all : List Token} (htokens : tokens? source = some all) (hused : used <:+: code all)
    (h : t.SpannedBy used) (hdepth : '@' ∉ spelled used → depth? 0 (spelled used) = some 0) : t.Even source := by
  intro hat hslash
  obtain ⟨a, ha, hstart⟩ := h.start
  obtain ⟨b, hb, hstop⟩ := h.stop
  have hne : used ≠ [] := by
    rintro rfl
    cases ha
  obtain ⟨A, B, C, rfl, rfl, hhead, hlast⟩ := exists_with_comments hused hne
  rw [Option.mem_def, ← hhead, List.head?_eq_some_iff] at ha
  obtain ⟨B, rfl⟩ := ha
  obtain ⟨u, back, hdrop, hreads, -, hends, -⟩ := exists_excerpt htokens
  have hchars : t.chars source = u := by
    rw [Tree.chars, Tree.slice, ← hstart, ← hstop, hends b (hlast ▸ hb), hdrop, Nat.add_sub_cancel_left,
      List.take_left]
  rw [hchars] at hat hslash ⊢
  obtain ⟨hcode, hmem, heq⟩ := hreads.depth?_eq hslash
  rw [hcode] at hdepth
  rw [balanced_iff, heq]
  exact hdepth fun hspelled => hat (hmem _ hspelled)

/-- Words have no angle brackets and no commas. -/
theorem isWordContinue_of_mem {all : List Token} {t : Token} (htokens : tokens? source = some all) (ht : t ∈ all)
    (hword : t.lexeme = .word) : ∀ c ∈ t.text.toList, Token.isWordContinue c = true := by
  have hsuits := tokens?_suits htokens t ht
  rw [hword] at hsuits
  rw [(tokens?_scanned htokens).text t ht, String.toList_ofList]
  exact hsuits

end

/-! ## Parameters -/

/-- What is said of a grammar about even trees. Matches of the variables in `level` leave as many angle brackets open
as there were before. In nodes of some kinds all trees have to be even but those of kinds that `apart?` lets stand
apart, and `even` says of which variables all trees are. -/
structure Evenness (ν : Type) where
  level : ν → Bool
  apart? : Kind → Option (Kind → Bool)
  even : (Kind → Bool) → ν → Bool

namespace Rule

variable {ν : Type} (known : Known ν) (e : Evenness ν) (apart : Kind → Bool)

/-- Whether all trees of a match are even, those that may stand apart excepted. -/
def evens : Rule ν → Bool
  | .empty | .ahead _ | .notAhead _ | .name .. => true
  | .token pieces => depth? 0 (String.join pieces).toList == some 0
  | .leaf _ text => depth? 0 text.toList == some 0
  | .literal => false
  | .seq a b | .alt a b => evens a && evens b
  | .many a | .field _ a => evens a
  | .node kind a => apart kind || a.angles e.level 0 == some 0
  | .var v => e.even apart v
  | .fold base steps => (Rule.fold base steps).angles e.level 0 == some 0

mutual

/-- Whether trees are even where they have to be, in all nodes that a rule makes. -/
def fair : Rule ν → Bool
  | .empty | .ahead _ | .notAhead _ | .token _ | .leaf .. | .name .. | .literal | .var _ => true
  | .seq a b | .alt a b => fair a && fair b
  | .many a | .field _ a => fair a
  | .node kind a => ((e.apart? kind).all fun apart => a.evens e apart && a.sound known) && fair a
  | .fold base steps => fair base && fairSteps steps

def fairSteps : List (Step ν) → Bool
  | [] => true
  | .mk _ kind _ rule :: steps => (e.apart? kind).isNone && fair rule && fairSteps steps

end

def stepFair : Step ν → Bool
  | .mk _ kind _ rule => (e.apart? kind).isNone && rule.fair known e

theorem fairSteps_eq_all (steps : List (Step ν)) : fairSteps known e steps = steps.all (stepFair known e) := by
  induction steps with
  | nil => rfl
  | cons step steps ih =>
    obtain ⟨on, kind, left, rule⟩ := step
    rw [fairSteps, ih]
    rfl

end Rule

/-- What is said of a grammar is true of its rules. -/
structure Evenness.Holds {ν : Type} (e : Evenness ν) (known : Known ν) (grammar : ν → Rule ν) : Prop where
  level : ∀ v, e.level v = true → (grammar v).angles e.level 0 = some 0
  even : ∀ kind, ∀ apart ∈ e.apart? kind, ∀ v, e.even apart v = true →
    (grammar v).evens e apart = true ∧ (grammar v).sound known = true
  fair : ∀ v, (grammar v).fair known e = true

/-- The trees in a node are even if they have to be. -/
def Tree.Fair (apart? : Kind → Option (Kind → Bool)) (source : List Char) (t : Tree) : Prop :=
  ∀ apart ∈ apart? t.kind, ∀ c ∈ t.children, apart c.kind = true ∨ c.Even source

namespace Rule

variable {ν : Type} {known : Known ν} {e : Evenness ν} {grammar : ν → Rule ν} {source : List Char} {all : List Token}
  (hknown : known.Holds grammar) (he : e.Holds known grammar) (htokens : tokens? source = some all)
include hknown he htokens

/-- A match that gives one tree, and leaves no angle bracket open, gives an even one. -/
theorem Matches.even_of_angles {rule : Rule ν} {ts rest : List Token} {t : Tree}
    (h : Matches grammar rule ts [t] rest) (hts : ts <:+ code all) (hsound : rule.sound known = true)
    (hangles : rule.angles e.level 0 = some 0) : t.Even source := by
  obtain ⟨used, hused, hderives⟩ := (h.matched hknown hsound).taken
  obtain ⟨used', hused', hdepth⟩ := h.turns he.level fun t ht =>
    isWordContinue_of_mem htokens (List.mem_of_mem_filter (hts.mem ht))
  cases List.append_cancel_right (hused.symm.trans hused')
  refine even_of_spannedBy htokens ?_ hderives.spannedBy fun hat => hdepth hat 0 0 hangles
  exact (hused ▸ (List.prefix_append used rest).isInfix : used <:+: ts).trans hts.isInfix

theorem Matches.evens {kind : Kind} {apart : Kind → Bool} (hapart : apart ∈ e.apart? kind) {rule : Rule ν}
    {ts rest : List Token} {xs : List Tree} (h : Matches grammar rule ts xs rest) (hts : ts <:+ code all)
    (hsound : rule.sound known = true) (hrule : rule.evens e apart = true) :
    ∀ x ∈ xs, apart x.kind = true ∨ x.Even source := by
  have alone {rule : Rule ν} {ts rest : List Token} {t : Tree} (h : Matches grammar rule ts [t] rest)
      (hts : ts <:+ code all) (hsound : rule.sound known = true) (hangles : rule.angles e.level 0 = some 0) :
      ∀ x ∈ [t], apart x.kind = true ∨ x.Even source :=
    List.forall_mem_singleton.2 (.inr (h.even_of_angles hknown he htokens hts hsound hangles))
  induction h with
  | empty | manyNil | ahead | notAhead => nofun
  | token taken =>
    obtain ⟨-, start, stop, rfl⟩ := takeToken_eq_some taken
    exact alone (.token taken) hts hsound (eq_of_beq hrule)
  | leaf piece => exact alone (.leaf piece) hts hsound (eq_of_beq hrule)
  | name word allowed => exact alone (.name word allowed) hts hsound rfl
  | literal => cases hrule
  | seq front back ihFront ihBack =>
    simp only [Rule.evens, Rule.sound, Bool.and_eq_true] at hrule hsound
    exact List.forall_mem_append.2
      ⟨ihFront hts hsound.1 hrule.1, ihBack (front.suffix.trans hts) hsound.2 hrule.2⟩
  | altLeft left ih =>
    simp only [Rule.evens, Rule.sound, Bool.and_eq_true] at hrule hsound
    exact ih hts hsound.1 hrule.1
  | altRight right ih =>
    simp only [Rule.evens, Rule.sound, Bool.and_eq_true] at hrule hsound
    exact ih hts hsound.2 hrule.2
  | manyCons first others ihFirst ihOthers =>
    exact List.forall_mem_append.2
      ⟨ihFirst hts hsound hrule, ihOthers (first.suffix.trans hts) hsound hrule⟩
  | node inner =>
    simp only [Rule.evens, Bool.or_eq_true, beq_iff_eq] at hrule
    rcases hrule with hkind | hangles
    · exact List.forall_mem_singleton.2 (.inl hkind)
    · exact alone (.node inner) hts hsound hangles
  | field inner ih =>
    intro x hx
    obtain ⟨y, hy, rfl⟩ := List.mem_map.1 hx
    obtain ⟨k, f, start, stop, cs⟩ := y
    exact ih hts hsound hrule (.node k f start stop cs) hy
  | @var v ts rest xs inner ih =>
    obtain ⟨heven, hsound⟩ := he.even kind apart hapart v hrule
    exact ih hts hsound heven
  | base inner => exact alone (.base inner) hts hsound (eq_of_beq hrule)
  | step sofar mem applies behind =>
    exact alone (.step sofar mem applies behind) hts hsound (eq_of_beq hrule)

/-- In all nodes of a match trees are even where they have to be. -/
theorem Matches.fair {rule : Rule ν} {ts rest : List Token} {xs : List Tree} (h : Matches grammar rule ts xs rest)
    (hts : ts <:+ code all) (hrule : rule.fair known e = true) : ∀ x ∈ xs, x.Forall (Tree.Fair e.apart? source) := by
  have single (kind : Kind) (start stop : Nat) :
      ∀ x ∈ [Tree.node kind none start stop []], x.Forall (Tree.Fair e.apart? source) :=
    List.forall_mem_singleton.2 (.node (fun _ _ => nofun) nofun)
  induction h with
  | empty | manyNil | ahead | notAhead => nofun
  | token taken =>
    obtain ⟨-, start, stop, rfl⟩ := takeToken_eq_some taken
    exact single _ _ _
  | leaf | name | literal => exact single _ _ _
  | seq front back ihFront ihBack =>
    simp only [Rule.fair, Bool.and_eq_true] at hrule
    exact List.forall_mem_append.2 ⟨ihFront hts hrule.1, ihBack (front.suffix.trans hts) hrule.2⟩
  | altLeft left ih => exact ih hts (Bool.and_eq_true_iff.1 hrule).1
  | altRight right ih => exact ih hts (Bool.and_eq_true_iff.1 hrule).2
  | manyCons first others ihFirst ihOthers =>
    exact List.forall_mem_append.2 ⟨ihFirst hts hrule, ihOthers (first.suffix.trans hts) hrule⟩
  | @node kind a ts rest xs inner ih =>
    simp only [Rule.fair, Bool.and_eq_true] at hrule
    refine List.forall_mem_singleton.2 (.node (fun apart hapart => ?_) (ih hts hrule.2))
    have hevens := hrule.1
    rw [show e.apart? kind = some apart from hapart, Option.all_some, Bool.and_eq_true] at hevens
    exact inner.evens hknown he htokens hapart hts hevens.2 hevens.1
  | field inner ih =>
    intro x hx
    obtain ⟨y, hy, rfl⟩ := List.mem_map.1 hx
    obtain ⟨k, f, start, stop, cs⟩ := y
    have hy := ih hts hrule _ hy
    exact .node hy.self fun c hc => hy.of_mem hc
  | @var v ts rest xs inner ih => exact ih hts (he.fair v)
  | base inner ih => exact ih hts (Bool.and_eq_true_iff.1 hrule).1
  | @step a steps ts mid rest t on kind left rule xs sofar mem applies inner ihSofar ihInner =>
    have hfirst := ihSofar hts hrule t List.mem_cons_self
    simp only [Rule.fair, Bool.and_eq_true] at hrule
    rw [fairSteps_eq_all] at hrule
    have hstep := List.all_eq_true.1 hrule.2 _ mem
    simp only [stepFair, Bool.and_eq_true, Option.isNone_iff_eq_none] at hstep
    have hbehind := ihInner (sofar.suffix.trans hts) hstep.2
    refine List.forall_mem_singleton.2 (.node (fun apart hapart => ?_) (List.forall_mem_cons.2 ⟨?_, hbehind⟩))
    · cases hstep.1.symm.trans hapart
    · cases left with
      | none => exact hfirst
      | some part =>
        obtain ⟨k, f, start, stop, cs⟩ := t
        exact .node hfirst.self fun c hc => hfirst.of_mem hc

end Rule

namespace Grammar

open Rule

/-- All trees in a parameter have to be even, the declarator with the name of a parameter for any number of arguments
excepted. -/
def evenness : Evenness Variable where
  level
    | .type | .unannotatedType | .simpleType | .classType | .typeArguments | .dimensions | .decoration
    | .modifiers => true
    | _ => false
  apart?
    | .formalParameter => some fun _ => false
    | .spreadParameter => some (· == .variableDeclarator)
    | _ => none
  even apart
    | .unannotatedType | .simpleType | .classType | .dimensions | .decoration | .modifiers | .declaratorId => true
    | .variableDeclarator => apart .variableDeclarator
    | _ => false

theorem holds_evenness : evenness.Holds known grammar where
  level v hv := by
    cases v <;> first
      | (cases hv; done)
      | decide
  even kind apart hapart v hv := by
    have hcases : apart = (fun _ => false) ∨ apart = (· == .variableDeclarator) := by
      simp only [evenness, Option.mem_def] at hapart
      split at hapart <;> cases hapart
      · exact .inl rfl
      · exact .inr rfl
    rcases hcases with rfl | rfl <;> cases v <;> first
      | (cases hv; done)
      | decide
  fair v := by
    cases v with
    | expression label min =>
      have hall : ∀ step ∈ operatorSteps label 0, stepFair known evenness step = true := by
        cases label <;> decide
      refine Bool.and_eq_true_iff.2 ⟨rfl, ?_⟩
      rw [fairSteps_eq_all, List.all_eq_true]
      exact fun step hstep => hall step ((operatorSteps_sublist label min).subset hstep)
    | operand label => cases label <;> decide
    | _ => decide

end Grammar

/-! ## Trees of the parser -/

section
variable {source : List Char} {all : List Token} {c t root decl : Tree}

theorem Tree.Even.insertInto (h : t.Even source) : (insertInto c t).Even source := by
  have hchars : (Tree.insertInto c t).chars source = t.chars source := by simp [chars]
  rw [Even, hchars]
  exact h

theorem Tree.Fair.insertInto {apart? : Kind → Option (Kind → Bool)} (hc : c.Even source) (h : t.Fair apart? source) :
    (insertInto c t).Fair apart? source := by
  intro apart hapart v hv
  rw [kind_insertInto] at hapart
  rw [children_insertInto] at hv
  rcases mem_insertAmong_cases hv with rfl | hv | ⟨u, hu, -, -, rfl⟩
  · exact .inr hc
  · exact h apart hapart v hv
  · rw [kind_insertInto]
    exact (h apart hapart u hu).imp_right Even.insertInto

/-- A comment has a slash. -/
theorem even_ofToken (htokens : tokens? source = some all) {c : Token} (hc : c ∈ all) (hcomment : c.isComment = true)
    (kind : Kind) : (Tree.ofToken kind c).Even source := by
  have hscanned := tokens?_scanned htokens
  intro _ hslash
  unfold Token.isComment at hcomment
  split at hcomment
  · next note hlexeme =>
    have hscan := hscanned.scan c hc
    rw [hlexeme] at hscan
    have hfirst : ((Tree.ofToken kind c).chars source).head? = some '/' := by
      rw [← head?_of_comment hscan]
      exact List.head?_take.trans (if_neg (Nat.sub_ne_zero_of_lt (hscanned.nonempty hc)))
    exact absurd (List.mem_of_mem_head? hfirst) hslash
  · cases hcomment

theorem parse?_fair (h : parse? source = some root) : root.Forall (Tree.Fair Grammar.evenness.apart? source) := by
  obtain ⟨ts, start, stop, xs, htokens, hmatches, rfl⟩ := parse?_eq_some h
  have hprogram := hmatches.fair Grammar.holds_known Grammar.holds_evenness htokens List.suffix_rfl rfl _
    List.mem_cons_self
  have hroot : (Tree.node .program none 0 source.length xs).Forall (Tree.Fair Grammar.evenness.apart? source) :=
    .node (fun _ h => by cases h) fun c hc => hprogram.of_mem hc
  refine List.foldlRecOn _ _ hroot fun t ht c hc => ?_
  obtain ⟨hc, hcomment⟩ := List.mem_filter.1 hc
  obtain ⟨kind, heq⟩ := ofComment_eq c
  have heven := even_ofToken htokens hc hcomment kind
  rw [heq]
  exact Tree.Forall.insertInto ht (fun u hu => hu.insertInto heven) (.node (fun _ _ => nofun) nofun)

theorem Tree.Even.balanced_squeezed (h : t.Even source) (hat : '@' ∉ (t.squeezed source).toList)
    (hslash : '/' ∉ (t.squeezed source).toList) : Balanced (t.squeezed source).toList := by
  rw [squeezed, String.toList_ofList] at hat hslash ⊢
  have hkept {c : Char} (hblank : Text.isBlank c = false)
      (hc : c ∉ (t.chars source).filter fun c => !Text.isBlank c) : c ∉ t.chars source :=
    fun hmem => hc (List.mem_filter.2 ⟨hmem, by rw [hblank]; rfl⟩)
  have hbalanced := h (hkept (by decide) hat) (hkept (by decide) hslash)
  rw [balanced_iff] at hbalanced ⊢
  rw [depth?_filter fun c hc => ?_, hbalanced]
  refine ⟨?_, ?_, ?_⟩ <;> rintro rfl <;> exact absurd hc (by decide)

/-- The type of a parameter is balanced if it has no annotations and no comments. -/
theorem balanced_of_parameterType? {param : Tree} {type : String}
    (h : param.Fair Grammar.evenness.apart? source) (htype : param.parameterType? source = some type)
    (hat : '@' ∉ type.toList) (hslash : '/' ∉ type.toList) : Balanced type.toList := by
  have joined {a b : String} (hat : '@' ∉ (a ++ b).toList) (hslash : '/' ∉ (a ++ b).toList)
      (ha : '@' ∉ a.toList → '/' ∉ a.toList → Balanced a.toList)
      (hb : '@' ∉ b.toList → '/' ∉ b.toList → Balanced b.toList) : Balanced (a ++ b).toList := by
    simp only [String.toList_append, List.mem_append, not_or] at hat hslash ⊢
    exact (ha hat.1 hslash.1).append (hb hat.2 hslash.2)
  unfold Tree.parameterType? at htype
  split at htype
  · next hkind =>
    have heven {c : Tree} (hc : c ∈ param.children) : c.Even source :=
      (h (fun _ => false) (by rw [hkind]; rfl) c hc).resolve_left nofun
    obtain ⟨u, hu, rfl⟩ := Option.map_eq_some_iff.1 htype
    refine joined hat hslash (heven (List.mem_of_find?_eq_some hu)).balanced_squeezed fun hat hslash => ?_
    cases hdims : param.child? .dimensions with
    | none => exact balanced_iff.2 rfl
    | some dims =>
      rw [hdims] at hat hslash
      exact (heven (List.mem_of_find?_eq_some hdims)).balanced_squeezed hat hslash
  · next hkind =>
    obtain ⟨u, hu, rfl⟩ := Option.map_eq_some_iff.1 htype
    have hfound := List.find?_some hu
    obtain ⟨-, hne⟩ := Bool.and_eq_true_iff.1 hfound
    have hmem := (List.mem_filter.1 (List.mem_of_find?_eq_some hu)).1
    have heven := h (· == .variableDeclarator) (by rw [hkind]; rfl) u hmem
    refine joined hat hslash (heven.resolve_left fun hdeclarator => ?_).balanced_squeezed fun _ _ => by decide
    exact bne_iff_ne.1 hne (eq_of_beq hdeclarator)
  · cases htype

end

end Testwright.Java
