import Testwright.Proofs.Java.Fuel

/-!
# Alternatives and sequences

A rule with alternatives matches as the first of them does (`Rule.eval_options`), and a sequence is
all but its last part with this part behind (`Rule.eval_split`). Some rules give one tree only
(`Rule.Matches.lone`), and some begin with one of a few words and symbols (`Rule.begins_of_eval`).
-/

namespace Testwright.Java.Rule

variable {ν : Type}

/-- The alternatives of a rule. -/
def options : Rule ν → List (Rule ν)
  | .alt a b => a :: options b
  | rule => [rule]

/-- A sequence without its last part. -/
def initial : Rule ν → Rule ν
  | .seq a (.seq b c) => .seq a (initial (.seq b c))
  | .seq a _ => a
  | rule => rule

/-- The last part of a sequence. -/
def final : Rule ν → Rule ν
  | .seq _ (.seq b c) => final (.seq b c)
  | .seq _ b => b
  | rule => rule

def isSeq : Rule ν → Bool
  | .seq _ _ => true
  | _ => false

variable {known : Known ν} {cost : ν → Nat} {grammar : ν → Rule ν} {rule a b : Rule ν}
  {ts rest : List Token} {xs : List Tree}

theorem Ready.of_mem_options (h : rule.Ready known cost) (ha : a ∈ rule.options) : a.Ready known cost := by
  induction rule using options.induct with
  | case1 b c ih =>
    rcases List.mem_cons.1 ha with rfl | ha
    · exact h.first
    · exact ih h.second ha
  | case2 rule hrule =>
    rw [options] at ha
    · exact List.mem_singleton.1 ha ▸ h
    · exact hrule

/-- The first alternative that matches counts. -/
theorem eval_options (h : known.Paced cost grammar) (hready : rule.Ready known cost) :
    eval grammar rule ts = rule.options.findSome? fun a => eval grammar a ts := by
  induction rule using options.induct with
  | case1 a b ih =>
    rw [eval_alt h hready, options, List.findSome?_cons, ← ih hready.second]
    cases eval grammar a ts <;> rfl
  | case2 rule hrule =>
    rw [options]
    · simp
    · exact hrule

theorem andThen_andThen (xs ys : List Tree) (found : List Tree × List Token) :
    andThen xs (andThen ys found) = andThen (xs ++ ys) found := by
  simp [andThen]

/-- A sequence matches as all but its last part do, with the last part behind. -/
theorem eval_split (h : known.Paced cost grammar) (hready : rule.Ready known cost)
    (hready' : rule.initial.Ready known cost) (hseq : rule.isSeq = true) :
    eval grammar rule ts = (eval grammar rule.initial ts).bind fun found =>
      (eval grammar rule.final found.2).map (andThen found.1) := by
  induction rule using initial.induct generalizing ts with
  | case1 a b c ih =>
    rw [initial] at hready' ⊢
    rw [eval_seq h hready, eval_seq h hready', final]
    cases eval grammar a ts with
    | none => rfl
    | some found =>
      simp only [Option.bind_some, ih hready.right hready'.right rfl]
      cases eval grammar (initial (.seq b c)) found.2 with
      | none => rfl
      | some found' =>
        simp only [Option.bind_some, Option.map_some, Option.map_map]
        refine congrArg (fun g => Option.map g _) (funext fun last => ?_)
        exact andThen_andThen ..
  | case2 a b hb =>
    rw [initial, final]
    · exact eval_seq h hready
    · exact hb
    · exact hb
  | case3 rule h₁ h₂ =>
    cases rule with
    | seq a b => exact absurd rfl (h₂ a b)
    | _ => cases hseq

theorem eq_singleton_of_node (h : known.Paced cost grammar) {kind : Kind}
    (hready : (node kind a).Ready known cost)
    (heval : eval grammar (.node kind a) ts = some (xs, rest)) :
    ∃ ys, eval grammar a ts = some (ys, rest) ∧ xs = [wrap kind ys] := by
  rw [eval_node h hready] at heval
  obtain ⟨found, ha, heq⟩ := Option.map_eq_some_iff.1 heval
  cases heq
  exact ⟨_, ha, rfl⟩

theorem exists_of_seq (h : known.Paced cost grammar) (hready : (seq a b).Ready known cost)
    (heval : eval grammar (.seq a b) ts = some (xs, rest)) : ∃ ys zs mid,
      eval grammar a ts = some (ys, mid) ∧ eval grammar b mid = some (zs, rest) ∧ xs = ys ++ zs := by
  rw [eval_seq h hready] at heval
  obtain ⟨⟨ys, mid⟩, ha, hmap⟩ := Option.bind_eq_some_iff.1 heval
  obtain ⟨⟨zs, rest'⟩, hb, heq⟩ := Option.map_eq_some_iff.1 hmap
  cases heq
  exact ⟨ys, zs, mid, ha, hb, rfl⟩

theorem exists_of_field (h : known.Paced cost grammar) {part : Field}
    (hready : (field part a).Ready known cost)
    (heval : eval grammar (.field part a) ts = some (xs, rest)) :
    ∃ ys, eval grammar a ts = some (ys, rest) ∧ xs = ys.map (Tree.withField part) := by
  rw [eval_field h hready] at heval
  obtain ⟨⟨ys, rest'⟩, ha, heq⟩ := Option.map_eq_some_iff.1 heval
  cases heq
  exact ⟨ys, ha, rfl⟩

/-! ## One tree -/

/-- Whether every match of a rule gives one tree; `ones` says it of the variables. -/
def lone (ones : ν → Bool) : Rule ν → Bool
  | .token _ | .leaf .. | .name .. | .literal | .node .. | .fold .. => true
  | .alt a b => lone ones a && lone ones b
  | .seq (.notAhead _) b => lone ones b
  | .field _ a => lone ones a
  | .var v => ones v
  | _ => false

theorem Matches.lone {ones : ν → Bool} (hones : ∀ v, ones v = true → (grammar v).lone ones = true)
    (h : Matches grammar rule ts xs rest) (hlone : rule.lone ones = true) : ∃ t, xs = [t] := by
  induction h with
  | token taken =>
    unfold takeToken at taken
    split at taken
    · cases taken
    · obtain ⟨found, -, heq⟩ := Option.map_eq_some_iff.1 taken
      cases heq
      exact ⟨_, rfl⟩
  | leaf | name | literal | node | base | step => exact ⟨_, rfl⟩
  | altLeft _ ih => exact ih (Bool.and_eq_true_iff.1 hlone).1
  | altRight _ ih => exact ih (Bool.and_eq_true_iff.1 hlone).2
  | @seq a _ _ _ _ _ _ front _ _ ihBack =>
    cases front with
    | notAhead => exact ihBack hlone
    | _ => cases hlone
  | field _ ih =>
    obtain ⟨t, rfl⟩ := ih hlone
    exact ⟨_, rfl⟩
  | var _ ih => exact ih (hones _ hlone)
  | empty | manyNil | manyCons | ahead | notAhead => cases hlone

/-! ## First tokens -/

/-- The words and symbols with which a match of a rule begins if it takes a token; `starts` says it of
the variables. -/
def firsts (known : Known ν) (starts : ν → Option (List String)) : Rule ν → Option (List String)
  | .empty | .ahead _ | .notAhead _ => some []
  | .token (s :: _) | .leaf _ s => some [s]
  | .token [] | .name .. | .literal | .fold .. => none
  | .seq a b =>
    if gives known a then firsts known starts a
    else (firsts known starts a).bind fun ss => (firsts known starts b).map (ss ++ ·)
  | .alt a b => (firsts known starts a).bind fun ss => (firsts known starts b).map (ss ++ ·)
  | .many a | .node _ a | .field _ a => firsts known starts a
  | .var v => starts v

/-- The first of some tokens is one of some words and symbols. -/
def Begins (ss : List String) (ts : List Token) : Prop :=
  ∃ t ∈ ts.head?, ∃ s ∈ ss, isPiece s t = true

theorem Begins.mono {ss ss' : List String} (h : Begins ss ts) (hsub : ss ⊆ ss') : Begins ss' ts :=
  let ⟨t, ht, s, hs, hpiece⟩ := h
  ⟨t, ht, s, hsub hs, hpiece⟩

theorem begins_of_takeToken {s : String} {pieces : List String}
    (h : takeToken (s :: pieces) ts = some (xs, rest)) : Begins [s] ts := by
  cases ts with
  | nil => cases h
  | cons t ts =>
    obtain ⟨found, htake, -⟩ := Option.map_eq_some_iff.1 h
    unfold takePieces at htake
    split at htake
    · next hpiece => exact ⟨t, rfl, s, List.mem_singleton_self s, (Bool.and_eq_true_iff.1 hpiece).1⟩
    · cases htake

/-- A match of a rule takes no token or begins as the rule says. -/
theorem Matches.begins (hknown : known.Holds grammar) {starts : ν → Option (List String)}
    (hstarts : ∀ v ss, starts v = some ss →
      ∃ ss', (grammar v).firsts known starts = some ss' ∧ ss' ⊆ ss) {ss : List String}
    (h : Matches grammar rule ts xs rest) (hfirsts : rule.firsts known starts = some ss)
    (hsound : rule.sound known = true) : rest = ts ∨ Begins ss ts := by
  induction h generalizing ss with
  | empty | manyNil | ahead | notAhead => exact .inl rfl
  | @token pieces _ _ _ taken =>
    match pieces with
    | [] => cases hfirsts
    | s :: pieces =>
      cases hfirsts
      exact .inr (begins_of_takeToken taken)
  | @leaf _ text t _ piece =>
    cases hfirsts
    exact .inr ⟨t, rfl, text, List.mem_singleton_self text, piece⟩
  | name | literal | base | step => cases hfirsts
  | @seq a _ _ _ _ _ _ front _ ihFront ihBack =>
    simp only [sound, Bool.and_eq_true] at hsound
    rw [firsts] at hfirsts
    split at hfirsts
    · next hgives =>
      refine .inr ((ihFront hfirsts hsound.1).resolve_left ?_)
      rintro rfl
      have matched := front.matched hknown hsound.1
      exact absurd (matched.taken.length_lt (matched.gives hgives)) (Nat.lt_irrefl _)
    · obtain ⟨ss₁, hfirst, hmap⟩ := Option.bind_eq_some_iff.1 hfirsts
      obtain ⟨ss₂, hsecond, rfl⟩ := Option.map_eq_some_iff.1 hmap
      rcases ihFront hfirst hsound.1 with rfl | hbegins
      · exact (ihBack hsecond hsound.2).imp_right fun hbegins =>
          hbegins.mono (List.subset_append_right ..)
      · exact .inr (hbegins.mono (List.subset_append_left ..))
  | altLeft _ ih =>
    simp only [sound, Bool.and_eq_true] at hsound
    obtain ⟨ss₁, hfirst, hmap⟩ := Option.bind_eq_some_iff.1 hfirsts
    obtain ⟨ss₂, -, rfl⟩ := Option.map_eq_some_iff.1 hmap
    exact (ih hfirst hsound.1).imp_right fun hbegins => hbegins.mono (List.subset_append_left ..)
  | altRight _ ih =>
    simp only [sound, Bool.and_eq_true] at hsound
    obtain ⟨ss₁, -, hmap⟩ := Option.bind_eq_some_iff.1 hfirsts
    obtain ⟨ss₂, hsecond, rfl⟩ := Option.map_eq_some_iff.1 hmap
    exact (ih hsecond hsound.2).imp_right fun hbegins => hbegins.mono (List.subset_append_right ..)
  | manyCons _ _ ihFirst ihOthers =>
    rcases ihFirst hfirsts hsound with rfl | hbegins
    · exact ihOthers hfirsts hsound
    · exact .inr hbegins
  | node _ ih =>
    simp only [sound, Bool.and_eq_true] at hsound
    exact ih hfirsts hsound.1.1
  | field _ ih => exact ih hfirsts hsound
  | @var v _ _ _ _ ih =>
    obtain ⟨ss', hrule, hsub⟩ := hstarts v ss hfirsts
    exact (ih hrule (hknown.sound v hsound)).imp_right fun hbegins => hbegins.mono hsub

/-- A rule that takes a token begins as it says. -/
theorem begins_of_eval (h : known.Paced cost grammar) (hready : rule.Ready known cost)
    {starts : ν → Option (List String)}
    (hstarts : ∀ v ss, starts v = some ss →
      ∃ ss', (grammar v).firsts known starts = some ss' ∧ ss' ⊆ ss) {ss : List String}
    (hfirsts : rule.firsts known starts = some ss) (hgives : rule.gives known = true)
    (heval : eval grammar rule ts = some (xs, rest)) : Begins ss ts := by
  refine ((matches_of_run heval).begins h.toHolds hstarts hfirsts hready.sound).resolve_left ?_
  rintro rfl
  exact absurd (length_lt_of_run h.toHolds heval hready.sound hgives) (Nat.lt_irrefl _)

end Testwright.Java.Rule
