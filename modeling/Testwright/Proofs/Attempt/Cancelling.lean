import Testwright.Proofs.Attempt.Modes

/-!
# Runs that may be cancelled at any moment

A mode lets attempts of a pool go on or holds them up: in order, each attempt waits for the end of the
one before it, and behind a success nothing more happens if the run stops there (`Mode.holdsUp`).
`Stepwise.occur` lets steps of attempts, changes of the world and the cancelling of the run happen in any
order within these limits; nothing takes the cancelling back.

The invariant is `Pool.Orderly`: what has become of an attempt agrees with whether it has been started,
and in order the started attempts are the first ones, with the one that holds up the others as the last
of them. What a run comes to is read off from it (`run_tallied`).
-/

namespace Testwright

open Schedule in
/-- Whether an attempt keeps those behind it from going on. -/
def Mode.holdsUp {α : Type} : Mode → Slot α → Bool
  | .parallel, _ | .exhaustive, .ended _ => false
  | .exhaustive, _ => true
  | .stopAtSuccess, .ended outcome => outcome.passed
  | .stopAtSuccess, _ => true

namespace Schedule

variable {σ α : Type}

/-- What happens next during a run. -/
inductive Happening (σ : Type) where
  | move (m : Move σ)
  | cancel

/-- What an attempt comes to that is not under way and goes no further. -/
def Slot.outcome? : Slot α → Option Outcome
  | .waiting => some .notStarted
  | .running _ => none
  | .ended outcome => some outcome

/-- No attempt is under way, none that waits may go on, and these are the outcomes. -/
structure Pool.Rests (mode : Mode) (q : Pool σ α) (outcomes : List Outcome) : Prop where
  outcomes : q.slots.map Slot.outcome? = outcomes.map some
  waiting : ∀ index, q.slots[index]? = some .waiting →
    (q.slots.take index).any mode.holdsUp = true

namespace Stepwise

variable (p : Stepwise σ α) (mode : Mode)

/-- A step of an attempt that is held up does not happen. -/
def happen (q : Pool σ α) : Happening σ → Pool σ α
  | .move (.step index) =>
    if (q.slots.take index).any mode.holdsUp then q else p.move q (.step index)
  | .move (.drift f) => p.move q (.drift f)
  | .cancel => { q with state.cancelled := true }

/-- Let things happen in an order. -/
def occur (q : Pool σ α) (happenings : List (Happening σ)) : Pool σ α :=
  happenings.foldl (p.happen mode) q

/-- What an attempt can come to, whatever happens between its steps. -/
inductive Attains (index : Nat) : α → Prop
  | start : Attains index (p.start index)
  | step {a a' cancelled world} (before : Attains index a)
    (goes : (p.step index a cancelled world).1 = .inl a') : Attains index a'

/-- An attempt can end in this way. -/
def Gives (index : Nat) (ending : Ending) : Prop :=
  ∃ a cancelled world, p.Attains index a ∧ (p.step index a cancelled world).1 = .inr ending

/-- What the outcomes of a run say of it, whenever it is cancelled. -/
structure Tallied (count : Nat) (outcomes : List Outcome) (s : State σ) : Prop where
  length : outcomes.length = count
  /-- Outcomes stand in the order of the attempts. -/
  own : ∀ (index : Nat) outcome, outcomes[index]? = some outcome → outcome ≠ .notStarted →
    ∃ ending, p.Gives index ending ∧ outcome = .ofEnding ending
  once : s.started.Nodup
  started : ∀ index, index ∈ s.started ↔ ∃ outcome, outcomes[index]? = some outcome ∧
    outcome ≠ .notStarted
  initial : mode ≠ .parallel → ∃ k, s.started = .range k
  passed : mode = .stopAtSuccess → ∀ (index : Nat) (outcome : Outcome), outcomes[index]? = some outcome →
    outcome.passed = true → s.started = .range (index + 1)
  /-- An attempt is left out only if the run is cancelled or stops at an earlier one. -/
  left : ∀ index : Nat, outcomes[index]? = some .notStarted → s.cancelled = true ∨
    mode = .stopAtSuccess ∧ ∃ k < index, ∃ outcome : Outcome, outcomes[k]? = some outcome ∧
      outcome.passed = true
  counts : (Summary.mk mode outcomes).succeeded + (Summary.mk mode outcomes).count .exhausted +
    (Summary.mk mode outcomes).count .skipped + (Summary.mk mode outcomes).count .cancelled +
    (Summary.mk mode outcomes).faulted + (Summary.mk mode outcomes).notStarted = count

end Stepwise

/-! ## The invariant -/

/-- What may have become of an attempt, by whether it has been started. -/
inductive Slot.Fits (p : Stepwise σ α) (index : Nat) (s : State σ) : Slot α → Prop
  | waiting (fresh : index ∉ s.started) : Fits p index s .waiting
  | running {a} (begun : index ∈ s.started) (attains : p.Attains index a) : Fits p index s (.running a)
  | refused (fresh : index ∉ s.started) (cancelled : s.cancelled = true) :
    Fits p index s (.ended .notStarted)
  | ended {ending} (begun : index ∈ s.started) (gives : p.Gives index ending) :
    Fits p index s (.ended (.ofEnding ending))

structure Pool.Orderly (p : Stepwise σ α) (mode : Mode) (count : Nat) (q : Pool σ α) : Prop where
  length : q.slots.length = count
  slots : ∀ index (slot : Slot α), q.slots[index]? = some slot → slot.Fits p index q.state
  once : q.state.started.Nodup
  within : ∀ index ∈ q.state.started, index < count
  initial : mode ≠ .parallel → ∃ k, q.state.started = .range k
  /-- The attempt that holds up others is the last one that has been started. -/
  last : ∀ index (slot : Slot α), q.slots[index]? = some slot → mode.holdsUp slot = true →
    index ∈ q.state.started → q.state.started = .range (index + 1)

variable {p : Stepwise σ α} {mode : Mode} {count : Nat} {q : Pool σ α} {s s' : State σ}
  {outcomes : List Outcome}

theorem Slot.Fits.mono {index : Nat} {slot : Slot α} (h : slot.Fits p index s)
    (hstarted : index ∈ s'.started ↔ index ∈ s.started)
    (hcancelled : s.cancelled = true → s'.cancelled = true) : slot.Fits p index s' := by
  cases h with
  | waiting fresh => exact .waiting (mt hstarted.1 fresh)
  | running begun attains => exact .running (hstarted.2 begun) attains
  | refused fresh cancelled => exact .refused (mt hstarted.1 fresh) (hcancelled cancelled)
  | ended begun gives => exact .ended (hstarted.2 begun) gives

theorem Pool.orderly_start (world : σ) (cancelled : Bool) :
    (Pool.start count ⟨world, cancelled, []⟩ : Pool σ α).Orderly p mode count where
  length := List.length_replicate
  slots index slot hslot := by
    obtain ⟨-, rfl⟩ : index < count ∧ Slot.waiting = slot := by
      simpa [Pool.start, List.getElem?_replicate] using hslot
    exact .waiting List.not_mem_nil
  once := List.nodup_nil
  within _ h := absurd h List.not_mem_nil
  initial _ := ⟨0, rfl⟩
  last _ _ _ _ h := absurd h List.not_mem_nil

theorem ofEnding_ne_notStarted (ending : Ending) : Outcome.ofEnding ending ≠ .notStarted := by
  cases ending <;> exact Outcome.noConfusion

namespace Pool.Orderly

/-- An attempt that may begin is the next one in order. -/
theorem started_eq_range (h : q.Orderly p mode count) (hmode : mode ≠ .parallel) {index : Nat}
    (hindex : index < q.slots.length) (hfresh : index ∉ q.state.started)
    (hcancelled : q.state.cancelled = false)
    (hclear : ∀ k (slot : Slot α), k < index → q.slots[k]? = some slot → mode.holdsUp slot = false) :
    q.state.started = .range index := by
  obtain ⟨n, hn⟩ := h.initial hmode
  have hbegun : ∀ k < index, k ∈ q.state.started := by
    intro k hk
    have hslot : q.slots[k]? = some q.slots[k] := List.getElem?_eq_getElem (Nat.lt_trans hk hindex)
    have hfits := h.slots k _ hslot
    have hover := hclear k _ hk hslot
    generalize q.slots[k] = slot at hfits hover
    cases hfits with
    | waiting | running => cases mode <;> first | exact absurd rfl hmode | cases hover
    | refused _ cancelled => cases hcancelled.symm.trans cancelled
    | ended begun => exact begun
  have hle : index ≤ n := by
    rcases Nat.eq_zero_or_pos index with rfl | hpos
    · exact Nat.zero_le n
    · have := hbegun (index - 1) (by omega)
      rw [hn, List.mem_range] at this
      omega
  have hge : n ≤ index := by simpa [hn] using hfresh
  rw [hn, Nat.le_antisymm hge hle]

/-- The slot of an attempt may be replaced by one that fits the state. -/
theorem set (h : q.Orderly p mode count) {index : Nat} {slot : Slot α}
    (hslot : slot.Fits p index s)
    (hstarted : s.started = q.state.started)
    (hcancelled : q.state.cancelled = true → s.cancelled = true)
    (hlast : mode.holdsUp slot = true → index ∈ s.started → s.started = .range (index + 1)) :
    Pool.Orderly p mode count ⟨q.slots.set index slot, s⟩ where
  length := by simpa using h.length
  slots k other hother := by
    by_cases hk : index = k
    · subst hk
      rw [List.getElem?_set_self'] at hother
      obtain ⟨_, -, rfl⟩ := Option.map_eq_some_iff.1 hother
      exact hslot
    · rw [List.getElem?_set_ne hk] at hother
      exact (h.slots k other hother).mono (by rw [hstarted]) hcancelled
  once := hstarted ▸ h.once
  within := hstarted ▸ h.within
  initial := hstarted ▸ h.initial
  last k other hother hholds hbegun := by
    by_cases hk : index = k
    · subst hk
      rw [List.getElem?_set_self'] at hother
      obtain ⟨_, -, rfl⟩ := Option.map_eq_some_iff.1 hother
      exact hlast hholds hbegun
    · rw [List.getElem?_set_ne hk] at hother
      change s.started = _
      rw [hstarted]
      exact h.last k other hother hholds (hstarted ▸ hbegun)

/-- An attempt that is not held up may begin. -/
theorem begin (h : q.Orderly p mode count) {index : Nat} (hwaiting : q.slots[index]? = some .waiting)
    (hcancelled : q.state.cancelled = false)
    (hclear : ∀ k (slot : Slot α), k < index → q.slots[k]? = some slot → mode.holdsUp slot = false) :
    Pool.Orderly p mode count ⟨q.slots.set index (.running (p.start index)),
      { q.state with started := q.state.started ++ [index] }⟩ := by
  obtain ⟨hlt, -⟩ := List.getElem?_eq_some_iff.1 hwaiting
  have hfresh : index ∉ q.state.started := by
    cases h.slots index _ hwaiting
    assumption
  have hnext (hmode : mode ≠ .parallel) : q.state.started ++ [index] = .range (index + 1) := by
    rw [h.started_eq_range hmode hlt hfresh hcancelled hclear, List.range_succ]
  constructor
  case length => simpa using h.length
  case slots =>
    intro k slot hslot
    by_cases hk : index = k
    · subst hk
      rw [List.getElem?_set_self hlt] at hslot
      cases hslot
      exact .running (by simp) .start
    · rw [List.getElem?_set_ne hk] at hslot
      exact (h.slots k slot hslot).mono (by simp [Ne.symm hk]) id
  case once =>
    refine List.nodup_append.2 ⟨h.once, by simp, fun k hk j hj heq => hfresh ?_⟩
    rwa [← List.mem_singleton.1 hj, ← heq]
  case within =>
    intro k hk
    rcases List.mem_append.1 hk with hk | hk
    · exact h.within k hk
    · rw [List.mem_singleton.1 hk]
      exact h.length ▸ hlt
  case initial => exact fun hmode => ⟨index + 1, hnext hmode⟩
  case last =>
    intro k slot hslot hholds hbegun
    have hmode : mode ≠ .parallel := by
      rintro rfl
      cases hholds
    by_cases hk : index = k
    · exact hk ▸ hnext hmode
    · rw [List.getElem?_set_ne hk] at hslot
      have hbegun : k ∈ q.state.started := by simpa [Ne.symm hk] using hbegun
      -- the attempt would be the last one before this one, which nothing holds up
      have hrange := h.last k slot hslot hholds hbegun
      rw [h.started_eq_range hmode hlt hfresh hcancelled hclear] at hrange
      have hindex : index = k + 1 := by simpa using congrArg List.length hrange
      cases hholds.symm.trans (hclear k slot (by omega) hslot)

theorem step (h : q.Orderly p mode count) {index : Nat} {slot : Slot α}
    (hslot : q.slots[index]? = some slot)
    (hclear : ∀ k (slot : Slot α), k < index → q.slots[k]? = some slot → mode.holdsUp slot = false) :
    Pool.Orderly p mode count
      ⟨q.slots.set index (p.advance index slot q.state).1, (p.advance index slot q.state).2⟩ := by
  have hfits := h.slots index slot hslot
  cases slot with
  | waiting =>
    cases hcancelled : q.state.cancelled with
    | true =>
      simp only [Stepwise.advance, hcancelled, if_true]
      refine h.set ?_ rfl id fun hholds => by cases mode <;> cases hholds
      cases hfits with
      | waiting fresh => exact .refused fresh hcancelled
    | false =>
      simp only [Stepwise.advance, hcancelled, Bool.false_eq_true, if_false]
      simpa [hcancelled] using h.begin hslot hcancelled hclear
  | running a =>
    obtain ⟨begun, attains⟩ : index ∈ q.state.started ∧ p.Attains index a := by
      cases hfits
      exact ⟨‹_›, ‹_›⟩
    have hgoes {a' : α} (heq : (p.step index a q.state.cancelled q.state.world).1 = .inl a') :
        p.Attains index a' := attains.step heq
    have hgives {ending : Ending} (heq : (p.step index a q.state.cancelled q.state.world).1 =
        .inr ending) : p.Gives index ending := ⟨a, _, _, attains, heq⟩
    have hlast (hmode : mode ≠ .parallel) : q.state.started = .range (index + 1) :=
      h.last index _ hslot (by cases mode <;> first | rfl | exact absurd rfl hmode) begun
    have hflag (cancels : Bool) : q.state.cancelled = true → (q.state.cancelled || cancels) = true :=
      fun hcancelled => by simp [hcancelled]
    simp only [Stepwise.advance]
    generalize p.step index a q.state.cancelled q.state.world = x at *
    have hmode {slot : Slot α} (hholds : mode.holdsUp slot = true) : mode ≠ .parallel := by
      rintro rfl
      cases hholds
    rcases x with ⟨a' | ending, cancels, world⟩
    · exact h.set (.running begun (hgoes rfl)) rfl (hflag cancels) fun hholds _ => hlast (hmode hholds)
    · exact h.set (.ended begun (hgives rfl)) rfl (hflag cancels) fun hholds _ => hlast (hmode hholds)
  | ended outcome =>
    exact h.set hfits rfl id (h.last index _ hslot)

theorem happen (h : q.Orderly p mode count) (x : Happening σ) :
    (p.happen mode q x).Orderly p mode count := by
  cases x with
  | cancel =>
    exact ⟨h.length, fun index slot hslot => (h.slots index slot hslot).mono .rfl fun _ => rfl, h.once,
      h.within, h.initial, h.last⟩
  | move m =>
    cases m with
    | drift f =>
      exact ⟨h.length, fun index slot hslot => (h.slots index slot hslot).mono .rfl id, h.once,
        h.within, h.initial, h.last⟩
    | step index =>
      rw [Stepwise.happen]
      split
      · exact h
      · next hfree =>
        cases hslot : q.slots[index]? with
        | none => simpa [Stepwise.move, hslot] using h
        | some slot =>
          simp only [Stepwise.move, hslot]
          refine h.step hslot fun k other hk hother => Bool.eq_false_iff.2 fun hholds => hfree ?_
          refine List.any_eq_true.2 ⟨other, List.mem_of_getElem? (i := k) ?_, hholds⟩
          rw [List.getElem?_take_of_lt hk, hother]

theorem occur (h : q.Orderly p mode count) (happenings : List (Happening σ)) :
    (p.occur mode q happenings).Orderly p mode count := by
  induction happenings generalizing q with
  | nil => exact h
  | cons x happenings ih => exact ih (h.happen x)

end Pool.Orderly

/-! ## Outcomes -/

/-- Every outcome counts once. -/
theorem counts_eq_length (mode : Mode) (outcomes : List Outcome) :
    (Summary.mk mode outcomes).succeeded + (Summary.mk mode outcomes).count .exhausted +
      (Summary.mk mode outcomes).count .skipped + (Summary.mk mode outcomes).count .cancelled +
      (Summary.mk mode outcomes).faulted + (Summary.mk mode outcomes).notStarted = outcomes.length := by
  simp only [Summary.succeeded, Summary.count, Summary.faulted, Summary.notStarted]
  induction outcomes with
  | nil => rfl
  | cons outcome outcomes ih =>
    have hone : ∀ n : Nat, n = outcomes.length → n + 1 = (outcome :: outcomes).length := by
      simp
    refine (?_ : _ = _ + 1).trans (hone _ ih)
    simp only [List.countP_cons]
    cases outcome with
    | notStarted => simp [Outcome.passed, Outcome.hasStatus, Outcome.isFault]; omega
    | faulted => simp [Outcome.passed, Outcome.hasStatus, Outcome.isFault]; omega
    | finished r =>
      cases hr : r.status <;>
        simp [Outcome.passed, Outcome.hasStatus, Outcome.isFault, Result.passed, hr] <;> omega

theorem Pool.Rests.slot (h : q.Rests mode outcomes) {index : Nat} {outcome : Outcome}
    (hindex : outcomes[index]? = some outcome) :
    ∃ slot, q.slots[index]? = some slot ∧ slot.outcome? = some outcome := by
  have hmap := congrArg (·[index]?) h.outcomes
  simp only [List.getElem?_map, hindex, Option.map_some] at hmap
  exact Option.map_eq_some_iff.1 hmap

theorem Pool.Rests.outcome (h : q.Rests mode outcomes) {index : Nat} {slot : Slot α}
    (hslot : q.slots[index]? = some slot) :
    ∃ outcome, outcomes[index]? = some outcome ∧ slot.outcome? = some outcome := by
  have hmap := congrArg (·[index]?) h.outcomes
  simp only [List.getElem?_map, hslot, Option.map_some] at hmap
  obtain ⟨outcome, houtcome, heq⟩ := Option.map_eq_some_iff.1 hmap.symm
  exact ⟨outcome, houtcome, heq.symm⟩

/-- Behind an attempt that waits stands the end of the run: it stops at a success. -/
theorem Pool.Rests.exists_passed (h : q.Rests mode outcomes) {index : Nat}
    (hwaiting : q.slots[index]? = some .waiting) : mode = .stopAtSuccess ∧
      ∃ k < index, ∃ outcome, outcomes[k]? = some outcome ∧ outcome.passed = true := by
  induction index using Nat.strongRecOn with
  | ind index ih =>
    obtain ⟨slot, hmem, hholds⟩ := List.any_eq_true.1 (h.waiting index hwaiting)
    obtain ⟨k, hk⟩ := List.mem_iff_getElem?.1 hmem
    obtain ⟨hlt, hslot⟩ : k < index ∧ q.slots[k]? = some slot := by
      simpa [List.getElem?_take] using hk
    obtain ⟨outcome, houtcome, heq⟩ := h.outcome hslot
    cases slot with
    | waiting =>
      obtain ⟨hmode, j, hj, hpassed⟩ := ih k hlt hslot
      exact ⟨hmode, j, Nat.lt_trans hj hlt, hpassed⟩
    | running => cases heq
    | ended =>
      cases heq
      cases mode with
      | stopAtSuccess => exact ⟨rfl, k, hlt, outcome, houtcome, hholds⟩
      | parallel | exhaustive => cases hholds

theorem Pool.Orderly.tallied (h : q.Orderly p mode count) (hrests : q.Rests mode outcomes) :
    p.Tallied mode count outcomes q.state where
  length := by
    rw [← h.length]
    simpa using (congrArg List.length hrests.outcomes).symm
  own index outcome hindex hne := by
    obtain ⟨slot, hslot, heq⟩ := hrests.slot hindex
    cases h.slots index slot hslot with
    | waiting | refused => exact absurd (Option.some.inj heq).symm hne
    | running => cases heq
    | @ended ending _ gives => exact ⟨ending, gives, (Option.some.inj heq).symm⟩
  once := h.once
  started index := by
    constructor
    · intro hbegun
      have hlt : index < q.slots.length := h.length ▸ h.within index hbegun
      obtain ⟨outcome, houtcome, heq⟩ := hrests.outcome (List.getElem?_eq_getElem hlt)
      refine ⟨outcome, houtcome, ?_⟩
      have hfits := h.slots index _ (List.getElem?_eq_getElem hlt)
      generalize q.slots[index] = slot at hfits heq
      cases hfits with
      | waiting fresh | refused fresh => exact absurd hbegun fresh
      | running => cases heq
      | @ended ending => exact Option.some.inj heq ▸ ofEnding_ne_notStarted ending
    · rintro ⟨outcome, houtcome, hne⟩
      obtain ⟨slot, hslot, heq⟩ := hrests.slot houtcome
      cases h.slots index slot hslot with
      | waiting | refused => exact absurd (Option.some.inj heq).symm hne
      | running begun | ended begun => exact begun
  initial := h.initial
  passed hmode index outcome hindex hpassed := by
    obtain ⟨slot, hslot, heq⟩ := hrests.slot hindex
    have hfits := h.slots index slot hslot
    cases slot with
    | waiting =>
      cases heq
      cases hpassed
    | running => cases heq
    | ended =>
      cases heq
      refine h.last index _ hslot (by rw [hmode]; exact hpassed) ?_
      cases hfits with
      | refused => cases hpassed
      | ended begun => exact begun
  left index hindex := by
    obtain ⟨slot, hslot, heq⟩ := hrests.slot hindex
    cases h.slots index slot hslot with
    | waiting => exact .inr (hrests.exists_passed hslot)
    | running => cases heq
    | refused _ cancelled => exact .inl cancelled
    | @ended ending => exact absurd (Option.some.inj heq) (ofEnding_ne_notStarted ending)
  counts := by
    rw [counts_eq_length, ← h.length]
    simpa using (congrArg List.length hrests.outcomes).symm

/-! ## Scheduled runs -/

variable {r : Runner σ}

theorem Stepwise.occur_append (happenings happenings' : List (Happening σ)) :
    p.occur mode q (happenings ++ happenings') =
      p.occur mode (p.occur mode q happenings) happenings' :=
  List.foldl_append

theorem Stepwise.occur_parallel (moves : List (Move σ)) :
    p.occur .parallel q (moves.map .move) = p.run q moves := by
  rw [occur, run, List.foldl_map]
  congr
  funext q m
  cases m with
  | drift => rfl
  | step index => simp [happen, Mode.holdsUp]

/-- An attempt that nothing holds up takes place in two steps. -/
theorem Stepwise.occur_attempt {front : List (Slot Unit)} (hclear : front.any mode.holdsUp = false)
    (back : List (Slot Unit)) (s : State σ) :
    (ofRunner r).occur mode ⟨front ++ .waiting :: back, s⟩
        [.move (.step front.length), .move (.step front.length)] =
      ⟨front ++ .ended (attempt r front.length s).1 :: back, (attempt r front.length s).2⟩ := by
  unfold attempt
  cases hs : s.cancelled <;> simp [occur, happen, move, hclear, advance, hs, ofRunner]

/-- Attempts one after another are steps of attempts that hold each other up. -/
theorem Stepwise.exists_occur_sequential (stop : Bool) (count : Nat) (front : List (Slot Unit))
    (hclear : front.any (bif stop then Mode.stopAtSuccess else .exhaustive).holdsUp = false)
    (hover : .waiting ∉ front) (s : State σ) :
    ∃ happenings back, (ofRunner r).occur (bif stop then .stopAtSuccess else .exhaustive)
        ⟨front ++ .replicate count .waiting, s⟩ happenings =
          ⟨front ++ back, (sequential r stop front.length count s).2⟩ ∧
      back.map Slot.outcome? = (sequential r stop front.length count s).1.map some ∧
      ∀ index, (front ++ back)[index]? = some .waiting →
        ((front ++ back).take index).any
          (bif stop then Mode.stopAtSuccess else .exhaustive).holdsUp = true := by
  induction count generalizing front s with
  | zero =>
    refine ⟨[], [], rfl, rfl, fun index hindex => absurd ?_ hover⟩
    rw [List.append_nil] at hindex
    exact List.mem_of_getElem? hindex
  | succ count ih =>
    have hattempt := occur_attempt (r := r) hclear (.replicate count .waiting) s
    rw [sequential]
    generalize attempt r front.length s = x at *
    obtain ⟨outcome, s'⟩ := x
    simp only at hattempt ⊢
    cases hhalts : stop && outcome.passed with
    | true =>
      obtain ⟨rfl, hpassed⟩ : stop = true ∧ outcome.passed = true := by simpa using hhalts
      refine ⟨_, .ended outcome :: .replicate count .waiting, hattempt, by simp [Slot.outcome?],
        fun index hindex => ?_⟩
      have hbehind : front.length < index := by
        rcases Nat.lt_trichotomy index front.length with hlt | rfl | hlt
        · rw [List.getElem?_append_left hlt] at hindex
          exact absurd (List.mem_of_getElem? hindex) hover
        · simp at hindex
        · exact hlt
      refine List.any_eq_true.2 ⟨.ended outcome, ?_, hpassed⟩
      refine List.mem_of_getElem? (i := front.length) ?_
      rw [List.getElem?_take_of_lt hbehind]
      simp
    | false =>
      have hclear' : (front ++ [Slot.ended outcome]).any
          (bif stop then Mode.stopAtSuccess else .exhaustive).holdsUp = false := by
        rw [List.any_append, hclear]
        cases stop with
        | true => simpa [Mode.holdsUp] using hhalts
        | false => rfl
      obtain ⟨happenings, back, hoccur, hback, hwaiting⟩ :=
        ih (front ++ [.ended outcome]) hclear' (by simpa using hover) s'
      simp only [List.append_assoc, List.singleton_append, List.length_append,
        List.length_singleton] at hoccur hback hwaiting
      refine ⟨[.move (.step front.length), .move (.step front.length)] ++ happenings,
        .ended outcome :: back, ?_, ?_, hwaiting⟩
      · rw [List.replicate_succ, occur_append, hattempt]
        exact hoccur
      · simpa [Slot.outcome?] using hback

/-- Every scheduled run is one in which steps of attempts happen within the limits of its mode. -/
theorem exists_occur_run (mode : Mode) (count : Nat) (r : Runner σ) (s : State σ) :
    ∃ happenings, ((Stepwise.ofRunner r).occur mode (.start count s) happenings).Rests mode
        (run mode count r s).1.outcomes ∧
      ((Stepwise.ofRunner r).occur mode (.start count s) happenings).state =
        (run mode count r s).2 := by
  have sequential (stop : Bool) : ∃ happenings,
      ((Stepwise.ofRunner r).occur (bif stop then .stopAtSuccess else .exhaustive) (.start count s)
        happenings).Rests (bif stop then .stopAtSuccess else .exhaustive)
          (sequential r stop 0 count s).1 ∧
      ((Stepwise.ofRunner r).occur (bif stop then .stopAtSuccess else .exhaustive) (.start count s)
        happenings).state = (sequential r stop 0 count s).2 := by
    obtain ⟨happenings, back, hoccur, hback, hwaiting⟩ :=
      Stepwise.exists_occur_sequential (r := r) stop count [] rfl List.not_mem_nil s
    refine ⟨happenings, ?_⟩
    have hoccur : (Stepwise.ofRunner r).occur _ (.start count s) happenings = ⟨back, _⟩ := hoccur
    rw [hoccur]
    exact ⟨⟨hback, hwaiting⟩, rfl⟩
  cases mode with
  | stopAtSuccess => exact sequential true
  | exhaustive => exact sequential false
  | parallel =>
    obtain ⟨moves, hmoves⟩ := Stepwise.exists_moves_parallel (Stepwise.performs_ofRunner r)
      (.refl (.range count)) s
    refine ⟨moves.map .move, ?_⟩
    rw [Stepwise.occur_parallel, hmoves]
    refine ⟨⟨by simp [Slot.outcome?, run], fun index hindex => ?_⟩, rfl⟩
    simp at hindex

/-- **The tally of a run.** Whenever a run is cancelled and however its attempts overlap, every attempt
has one outcome, those that have been started are the ones with an outcome other than `notStarted`, each
is started once, in order these are the first ones, and a run that stops at a success does so. -/
theorem run_tallied (p : Stepwise σ α) (r : Runner σ) (mode : Mode) (count : Nat) (world : σ)
    (cancelled : Bool) :
    (∀ happenings outcomes,
      (p.occur mode (.start count ⟨world, cancelled, []⟩) happenings).Rests mode outcomes →
        p.Tallied mode count outcomes
          (p.occur mode (.start count ⟨world, cancelled, []⟩) happenings).state) ∧
      (Stepwise.ofRunner r).Tallied mode count (run mode count r ⟨world, cancelled, []⟩).1.outcomes
        (run mode count r ⟨world, cancelled, []⟩).2 := by
  refine ⟨fun happenings _ => ((Pool.orderly_start world cancelled).occur happenings).tallied, ?_⟩
  obtain ⟨happenings, hrests, hstate⟩ :=
    exists_occur_run mode count r ⟨world, cancelled, []⟩
  rw [← hstate]
  exact ((Pool.orderly_start world cancelled).occur happenings).tallied hrests

namespace Trio

/-- The run is cancelled while the first attempt is under way. -/
def interrupted : List (Happening Nat) :=
  [.move (.step 0), .move (.step 1), .cancel, .move (.step 0), .move (.step 0), .move (.step 1),
    .move (.step 2)]

/-- The first attempt breaks down all the same, the other two never start. -/
theorem run_tallied_interrupted :
    (steps.occur .exhaustive (.start 3 ⟨0, false, []⟩) interrupted).Rests .exhaustive
      [.faulted "no space left", .notStarted, .notStarted] ∧
    steps.Tallied .exhaustive 3 [.faulted "no space left", .notStarted, .notStarted]
      (steps.occur .exhaustive (.start 3 ⟨0, false, []⟩) interrupted).state := by
  have hrests : (steps.occur .exhaustive (.start 3 ⟨0, false, []⟩) interrupted).Rests .exhaustive
      [.faulted "no space left", .notStarted, .notStarted] := by
    refine ⟨rfl, fun index hindex => ?_⟩
    match index with
    | 0 | 1 | 2 | _ + 3 => cases hindex
  exact ⟨hrests, (run_tallied steps runner .exhaustive 3 0 false).1 interrupted _ hrests⟩

end Trio

end Schedule

end Testwright
