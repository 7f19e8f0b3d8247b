import Testwright.Attempt.Schedule

/-!
# Attempts that overlap

A `Runner` runs each attempt in one go. Attempts on threads of their own overlap: they begin in any
order, other attempts go on between two of their steps, and they end in any order. `Stepwise` gives
attempts as steps, a `Pool` keeps what has become of each of them, and `Stepwise.run` lets them
proceed in any order.

If the ending of an attempt depends on its index alone (`Stepwise.Settled`), every slot of a pool is
bound to the outcome of its index (`Slot.Sound`), so all pools in which every attempt is over have
the same outcomes (`outcomes_of_ends`). There are such pools: attempts that take place in some order,
each in one go, are one of them (`exists_moves_parallel`).
-/

namespace Testwright.Schedule

variable {σ α : Type}

/-- Attempts that proceed in steps. What an attempt has come to is a value of its own; a step makes
another one of it or ends the attempt and, like a call, may change the shared state and cancel the
run. -/
structure Stepwise (σ α : Type) where
  start : Nat → α
  step : Nat → α → Bool → σ → (α ⊕ Ending) × Bool × σ

/-- What has become of an attempt. -/
inductive Slot (α : Type) where
  | waiting
  | running (a : α)
  | ended (outcome : Outcome)

/-- Attempts by their index, and the state they share. -/
structure Pool (σ α : Type) where
  slots : List (Slot α)
  state : State σ

namespace Pool

/-- No attempt has begun. -/
def start (count : Nat) (s : State σ) : Pool σ α := ⟨.replicate count .waiting, s⟩

/-- All attempts are over, and these are the outcomes. -/
def Ends (q : Pool σ α) (outcomes : List Outcome) : Prop := q.slots = outcomes.map .ended

end Pool

/-- What happens next in a pool. -/
inductive Move (σ : Type) where
  /-- An attempt begins or takes its next step. -/
  | step (index : Nat)
  /-- Something changes that no attempt does. -/
  | drift (f : σ → σ)

namespace Stepwise

variable (p : Stepwise σ α)

/-- The next step of an attempt; one that would begin after the run was cancelled never starts. -/
def advance (index : Nat) : Slot α → State σ → Slot α × State σ
  | .waiting, s =>
    if s.cancelled then (.ended .notStarted, s)
    else (.running (p.start index), { s with started := s.started ++ [index] })
  | .running a, s =>
    match p.step index a s.cancelled s.world with
    | (.inl a, cancels, world) => (.running a, { s with world, cancelled := s.cancelled || cancels })
    | (.inr ending, cancels, world) =>
      (.ended (.ofEnding ending), { s with world, cancelled := s.cancelled || cancels })
  | .ended outcome, s => (.ended outcome, s)

def move (q : Pool σ α) : Move σ → Pool σ α
  | .step index =>
    match q.slots[index]? with
    | none => q
    | some slot =>
      let (slot, s) := p.advance index slot q.state
      ⟨q.slots.set index slot, s⟩
  | .drift f => { q with state.world := f q.state.world }

/-- Let attempts proceed in an order. -/
def run (q : Pool σ α) (moves : List (Move σ)) : Pool σ α := moves.foldl p.move q

/-- What an attempt can come to in a run that is not cancelled, whatever changes between its steps. -/
inductive Reaches (index : Nat) : α → Prop
  | start : Reaches index (p.start index)
  | step {a a' world} (before : Reaches index a)
    (goes : (p.step index a false world).1 = .inl a') : Reaches index a'

/-- The ending of an attempt depends on its index alone, and no attempt cancels the run. -/
structure Settled (reply : Nat → Ending) : Prop where
  ending : ∀ {index a world e}, p.Reaches index a → (p.step index a false world).1 = .inr e →
    e = reply index
  quiet : ∀ {index a} world, p.Reaches index a → (p.step index a false world).2.1 = false

/-- The steps of an attempt with nothing between them: from what it has come to, the flag and the
state, to its ending and what the flag and the state are then. -/
inductive Goes (index : Nat) : α → Bool → σ → Ending → Bool → σ → Prop
  | last {a cancelled world ending cancels world'}
    (step_eq : p.step index a cancelled world = (.inr ending, cancels, world')) :
    Goes index a cancelled world ending (cancelled || cancels) world'
  | more {a a' cancelled world cancels world' ending flag final}
    (step_eq : p.step index a cancelled world = (.inl a', cancels, world'))
    (rest : Goes index a' (cancelled || cancels) world' ending flag final) :
    Goes index a cancelled world ending flag final

/-- A runner runs each of the attempts in one go. -/
def Performs (r : Runner σ) : Prop := ∀ index cancelled world,
  p.Goes index (p.start index) cancelled world (r index cancelled world).1
    (cancelled || (r index cancelled world).2.1) (r index cancelled world).2.2

end Stepwise

/-! ## Every slot is bound to the outcome of its index -/

/-- The outcomes of attempts that all take place. -/
def outcomesOf (reply : Nat → Ending) (indices : List Nat) : List Outcome :=
  indices.map fun index => .ofEnding (reply index)

/-- What may become of an attempt whose ending depends on its index alone. -/
inductive Slot.Sound (p : Stepwise σ α) (reply : Nat → Ending) (index : Nat) : Slot α → Prop
  | waiting : Sound p reply index .waiting
  | running {a} (reaches : p.Reaches index a) : Sound p reply index (.running a)
  | ended : Sound p reply index (.ended (.ofEnding (reply index)))

/-- A pool of some attempts that is not cancelled and whose slots are sound. -/
structure Pool.Sound (p : Stepwise σ α) (reply : Nat → Ending) (count : Nat) (q : Pool σ α) :
    Prop where
  active : q.state.cancelled = false
  length : q.slots.length = count
  slots : ∀ index (slot : Slot α), q.slots[index]? = some slot → slot.Sound p reply index

variable {p : Stepwise σ α} {reply : Nat → Ending} {count : Nat} {q : Pool σ α} {s : State σ}

theorem Slot.Sound.advance (hp : p.Settled reply) {index : Nat} {slot : Slot α}
    (h : slot.Sound p reply index) (hs : s.cancelled = false) :
    (p.advance index slot s).1.Sound p reply index ∧ (p.advance index slot s).2.cancelled = false := by
  cases h with
  | waiting =>
    simp only [Stepwise.advance, hs, Bool.false_eq_true, if_false]
    exact ⟨.running .start, trivial⟩
  | @running a reaches =>
    have hquiet := hp.quiet s.world reaches
    have hending {e : Ending} : (p.step index a false s.world).1 = .inr e → e = reply index :=
      hp.ending reaches
    have hgoes {a' : α} : (p.step index a false s.world).1 = .inl a' → p.Reaches index a' :=
      .step reaches
    simp only [Stepwise.advance, hs]
    generalize p.step index a false s.world = x at *
    match x with
    | (.inl a', cancels, world) => exact ⟨.running (hgoes rfl), hquiet⟩
    | (.inr e, cancels, world) =>
      obtain rfl := hending rfl
      exact ⟨.ended, hquiet⟩
  | ended => exact ⟨.ended, hs⟩

theorem Pool.sound_start (hs : s.cancelled = false) :
    (Pool.start count s : Pool σ α).Sound p reply count where
  active := hs
  length := List.length_replicate
  slots index slot hslot := by
    obtain ⟨-, rfl⟩ : index < count ∧ Slot.waiting = slot := by
      simpa [Pool.start, List.getElem?_replicate] using hslot
    exact .waiting

namespace Pool.Sound

theorem move (hp : p.Settled reply) (h : q.Sound p reply count) (m : Move σ) :
    (p.move q m).Sound p reply count := by
  cases m with
  | drift f => exact ⟨h.active, h.length, h.slots⟩
  | step index =>
    cases hslot : q.slots[index]? with
    | none => simpa [Stepwise.move, hslot] using h
    | some slot =>
      obtain ⟨hsound, hactive⟩ := (h.slots index slot hslot).advance hp h.active
      simp only [Stepwise.move, hslot]
      refine ⟨hactive, by simpa using h.length, fun k other hother => ?_⟩
      by_cases hk : k = index
      · subst hk
        obtain ⟨hlt, -⟩ := List.getElem?_eq_some_iff.1 hslot
        rw [List.getElem?_set_self hlt] at hother
        exact Option.some.inj hother ▸ hsound
      · rw [List.getElem?_set_ne (Ne.symm hk)] at hother
        exact h.slots k other hother

theorem run (hp : p.Settled reply) (h : q.Sound p reply count) (moves : List (Move σ)) :
    (p.run q moves).Sound p reply count := by
  induction moves generalizing q with
  | nil => exact h
  | cons m moves ih => exact ih (h.move hp m)

/-- When all attempts are over, each has the outcome of its index. -/
theorem outcomes_of_ends (h : q.Sound p reply count) {outcomes : List Outcome}
    (hends : q.Ends outcomes) : outcomes = outcomesOf reply (.range count) := by
  have hlength : outcomes.length = count := by
    rw [← h.length, hends, List.length_map]
  refine List.ext_getElem (by simp [outcomesOf, hlength]) fun index hindex _ => ?_
  have hslot : q.slots[index]? = some (.ended outcomes[index]) := by
    rw [hends, List.getElem?_map, List.getElem?_eq_getElem hindex, Option.map_some]
  have hsound := h.slots index _ hslot
  simp only [outcomesOf, List.getElem_map, List.getElem_range]
  generalize outcomes[index] = outcome at hsound
  cases hsound
  rfl

end Pool.Sound

/-! ## Attempts in one go -/

namespace Stepwise

variable {r : Runner σ}

theorem run_append (moves moves' : List (Move σ)) :
    p.run q (moves ++ moves') = p.run (p.run q moves) moves' :=
  List.foldl_append

theorem run_step {slots : List (Slot α)} {index : Nat} {slot : Slot α}
    (hslot : slots[index]? = some slot) (s : State σ) :
    p.run ⟨slots, s⟩ [.step index] =
      ⟨slots.set index (p.advance index slot s).1, (p.advance index slot s).2⟩ := by
  simp [run, move, hslot]

/-- An attempt may take all its steps while the others wait. -/
theorem Goes.exists_moves {index : Nat} {a : α} {cancelled : Bool} {world : σ} {ending : Ending}
    {flag : Bool} {final : σ} (h : p.Goes index a cancelled world ending flag final)
    {slots : List (Slot α)} (hslot : slots[index]? = some (.running a)) (started : List Nat) :
    ∃ moves, p.run ⟨slots, ⟨world, cancelled, started⟩⟩ moves =
      ⟨slots.set index (.ended (.ofEnding ending)), ⟨final, flag, started⟩⟩ := by
  induction h generalizing slots with
  | last step_eq =>
    refine ⟨[.step index], ?_⟩
    rw [run_step hslot]
    simp [advance, step_eq]
  | @more a a' cancelled world cancels world' ending flag final step_eq rest ih =>
    obtain ⟨hlt, -⟩ := List.getElem?_eq_some_iff.1 hslot
    obtain ⟨moves, hmoves⟩ := ih (List.getElem?_set_self (a := .running a') hlt)
    refine ⟨.step index :: moves, ?_⟩
    rw [List.set_set] at hmoves
    rw [← hmoves, ← List.singleton_append, run_append, run_step hslot]
    simp [advance, step_eq]

/-- An attempt that has not begun may take place in one go while the others wait. -/
theorem Performs.exists_moves (hr : p.Performs r) {index : Nat} {slots : List (Slot α)}
    (hslot : slots[index]? = some .waiting) (s : State σ) :
    ∃ moves, p.run ⟨slots, s⟩ moves =
      ⟨slots.set index (.ended (attempt r index s).1), (attempt r index s).2⟩ := by
  unfold attempt
  cases hs : s.cancelled with
  | true => exact ⟨[.step index], by rw [run_step hslot]; simp [advance, hs]⟩
  | false =>
    obtain ⟨hlt, -⟩ := List.getElem?_eq_some_iff.1 hslot
    have hgoes := hr index s.cancelled s.world
    obtain ⟨moves, hmoves⟩ := hgoes.exists_moves
      (List.getElem?_set_self (a := .running (p.start index)) hlt) (s.started ++ [index])
    rw [List.set_set] at hmoves
    refine ⟨.step index :: moves, ?_⟩
    rw [← List.singleton_append, run_append, run_step hslot]
    simp only [advance, hs, Bool.false_eq_true, if_false]
    simpa only [hs] using hmoves

/-- Attempts that have not begun, among others with known outcomes. -/
def slotsOf (waiting : List Nat) (outcomes : List Outcome) : List (Slot α) :=
  outcomes.mapIdx fun index outcome => if index ∈ waiting then .waiting else .ended outcome

theorem slotsOf_set {index : Nat} {waiting : List Nat} (hindex : index ∉ waiting)
    (outcomes : List Outcome) (outcome : Outcome) :
    (slotsOf (index :: waiting) outcomes : List (Slot α)).set index (.ended outcome) =
      slotsOf waiting (outcomes.set index outcome) := by
  refine List.ext_getElem (by simp [slotsOf]) fun k hk _ => ?_
  by_cases hne : index = k
  · subst hne
    simp [slotsOf, hindex]
  · simp [slotsOf, List.getElem_set_ne hne, Ne.symm hne]

theorem exists_moves_inOrder (hr : p.Performs r) {order : List Nat} (hnodup : order.Nodup)
    (outcomes : List Outcome) (hlt : ∀ index ∈ order, index < outcomes.length) (s : State σ) :
    ∃ moves, p.run ⟨slotsOf order outcomes, s⟩ moves =
      ⟨(inOrder r order (outcomes, s)).1.map .ended, (inOrder r order (outcomes, s)).2⟩ := by
  induction order generalizing outcomes s with
  | nil =>
    have hslots : (slotsOf [] outcomes : List (Slot α)) = outcomes.map .ended :=
      List.ext_getElem (by simp [slotsOf]) (by simp [slotsOf])
    exact ⟨[], congrArg (Pool.mk · s) hslots⟩
  | cons index order ih =>
    rw [List.nodup_cons] at hnodup
    have hwaiting : (slotsOf (index :: order) outcomes : List (Slot α))[index]? = some .waiting := by
      simp [slotsOf, hlt index List.mem_cons_self]
    obtain ⟨moves, hmoves⟩ := hr.exists_moves hwaiting s
    obtain ⟨moves', hmoves'⟩ := ih hnodup.2 (outcomes.set index (attempt r index s).1)
      (fun k hk => by simpa using hlt k (List.mem_cons_of_mem index hk)) (attempt r index s).2
    refine ⟨moves ++ moves', ?_⟩
    rw [run_append, hmoves, slotsOf_set hnodup.1, hmoves']
    rfl

/-- Attempts that take place in some order, each in one go, are attempts in a pool. -/
theorem exists_moves_parallel (hr : p.Performs r) {order : List Nat}
    (horder : order.Perm (.range count)) (s : State σ) :
    ∃ moves, p.run (.start count s) moves =
      ⟨(parallel r order count s).1.map .ended, (parallel r order count s).2⟩ := by
  have hstart : (Pool.start count s : Pool σ α) =
      ⟨slotsOf order (.replicate count .notStarted), s⟩ := by
    refine congrArg (Pool.mk · s) (List.ext_getElem (by simp [slotsOf]) fun k hk _ => ?_)
    have hmem : k ∈ order := horder.mem_iff.2 (by simpa using hk)
    simp [slotsOf, hmem]
  rw [hstart]
  refine exists_moves_inOrder hr (horder.nodup_iff.2 List.nodup_range) _ (fun k hk => ?_) s
  simpa using horder.mem_iff.1 hk

end Stepwise

end Testwright.Schedule
