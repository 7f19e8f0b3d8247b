import Testwright.Attempt.Rounds

/-!
# Watching an attempt

The log of a session tells which calls an attempt made, not what came of them. `Team.watched` is a
team that behaves like a given one and writes down every call with its reply, so `Team.exchanges` lists
what passes between a team and an attempt.

To keep a record changes no run: a team that behaves like another one on what `f` tells of its state
(`Team.Mirrors`) runs like it as well (`Mirrors.run`).
-/

namespace Testwright

variable {σ τ ε α : Type}

/-! ## The loop -/

namespace Team

section
variable {team : Team σ} {started : Nat} {d : Dossier} {s : Session σ} {remaining : Nat}

def afterFailure (team : Team σ) (started : Nat) :
    Nat → Dossier → Session σ → Ending × Session σ
  | 0, d, s => team.exhaust started d s
  | remaining + 1, d, s =>
    let (d, s) := team.enrichFromFailure { d with round := d.round + 1 } s
    team.rounds started remaining d s

/-- What follows a round, by its outcome. -/
def afterRound (team : Team σ) (started remaining : Nat) :
    RoundOutcome × Dossier × Session σ → Ending × Session σ
  | (.passed, d, s) => team.succeed started d s
  | (.cancelled, d, s) => team.cancel started d s
  | (.error e, _, s) => (.failed e, s)
  | (.crashed message, _, s) => (.crashed message, s)
  | (.failed diagnostics, d, s) => team.afterFailure started remaining (d.fail diagnostics) s

theorem rounds_of_cancelled (h : s.cancelled = true) :
    team.rounds started remaining d s = team.cancel started d s := by
  cases remaining <;> simp [rounds, h]

theorem rounds_of_running (h : s.cancelled = false) :
    team.rounds started remaining d s = team.afterRound started remaining (team.round d s) := by
  unfold rounds
  simp only [h, Bool.false_eq_true, if_false]
  match team.round d s with
  | (.passed, _, _) | (.cancelled, _, _) | (.error _, _, _) | (.crashed _, _, _) => rfl
  | (.failed _, _, _) => cases remaining <;> rfl

theorem run_of_cancelled (h : s.cancelled = true) :
    team.run d s = team.cancel (team.clock s.world) d s := by
  simp [run, h]

theorem run_of_refused (h : s.cancelled = false) {reason : Rejection}
    (hgate : team.policy.judge d = .refused reason) :
    team.run d s = (.done .skipped,
      team.keep (.skipped d reason.message (team.now s.world)) s) := by
  simp [run, h, hgate]

theorem run_of_admitted (h : s.cancelled = false) {score : Nat}
    (hgate : team.policy.judge d = .admitted score) :
    team.run d s =
      team.rounds (team.clock s.world) team.maxRounds { d with round := 0 } s := by
  simp [run, h, hgate]

end

end Team

/-! ## Teams that behave alike -/

/-- A call is another one, up to what `f` leaves out of the state. -/
def Call.Mirrors (f : τ → σ) (c' : Call τ ε α) (c : Call σ ε α) : Prop :=
  ∀ cancelled t, Prod.map id (Prod.map id f) (c' cancelled t) = c cancelled (f t)

/-- A session of which less of the state is told. -/
def Session.map (f : τ → σ) (t : Session τ) : Session σ := ⟨f t.world, t.cancelled, t.log⟩

theorem Call.Mirrors.call {f : τ → σ} {c' : Call τ ε α} {c : Call σ ε α} (h : c'.Mirrors f c)
    (event : Event) (t : Session τ) :
    Prod.map id (Session.map f) (t.call event c') = (t.map f).call event c := by
  have hcall : Prod.map id (Prod.map id f) (c' t.cancelled t.world) =
      c (t.map f).cancelled (t.map f).world := h t.cancelled t.world
  rw [Session.call, Session.call, ← hcall]
  rfl

namespace Team

/-- A team behaves like another one, up to what `f` leaves out of the state. -/
structure Mirrors (f : τ → σ) (team' : Team τ) (team : Team σ) : Prop where
  generate : ∀ d, (team'.author.generate d).Mirrors f (team.author.generate d)
  repair : ∀ d diagnostics,
    (team'.author.repair d diagnostics).Mirrors f (team.author.repair d diagnostics)
  judge : ∀ test, (team'.judge test).Mirrors f (team.judge test)
  archive : ∀ r t, Prod.map id f (team'.archive r t) = team.archive r (f t)
  meter : Option.Rel (fun m' m => (∀ request, (m'.1 request).Mirrors f (m.1 request)) ∧ m'.2 = m.2)
    team'.meter team.meter
  enrich : Option.Rel (fun e' e => ∀ names d t, Prod.map id f (e' names (d, t)) = e names (d, f t))
    team'.enrich team.enrich
  policy : team'.policy = team.policy
  maxRounds : team'.maxRounds = team.maxRounds
  clock : ∀ t, team'.clock t = team.clock (f t)
  now : ∀ t, team'.now t = team.now (f t)

namespace Mirrors

variable {f : τ → σ} {team' : Team τ} {team : Team σ}

theorem produce (h : Mirrors f team' team) (d : Dossier) (t : Session τ) :
    Prod.map id (Session.map f) (team'.produce d t) = team.produce d (t.map f) := by
  unfold Team.produce
  split
  · exact (h.generate d).call _ t
  · exact (h.repair d _).call _ t

theorem round (h : Mirrors f team' team) (d : Dossier) (t : Session τ) :
    Prod.map id (Prod.map id (Session.map f)) (team'.round d t) = team.round d (t.map f) := by
  unfold Team.round
  rw [← h.produce]
  match team'.produce d t with
  | (.failed (.noTest _), _) | (.failed .cancelled, _) | (.failed (.request _), _)
  | (.crashed _, _) => rfl
  | (.done test, t) =>
    have hjudge := (h.judge test).call (.judge test) t
    simp only [Prod.map, id] at hjudge ⊢
    rw [← hjudge]

theorem keep (h : Mirrors f team' team) (r : Report) (t : Session τ) :
    (team'.keep r t).map f = team.keep r (t.map f) := by
  have harchive : Prod.map id f (team'.archive r t.world) = team.archive r (t.map f).world :=
    h.archive r t.world
  rw [Team.keep, Team.keep, ← harchive]
  rfl

theorem measure (h : Mirrors f team' team) (d : Dossier) (t : Session τ) :
    Prod.map id (Session.map f) (team'.measure d t) = team.measure d (t.map f) := by
  have hmeter := h.meter
  unfold Team.measure
  generalize team'.meter = meter', team.meter = meter at hmeter ⊢
  cases hmeter with
  | none => rfl
  | @some m' m hm =>
    obtain ⟨meter', paths'⟩ := m'
    obtain ⟨meter, paths⟩ := m
    obtain ⟨hmeter, rfl⟩ := hm
    cases d.unitTest with
    | none => rfl
    | some test =>
      simp only
      rw [← (hmeter _).call]
      match t.call _ (meter' _) with
      | (.done _, _) | (.failed _, _) | (.crashed _, _) => rfl

theorem succeed (h : Mirrors f team' team) (started : Nat) (d : Dossier) (t : Session τ) :
    Prod.map id (Session.map f) (team'.succeed started d t) = team.succeed started d (t.map f) := by
  unfold Team.succeed
  rw [← h.measure]
  match team'.measure d t with
  | (.error _, _) => rfl
  | (.ok coverage, t) =>
    simp only [Prod.map, id, h.keep, h.clock, h.now]
    rfl

theorem exhaust (h : Mirrors f team' team) (started : Nat) (d : Dossier) (t : Session τ) :
    Prod.map id (Session.map f) (team'.exhaust started d t) = team.exhaust started d (t.map f) := by
  simp only [Team.exhaust, Prod.map, id, h.keep, h.clock, h.now]
  rfl

theorem cancel (h : Mirrors f team' team) (started : Nat) (d : Dossier) (t : Session τ) :
    Prod.map id (Session.map f) (team'.cancel started d t) = team.cancel started d (t.map f) := by
  simp only [Team.cancel, Prod.map, id, h.clock]
  rfl

theorem enrichFromFailure (h : Mirrors f team' team) (d : Dossier) (t : Session τ) :
    Prod.map id (Session.map f) (team'.enrichFromFailure d t) =
      team.enrichFromFailure d (t.map f) := by
  have henrich := h.enrich
  unfold Team.enrichFromFailure
  generalize team'.enrich = enrich', team.enrich = enrich at henrich ⊢
  cases henrich with
  | none => rfl
  | @some enrich' enrich henrich =>
    cases d.lastFailure? with
    | none => rfl
    | some failure =>
      simp only
      split
      · rfl
      · have hstep := henrich (Diagnostics.classNames failure.diagnostics) d t.world
        simp only [Session.map] at hstep ⊢
        rw [← hstep]
        rfl

theorem rounds (h : Mirrors f team' team) (started remaining : Nat) (d : Dossier) (t : Session τ) :
    Prod.map id (Session.map f) (team'.rounds started remaining d t) =
      team.rounds started remaining d (t.map f) := by
  induction remaining using Nat.strongRecOn generalizing d t with
  | ind remaining ih =>
    cases hcancelled : t.cancelled with
    | true =>
      rw [rounds_of_cancelled hcancelled,
        rounds_of_cancelled (show (t.map f).cancelled = true from hcancelled)]
      exact h.cancel started d t
    | false =>
      rw [rounds_of_running hcancelled,
        rounds_of_running (show (t.map f).cancelled = false from hcancelled), ← h.round]
      match team'.round d t with
      | (.passed, d, t) => exact h.succeed started d t
      | (.cancelled, d, t) => exact h.cancel started d t
      | (.error _, _, _) | (.crashed _, _, _) => rfl
      | (.failed diagnostics, d, t) =>
        cases remaining with
        | zero => exact h.exhaust started (d.fail diagnostics) t
        | succ remaining =>
          have henrich := h.enrichFromFailure { d.fail diagnostics with round := d.round + 1 } t
          exact (ih remaining (Nat.lt_succ_self remaining) _ _).trans
            (congrArg (fun r => team.rounds started remaining r.1 r.2) henrich)

/-- Teams that behave alike run alike. -/
theorem run (h : Mirrors f team' team) (d : Dossier) (t : Session τ) :
    Prod.map id (Session.map f) (team'.run d t) = team.run d (t.map f) := by
  have hclock : team'.clock t.world = team.clock (t.map f).world := h.clock t.world
  cases hcancelled : t.cancelled with
  | true =>
    rw [run_of_cancelled hcancelled,
      run_of_cancelled (show (t.map f).cancelled = true from hcancelled), hclock]
    exact h.cancel _ d t
  | false =>
    have hrunning : (t.map f).cancelled = false := hcancelled
    cases hgate : team.policy.judge d with
    | refused reason =>
      rw [run_of_refused hcancelled (h.policy ▸ hgate), run_of_refused hrunning hgate, h.now]
      exact congrArg (Prod.mk _) (h.keep _ t)
    | admitted score =>
      rw [run_of_admitted hcancelled (h.policy ▸ hgate), run_of_admitted hrunning hgate, hclock,
        h.maxRounds]
      exact h.rounds _ _ _ t

end Mirrors

end Team

/-! ## Calls with their replies -/

/-- A call that an attempt made, with the reply where it waits for one. -/
inductive Exchange where
  | generate (d : Dossier) (reply : Reply AuthorError UnitTest)
  | repair (d : Dossier) (diagnostics : String) (reply : Reply AuthorError UnitTest)
  | judge (test : UnitTest) (reply : Reply JudgeError Verdict)
  | measure (request : CoverageRequest) (reply : Reply String Binary64)
  | enrich (names : Names)
  | report (r : Report)
  deriving DecidableEq, Repr, Inhabited

def Exchange.event : Exchange → Event
  | generate d _ => .generate d
  | repair d diagnostics _ => .repair d diagnostics
  | judge test _ => .judge test
  | measure request _ => .measure request
  | enrich names => .enrich names
  | report r => .report r

/-- A call that is written down with its reply. -/
def Call.watched (c : Call σ ε α) (x : Reply ε α → Exchange) : Call (σ × List Exchange) ε α :=
  fun cancelled t =>
    let (reply, cancels, world) := c cancelled t.1
    (reply, cancels, world, t.2 ++ [x reply])

/-- A session with what was written down so far. -/
abbrev WatchedSession (σ : Type) := Session (σ × List Exchange)

/-- Forget what was written down. -/
def Session.unwatched (t : WatchedSession σ) : Session σ := ⟨t.world.1, t.cancelled, t.log⟩

def Session.watched (s : Session σ) : WatchedSession σ := ⟨(s.world, []), s.cancelled, s.log⟩

/-- Some exchanges were written down, and the log agrees. -/
structure Session.Notes (xs : List Exchange) (t t' : WatchedSession σ) : Prop where
  world : t'.world.2 = t.world.2 ++ xs
  log : t'.log = t.log ++ xs.map Exchange.event

theorem Session.Notes.refl {t : WatchedSession σ} : Notes [] t t := ⟨by simp, by simp⟩

theorem Session.Notes.trans {xs ys : List Exchange} {t t' t'' : WatchedSession σ}
    (h : Notes xs t t') (h' : Notes ys t' t'') : Notes (xs ++ ys) t t'' :=
  ⟨by rw [h'.world, h.world, List.append_assoc],
    by rw [h'.log, h.log, List.map_append, List.append_assoc]⟩

namespace Team

/-- The team that writes down its exchanges. -/
def watched (team : Team σ) : Team (σ × List Exchange) where
  author :=
    { generate := fun d => (team.author.generate d).watched (.generate d)
      repair := fun d diagnostics =>
        (team.author.repair d diagnostics).watched (.repair d diagnostics) }
  judge test := (team.judge test).watched (.judge test)
  archive r t :=
    let (failure, world) := team.archive r t.1
    (failure, world, t.2 ++ [.report r])
  meter := team.meter.map fun m => (fun request => (m.1 request).watched (.measure request), m.2)
  enrich := team.enrich.map fun enrich names st =>
    let (d, world) := enrich names (st.1, st.2.1)
    (d, world, st.2.2 ++ [.enrich names])
  policy := team.policy
  maxRounds := team.maxRounds
  clock t := team.clock t.1
  now t := team.now t.1

theorem mirrors_watched (team : Team σ) : Mirrors Prod.fst team.watched team where
  generate _ _ _ := rfl
  repair _ _ _ _ := rfl
  judge _ _ _ := rfl
  archive _ _ := rfl
  meter := by
    change Option.Rel _ (team.meter.map _) team.meter
    cases team.meter with
    | none => exact .none
    | some m => exact .some ⟨fun _ _ _ => rfl, rfl⟩
  enrich := by
    change Option.Rel _ (team.enrich.map _) team.enrich
    cases team.enrich with
    | none => exact .none
    | some enrich => exact .some fun _ _ _ => rfl
  policy := rfl
  maxRounds := rfl
  clock _ := rfl
  now _ := rfl

/-- What passes between a team and an attempt. -/
def exchanges (team : Team σ) (d : Dossier) (s : Session σ) : List Exchange :=
  (team.watched.run d s.watched).2.world.2

variable (team : Team σ) (d : Dossier) (s : Session σ)

theorem ending_run_watched : (team.watched.run d s.watched).1 = (team.run d s).1 :=
  congrArg Prod.fst (team.mirrors_watched.run d s.watched)

theorem log_run_watched : (team.watched.run d s.watched).2.log = (team.run d s).2.log :=
  congrArg (fun r => r.2.log) (team.mirrors_watched.run d s.watched)

end Team

end Testwright
