import Testwright.Proofs.Attempt.Dependencies
import Testwright.Proofs.Attempt.Watching

/-!
# The course of an attempt

A `Round` is a dossier with what the author made of it and, for a test, what the judge said.
`Course` describes independently of the loop how rounds may follow one another and how an attempt
may end after them; `exists_course` shows that every run of a team takes such a course. What an
attempt does is then read off the courses: the calls in order, what the dossier holds at each of
them, and which courses end with success or exhausted (`run_rounds`).
-/

namespace Testwright

/-- One round: what the author replied and, for a test, what the judge replied. -/
structure Round where
  dossier : Dossier
  /-- The diagnostics handed to the author for a repair. -/
  repairs : Option String
  written : Reply AuthorError (UnitTest × Reply JudgeError Verdict)

namespace Round

def call (x : Round) (reply : Reply AuthorError UnitTest) : Exchange :=
  match x.repairs with
  | none => .generate x.dossier reply
  | some diagnostics => .repair x.dossier diagnostics reply

/-- The calls of a round: one to the author and, if it gives a test, one to the judge with it. -/
def exchanges (x : Round) : List Exchange :=
  match x.written with
  | .done (test, judged) => [x.call (.done test), .judge test judged]
  | .failed error => [x.call (.failed error)]
  | .crashed message => [x.call (.crashed message)]

/-- The diagnostics of a round that failed: those of the judge, or why the author's answer holds no
test. -/
def failure? (x : Round) : Option String :=
  match x.written with
  | .done (_, .done (.fail diagnostics)) => some diagnostics
  | .failed (.noTest reason) => some reason
  | _ => none

/-- A round fails if the judge rejects its test or there is none. -/
def Failed (x : Round) : Prop := x.failure?.isSome = true

/-- A round passes if the judge accepts its test. -/
def Passed (x : Round) : Prop := ∃ test, x.written = .done (test, .done .pass)

def outcome (x : Round) : RoundOutcome :=
  match x.written with
  | .done (_, judged) => Team.roundOutcome judged
  | .failed (.noTest reason) => .failed reason
  | .failed .cancelled => .cancelled
  | .failed (.request reason) => .error (.author (.request reason))
  | .crashed message => .crashed message

variable {x : Round}

theorem failure?_eq_some {diagnostics : String} :
    x.failure? = some diagnostics ↔ x.outcome = .failed diagnostics := by
  obtain ⟨_, _, written⟩ := x
  match written with
  | .done (_, .done .pass) | .done (_, .done (.fail _)) | .done (_, .failed .cancelled)
  | .done (_, .failed (.prepare ..)) | .done (_, .failed (.launch ..)) | .done (_, .crashed _)
  | .failed (.noTest _) | .failed .cancelled | .failed (.request _) | .crashed _ =>
    simp [failure?, outcome, Team.roundOutcome]

theorem passed_iff : x.Passed ↔ x.outcome = .passed := by
  obtain ⟨_, _, written⟩ := x
  match written with
  | .done (_, .done .pass) | .done (_, .done (.fail _)) | .done (_, .failed .cancelled)
  | .done (_, .failed (.prepare ..)) | .done (_, .failed (.launch ..)) | .done (_, .crashed _)
  | .failed (.noTest _) | .failed .cancelled | .failed (.request _) | .crashed _ =>
    simp [Passed, outcome, Team.roundOutcome]

theorem failed_iff : x.Failed ↔ ∃ diagnostics, x.outcome = .failed diagnostics := by
  simp only [Failed, Option.isSome_iff_exists, failure?_eq_some]

theorem not_passed_of_failed (h : x.Failed) : ¬x.Passed := by
  obtain ⟨diagnostics, hfail⟩ := failed_iff.1 h
  simp [passed_iff, hfail]

end Round

/-- The dossier knows the failures of some rounds, one for each and in their order. -/
structure Dossier.Remembers (d : Dossier) (past : List Round) : Prop where
  round : d.round = past.length
  numbered : d.failures.map Failure.round = List.range past.length
  diagnostics : d.failures.map (fun f => some f.diagnostics) = past.map Round.failure?

/-- A round comes after some failed ones: its dossier knows them, and what is repaired is the last
failure. -/
structure Round.Follows (x : Round) (past : List Round) : Prop where
  remembers : x.dossier.Remembers past
  repairs : x.repairs = past.getLast?.bind Round.failure?

namespace Dossier.Remembers

variable {d e : Dossier} {past : List Round} {x : Round} {diagnostics : String}

theorem of_core (h : d.Remembers past) (hcore : e.core = d.core) : e.Remembers past := by
  have hround : e.core.round = d.core.round := congrArg Dossier.round hcore
  have hfailures : e.core.failures = d.core.failures := congrArg Dossier.failures hcore
  exact ⟨hround ▸ h.round, hfailures ▸ h.numbered, hfailures ▸ h.diagnostics⟩

theorem next (h : d.Remembers past) (hfail : x.failure? = some diagnostics) :
    { d.fail diagnostics with round := d.round + 1 : Dossier }.Remembers (past ++ [x]) where
  round := by simp [h.round]
  numbered := by simp [Dossier.fail, h.numbered, h.round, List.range_succ]
  diagnostics := by simp [Dossier.fail, h.diagnostics, hfail]

/-- What a repair is about is the failure of the last round. -/
theorem lastFailure? (h : d.Remembers past) (hround : d.round ≠ 0) :
    some ((d.lastFailure?.map Failure.diagnostics).getD "") = past.getLast?.bind Round.failure? := by
  have hpast : past ≠ [] := fun hnil => hround (by simp [h.round, hnil])
  have hfailures : d.failures ≠ [] := by
    intro hnil
    have hlength := congrArg List.length h.diagnostics
    simp only [hnil, List.map_nil, List.length_nil, List.length_map] at hlength
    exact hpast (List.eq_nil_of_length_eq_zero hlength.symm)
  have hlast := congrArg List.getLast? h.diagnostics
  rw [List.getLast?_map, List.getLast?_map, List.getLast?_eq_some_getLast hpast,
    List.getLast?_eq_some_getLast hfailures] at hlast
  simpa [Dossier.lastFailure?, List.getLast?_eq_some_getLast hpast,
    List.getLast?_eq_some_getLast hfailures] using hlast

end Dossier.Remembers

/-! ## Courses -/

namespace Exchange

/-- Whether a call is one to the author or to the judge. -/
def ofRound : Exchange → Bool
  | generate .. | repair .. | judge .. => true
  | measure .. | enrich .. | report .. => false

def meterCrash : Exchange → Bool
  | measure _ (.crashed _) => true
  | _ => false

end Exchange

theorem Round.ofRound_exchanges {x : Round} {y : Exchange} (h : y ∈ x.exchanges) :
    y.ofRound = true ∧ y.meterCrash = false := by
  have hcall (reply) : (x.call reply).ofRound = true ∧ (x.call reply).meterCrash = false := by
    unfold call
    split <;> exact ⟨rfl, rfl⟩
  unfold exchanges at h
  split at h <;> simp only [List.mem_cons, List.not_mem_nil, or_false] at h
  · rcases h with rfl | rfl
    · exact hcall _
    · exact ⟨rfl, rfl⟩
  all_goals exact h ▸ hcall _

/-- The courses an attempt with at most `n` repairs may take after some rounds: the further rounds,
all calls, and the end. -/
inductive Course (n : Nat) : List Round → List Round → List Exchange → Ending → Prop
  | cancelled {past result} (status : result.status = .cancelled) :
    Course n past [] [] (.done result)
  /-- A round neither fails nor passes. -/
  | stopped {past x ending} (follows : x.Follows past) (unfailed : ¬x.Failed)
    (unpassed : ¬x.Passed) (stop : ∀ result, ending = Reply.done result → result.status = .cancelled) :
    Course n past [x] x.exchanges ending
  | passed {past x xs result} (follows : x.Follows past) (passed : x.Passed)
    (status : result.status = .succeeded) (round : result.round = past.length)
    (after : ∀ y ∈ xs, y.ofRound = false ∧ y.meterCrash = false) :
    Course n past [x] (x.exchanges ++ xs) (.done result)
  /-- The meter breaks down over a test that passed. -/
  | unmeasured {past x request message} (follows : x.Follows past) (passed : x.Passed) :
    Course n past [x] (x.exchanges ++ [.measure request (.crashed message)]) (.crashed message)
  | exhausted {past x r result} (follows : x.Follows past) (failed : x.Failed)
    (last : past.length = n) (status : result.status = .exhausted) :
    Course n past [x] (x.exchanges ++ [.report r]) (.done result)
  | repaired {past x xs rounds ys ending} (follows : x.Follows past) (failed : x.Failed)
    (more : past.length < n) (between : ∀ y ∈ xs, y.ofRound = false ∧ y.meterCrash = false)
    (rest : Course n (past ++ [x]) rounds ys ending) :
    Course n past (x :: rounds) (x.exchanges ++ (xs ++ ys)) ending

namespace Team

variable {σ : Type}

/-- Enriching changes nothing but dependencies. -/
def KeepsCore (team : Team σ) : Prop :=
  ∀ enrich, team.enrich = some enrich → ∀ names st, (enrich names st).1.core = st.1.core

/-! ## The watched team takes a course -/

section
variable (team : Team σ) (started : Nat) (t : WatchedSession σ) {d : Dossier} {past : List Round}
  {x : Round}

theorem notes_produce (h : d.Remembers past) :
    Session.Notes [Round.call ⟨d, past.getLast?.bind Round.failure?, .crashed none⟩
      (team.watched.produce d t).1] t (team.watched.produce d t).2 := by
  unfold produce
  split
  · next hround =>
    have hpast : past = [] := List.eq_nil_of_length_eq_zero (h.round.symm.trans hround)
    subst hpast
    exact ⟨rfl, rfl⟩
  · next hround =>
    rw [← h.lastFailure? hround]
    exact ⟨rfl, rfl⟩

/-- What a watched round comes to. -/
theorem exists_round (h : d.Remembers past) : ∃ x : Round, x.Follows past ∧
    (team.watched.round d t).1 = x.outcome ∧ (team.watched.round d t).2.1.Remembers past ∧
      Session.Notes x.exchanges t (team.watched.round d t).2.2 := by
  have hnotes := notes_produce team t h
  unfold round
  generalize team.watched.produce d t = produced at *
  obtain ⟨reply, s⟩ := produced
  let repairs := past.getLast?.bind Round.failure?
  match reply with
  | .failed (.noTest reason) =>
    exact ⟨⟨d, repairs, .failed (.noTest reason)⟩, ⟨h, rfl⟩, rfl, h, hnotes⟩
  | .failed .cancelled => exact ⟨⟨d, repairs, .failed .cancelled⟩, ⟨h, rfl⟩, rfl, h, hnotes⟩
  | .failed (.request reason) =>
    exact ⟨⟨d, repairs, .failed (.request reason)⟩, ⟨h, rfl⟩, rfl, h, hnotes⟩
  | .crashed message => exact ⟨⟨d, repairs, .crashed message⟩, ⟨h, rfl⟩, rfl, h, hnotes⟩
  | .done test =>
    let judged := (s.call (.judge test) (team.watched.judge test)).1
    exact ⟨⟨d, repairs, .done (test, judged)⟩, ⟨h, rfl⟩, rfl, ⟨h.1, h.2, h.3⟩,
      hnotes.trans ⟨rfl, rfl⟩⟩

/-- Measuring calls no one but the meter, and ends in an error only if the meter breaks down. -/
theorem exists_measure (d : Dossier) : ∃ xs, Session.Notes xs t (team.watched.measure d t).2 ∧
    ((∃ coverage, (team.watched.measure d t).1 = .ok coverage ∧
        ∀ y ∈ xs, y.ofRound = false ∧ y.meterCrash = false) ∨
      ∃ request message, (team.watched.measure d t).1 = .error message ∧
        xs = [.measure request (.crashed message)]) := by
  unfold measure
  cases hmeter : team.meter with
  | none => exact ⟨[], by simpa [watched, hmeter] using .refl, .inl ⟨none, by simp [watched, hmeter]⟩⟩
  | some meter =>
    cases d.unitTest with
    | none =>
      exact ⟨[], by simpa [watched, hmeter] using .refl, .inl ⟨none, by simp [watched, hmeter]⟩⟩
    | some test =>
      let request : CoverageRequest :=
        ⟨test.source, test.className, d.className, d.methodSignature, meter.2⟩
      have hnotes : Session.Notes
          [.measure request (t.unwatched.call (.measure request) (meter.1 request)).1] t
          (t.call (.measure request) ((meter.1 request).watched (.measure request))).2 :=
        ⟨rfl, rfl⟩
      have hreply : (t.call (.measure request) ((meter.1 request).watched (.measure request))).1 =
          (t.unwatched.call (.measure request) (meter.1 request)).1 := rfl
      simp only [watched, hmeter, Option.map_some]
      rw [← hreply] at hnotes
      clear hreply
      generalize t.call (.measure request) ((meter.1 request).watched (.measure request)) = r at *
      obtain ⟨reply, s⟩ := r
      cases reply with
      | done percent =>
        exact ⟨_, hnotes, .inl ⟨_, rfl, by simp [Exchange.ofRound, Exchange.meterCrash]⟩⟩
      | failed message =>
        exact ⟨_, hnotes, .inl ⟨_, rfl, by simp [Exchange.ofRound, Exchange.meterCrash]⟩⟩
      | crashed message => exact ⟨_, hnotes, .inr ⟨request, message, rfl, rfl⟩⟩

theorem exists_course_succeed {n : Nat} (follows : x.Follows past) (passed : x.Passed)
    (h : d.Remembers past) : ∃ xs,
      Course n past [x] (x.exchanges ++ xs) (team.watched.succeed started d t).1 ∧
        Session.Notes xs t (team.watched.succeed started d t).2 := by
  obtain ⟨xs, hnotes, hmeasure⟩ := exists_measure team t d
  unfold succeed
  generalize team.watched.measure d t = measured at *
  obtain ⟨reply, s⟩ := measured
  rcases hmeasure with ⟨coverage, rfl, hxs⟩ | ⟨request, message, rfl, rfl⟩
  · refine ⟨xs ++ [_], .passed follows passed rfl h.round fun y hy => ?_, hnotes.trans ⟨rfl, rfl⟩⟩
    rcases List.mem_append.1 hy with hy | hy
    · exact hxs y hy
    · rw [List.mem_singleton.1 hy]
      exact ⟨rfl, rfl⟩
  · exact ⟨_, .unmeasured follows passed, hnotes⟩

variable {team}

/-- Enriching changes dependencies only and calls neither author nor judge. -/
theorem exists_enrichFromFailure (henrich : team.KeepsCore) (d : Dossier) : ∃ xs,
    (∀ y ∈ xs, y.ofRound = false ∧ y.meterCrash = false) ∧
      (team.watched.enrichFromFailure d t).1.core = d.core ∧
      Session.Notes xs t (team.watched.enrichFromFailure d t).2 := by
  unfold enrichFromFailure
  cases hteam : team.enrich with
  | none => exact ⟨[], by simp, by simp [watched, hteam], by simpa [watched, hteam] using .refl⟩
  | some enrich =>
    cases hlast : d.lastFailure? with
    | none =>
      exact ⟨[], by simp, by simp [watched, hteam], by simpa [watched, hteam] using .refl⟩
    | some failure =>
      simp only [watched, hteam, Option.map_some]
      generalize Diagnostics.classNames failure.diagnostics = names
      split
      · exact ⟨[], by simp, rfl, .refl⟩
      · exact ⟨[.enrich names], by simp [Exchange.ofRound, Exchange.meterCrash],
          henrich enrich hteam names (d, t.world.1), ⟨rfl, rfl⟩⟩

/-- The loop takes a course. -/
theorem exists_course_rounds (henrich : team.KeepsCore) {n : Nat} (remaining : Nat)
    (hn : past.length + remaining = n) (h : d.Remembers past) : ∃ rounds xs,
      Course n past rounds xs (team.watched.rounds started remaining d t).1 ∧
        Session.Notes xs t (team.watched.rounds started remaining d t).2 ∧
        (rounds = [] ↔ t.cancelled = true) := by
  -- not by zero and successor, as cancelling and a round come before the repairs are counted
  induction remaining using Nat.strongRecOn generalizing d t past with
  | ind remaining ih =>
    cases hcancelled : t.cancelled with
    | true =>
      rw [rounds_of_cancelled hcancelled]
      exact ⟨[], [], .cancelled rfl, .refl, by simp⟩
    | false =>
      rw [rounds_of_running hcancelled]
      obtain ⟨x, follows, houtcome, hremembers, hnotes⟩ := exists_round team t h
      generalize team.watched.round d t = r at *
      obtain ⟨outcome, e, t'⟩ := r
      simp only at houtcome hremembers hnotes
      have stopped {ending : Ending} (hround : ¬x.Failed ∧ ¬x.Passed)
          (stop : ∀ result, ending = Reply.done result → result.status = .cancelled) :
          ∃ rounds xs, Course n past rounds xs ending ∧ Session.Notes xs t t' ∧
            (rounds = [] ↔ false = true) :=
        ⟨_, _, .stopped follows hround.1 hround.2 stop, hnotes, by simp⟩
      cases outcome with
      | passed =>
        obtain ⟨xs, course, hxs⟩ := exists_course_succeed team started t' follows
          (Round.passed_iff.2 houtcome.symm) hremembers
        exact ⟨_, _, course, hnotes.trans hxs, by simp⟩
      | cancelled =>
        refine stopped (by simp [Round.failed_iff, Round.passed_iff, ← houtcome]) fun result h => ?_
        cases h
        rfl
      | error | crashed =>
        exact stopped (by simp [Round.failed_iff, Round.passed_iff, ← houtcome]) nofun
      | failed diagnostics =>
        have hfail := Round.failure?_eq_some.2 houtcome.symm
        have failed : x.Failed := Option.isSome_of_eq_some hfail
        cases remaining with
        | zero =>
          exact ⟨_, _, .exhausted follows failed hn rfl, hnotes.trans ⟨rfl, rfl⟩, by simp⟩
        | succ remaining =>
          obtain ⟨xs, between, hcore, hxs⟩ := exists_enrichFromFailure t' henrich
            { e.fail diagnostics with round := e.round + 1 }
          have hlength : (past ++ [x]).length + remaining = n := by
            rw [List.length_append, List.length_singleton]
            omega
          obtain ⟨rounds, ys, course, hys, -⟩ := ih remaining (Nat.lt_succ_self remaining)
            (team.watched.enrichFromFailure _ t').2 hlength
            ((hremembers.next hfail).of_core hcore)
          exact ⟨_, _, .repaired follows failed (by omega) between course,
            hnotes.trans (hxs.trans hys), by simp⟩

end

end Team

/-! ## What a course tells -/

/-- The first `n` rounds took place and failed. -/
def FirstFail (n : Nat) (rounds : List Round) : Prop :=
  ∀ i < n, ∃ x, rounds[i]? = some x ∧ x.Failed

theorem firstFail_zero {rounds : List Round} : FirstFail 0 rounds := by simp [FirstFail]

theorem not_firstFail_nil {n : Nat} : ¬FirstFail (n + 1) [] := by
  intro h
  simpa using h 0 (Nat.succ_pos n)

theorem firstFail_cons {n : Nat} {x : Round} {rounds : List Round} :
    FirstFail (n + 1) (x :: rounds) ↔ x.Failed ∧ FirstFail n rounds := by
  constructor
  · intro h
    refine ⟨by simpa using h 0 (Nat.succ_pos n), fun i hi => ?_⟩
    simpa using h (i + 1) (Nat.succ_lt_succ hi)
  · rintro ⟨hx, h⟩ i hi
    cases i with
    | zero => exact ⟨x, rfl, hx⟩
    | succ i => simpa using h i (Nat.lt_of_succ_lt_succ hi)

namespace Ending

def SucceededIn (ending : Ending) (r : Nat) : Prop :=
  ∃ result, ending = .done result ∧ result.status = .succeeded ∧ result.round = r

def Exhausted (ending : Ending) : Prop :=
  ∃ result, ending = .done result ∧ result.status = .exhausted

variable {result : Result} {r : Nat}

theorem succeededIn_done :
    SucceededIn (.done result) r ↔ result.status = .succeeded ∧ result.round = r := by
  simp [SucceededIn]

theorem exhausted_done : Exhausted (.done result) ↔ result.status = .exhausted := by
  simp [Exhausted]

end Ending

namespace Course

variable {n r : Nat} {past rounds : List Round} {xs : List Exchange} {ending : Ending}

theorem filter_eq (h : Course n past rounds xs ending) :
    xs.filter Exchange.ofRound = rounds.flatMap Round.exchanges := by
  have all (x : Round) : x.exchanges.filter Exchange.ofRound = x.exchanges :=
    List.filter_eq_self.2 fun _ hy => (Round.ofRound_exchanges hy).1
  have none {ys : List Exchange} (hys : ∀ y ∈ ys, y.ofRound = false ∧ y.meterCrash = false) :
      ys.filter Exchange.ofRound = [] :=
    List.filter_eq_nil_iff.2 fun y hy => by simp [(hys y hy).1]
  induction h with
  | cancelled => rfl
  | stopped => simp [all]
  | passed _ _ _ _ after => simp [all, none after]
  | unmeasured | exhausted => simp [all, Exchange.ofRound]
  | repaired _ _ _ between _ ih => simp [all, none between, ih]

theorem length_le (h : Course n past rounds xs ending) (hpast : past.length ≤ n) :
    past.length + rounds.length ≤ n + 1 := by
  induction h with
  | cancelled => exact Nat.le_succ_of_le hpast
  | stopped | passed | unmeasured | exhausted => exact Nat.succ_le_succ hpast
  | repaired _ _ more _ _ ih =>
    simp only [List.length_append, List.length_cons, List.length_nil] at ih ⊢
    have := ih more
    omega

theorem follows (h : Course n past rounds xs ending) {earlier later : List Round} {x : Round}
    (hx : rounds = earlier ++ x :: later) : x.Follows (past ++ earlier) := by
  induction h generalizing earlier with
  | cancelled => simp at hx
  | stopped follows | passed follows | unmeasured follows | exhausted follows =>
    obtain ⟨rfl, rfl, rfl⟩ : earlier = [] ∧ _ := by simpa [List.singleton_eq_append_iff] using hx
    simpa using follows
  | repaired follows _ _ _ _ ih =>
    cases earlier with
    | nil =>
      cases hx
      simpa using follows
    | cons y earlier =>
      cases hx
      simpa using ih rfl

/-- The round of a success is one of the further rounds. -/
theorem le_of_succeededIn (h : Course n past rounds xs ending)
    (hend : Ending.SucceededIn ending r) : past.length ≤ r := by
  induction h with
  | cancelled status | exhausted _ _ _ status => simp [Ending.succeededIn_done, status] at hend
  | stopped _ _ _ stop =>
    obtain ⟨result, heq, hstatus, -⟩ := hend
    simp [stop result heq] at hstatus
  | passed _ _ _ round => exact Nat.le_of_eq (round.symm.trans (Ending.succeededIn_done.1 hend).2)
  | unmeasured => simp [Ending.SucceededIn] at hend
  | repaired _ _ _ _ _ ih =>
    have hlength := ih hend
    rw [List.length_append, List.length_singleton] at hlength
    omega

/-- A course ends with success in a round if and only if that round passes after failed ones and
the meter does not break down. -/
theorem succeededIn_iff (h : Course n past rounds xs ending) :
    Ending.SucceededIn ending (past.length + r) ↔
      FirstFail r rounds ∧ (∃ x, rounds[r]? = some x ∧ x.Passed) ∧
        ∀ y ∈ xs, y.meterCrash = false := by
  have quiet (x : Round) : ∀ y ∈ x.exchanges, y.meterCrash = false :=
    fun _ hy => (Round.ofRound_exchanges hy).2
  induction h generalizing r with
  | cancelled status => simp [Ending.succeededIn_done, status]
  | stopped _ _ unpassed stop =>
    constructor
    · rintro ⟨result, heq, hstatus, -⟩
      simp [stop result heq] at hstatus
    · rintro ⟨-, ⟨x, hx, hpassed⟩, -⟩
      cases r with
      | zero => exact absurd (Option.some.inj hx ▸ hpassed) unpassed
      | succ r => simp at hx
  | passed _ passed status round after =>
    rw [Ending.succeededIn_done]
    cases r with
    | zero =>
      have := fun y hy => (after y hy).2
      simpa [status, round, firstFail_zero, passed, or_imp, forall_and] using ⟨quiet _, this⟩
    | succ r => simp [status, round]
  | unmeasured => simp [Ending.SucceededIn, Exchange.meterCrash]
  | exhausted _ failed _ status =>
    cases r with
    | zero => simp [Ending.succeededIn_done, status, Round.not_passed_of_failed failed]
    | succ r => simp [Ending.succeededIn_done, status]
  | @repaired past x xs rounds ys ending _ failed _ between rest ih =>
    cases r with
    | zero =>
      constructor
      · intro hend
        have hlength := rest.le_of_succeededIn hend
        rw [List.length_append, List.length_singleton] at hlength
        omega
      · rintro ⟨-, ⟨_, hx, hpassed⟩, -⟩
        exact absurd (Option.some.inj hx ▸ hpassed) (Round.not_passed_of_failed failed)
    | succ r =>
      have hcalls : (∀ y ∈ x.exchanges ++ (xs ++ ys), y.meterCrash = false) ↔
          ∀ y ∈ ys, y.meterCrash = false := by
        simp only [List.mem_append, or_imp, forall_and]
        exact ⟨fun h => h.2.2, fun h => ⟨quiet x, fun y hy => (between y hy).2, h⟩⟩
      have := ih (r := r)
      rw [List.length_append, List.length_singleton, Nat.add_right_comm] at this
      rw [hcalls, firstFail_cons, List.getElem?_cons_succ]
      simpa [failed, Nat.add_assoc] using this

/-- A course ends exhausted if and only if all rounds fail. -/
theorem exhausted_iff (h : Course n past rounds xs ending) (hpast : past.length ≤ n) :
    Ending.Exhausted ending ↔ FirstFail (n - past.length + 1) rounds := by
  induction h with
  | cancelled status => simp [Ending.exhausted_done, status, not_firstFail_nil]
  | stopped _ unfailed _ stop =>
    rw [firstFail_cons]
    refine ⟨fun ⟨result, heq, hstatus⟩ => ?_, fun h => absurd h.1 unfailed⟩
    simp [stop result heq] at hstatus
  | passed _ passed status =>
    have unfailed := mt Round.not_passed_of_failed (not_not_intro passed)
    simp [Ending.exhausted_done, status, firstFail_cons, unfailed]
  | unmeasured _ passed =>
    have unfailed := mt Round.not_passed_of_failed (not_not_intro passed)
    simp [Ending.Exhausted, firstFail_cons, unfailed]
  | exhausted _ failed last status =>
    simp [Ending.exhausted_done, status, last, firstFail_cons, failed, firstFail_zero]
  | @repaired past x _ _ _ _ _ failed more _ _ ih =>
    have hlength : (past ++ [x]).length = past.length + 1 := by simp
    rw [firstFail_cons, and_iff_right failed, ih (hlength ▸ more), hlength,
      show n - (past.length + 1) + 1 = n - past.length by omega]

end Course

/-! ## Runs -/

/-- An account of an attempt with at most `n` repairs by its rounds: what is called in them and
between them, what their dossiers hold, and how the attempt ends. -/
structure Account (n : Nat) (xs : List Exchange) (ending : Ending) (rounds : List Round) :
    Prop where
  calls : xs.filter Exchange.ofRound = rounds.flatMap Round.exchanges
  length_le : rounds.length ≤ n + 1
  follows : ∀ earlier x later, rounds = earlier ++ x :: later → x.Follows earlier
  generated : ∀ r x, rounds[r]? = some x → (x.repairs = none ↔ r = 0)
  succeeded : ∀ r, Ending.SucceededIn ending r ↔
    FirstFail r rounds ∧ (∃ x, rounds[r]? = some x ∧ x.Passed) ∧ ∀ y ∈ xs, y.meterCrash = false
  exhausted : Ending.Exhausted ending ↔ FirstFail (n + 1) rounds

/-- Only a first round has nothing to repair. -/
theorem Round.Follows.repairs_eq_none_iff {x : Round} {past : List Round} (h : x.Follows past) :
    x.repairs = none ↔ past = [] := by
  rw [h.repairs]
  cases hlast : past.getLast? with
  | none => simpa using hlast
  | some y =>
    have hy : y ∈ past := List.mem_of_getLast? hlast
    have hfail : y.failure? ∈ past.map Round.failure? := List.mem_map_of_mem hy
    rw [← h.remembers.diagnostics] at hfail
    obtain ⟨f, -, hf⟩ := List.mem_map.1 hfail
    simp [← hf, List.ne_nil_of_mem hy]

theorem Course.account {n : Nat} {rounds : List Round} {xs : List Exchange} {ending : Ending}
    (h : Course n [] rounds xs ending) : Account n xs ending rounds where
  calls := h.filter_eq
  length_le := by simpa using h.length_le (Nat.zero_le n)
  follows _ _ _ hx := by simpa using h.follows hx
  generated r x hx := by
    obtain ⟨hr, rfl⟩ := List.getElem?_eq_some_iff.1 hx
    have hsplit : rounds = rounds.take r ++ rounds[r] :: rounds.drop (r + 1) := by simp
    have hfollows := h.follows hsplit
    rw [hfollows.repairs_eq_none_iff]
    simp [List.ne_nil_of_length_pos (Nat.zero_lt_of_lt hr)]
  succeeded r := by simpa using h.succeededIn_iff (r := r)
  exhausted := by simpa using h.exhausted_iff (Nat.zero_le n)

namespace Team

variable {σ : Type}

/-- Dossiers are enriched by an assembler, if at all. -/
def EnrichesBy (team : Team σ) (p : Project) (resolve : Resolve σ) : Prop :=
  ∀ enrich, team.enrich = some enrich →
    ∀ names st, enrich names st = (Assembly.enrich p resolve names st).2

theorem EnrichesBy.keepsCore {team : Team σ} {p : Project} {resolve : Resolve σ}
    (h : team.EnrichesBy p resolve) : team.KeepsCore := by
  intro enrich henrich names st
  rw [h enrich henrich]
  exact Assembly.core_enrich names st

theorem failures_assemble (p : Project) (resolve : Resolve σ) (depth : Nat) (c : ClassInfo)
    (m : MethodInfo) (attempt : Nat) (s : σ) :
    (Assembly.assemble p resolve depth c m attempt s).1.failures = [] := by
  obtain ⟨st, steps, heq⟩ := Assembly.filings_assemble p resolve depth c m attempt s
  rw [heq]
  exact congrArg Dossier.failures (Assembly.core_filings steps)

/-- **The rounds of an attempt.** A run over an assembled dossier that the gate admits goes through
rounds that account for all calls to author and judge and for the ending; it makes no call at all
only if it is cancelled from the start. -/
theorem run_account {team : Team σ} {p : Project} {resolve : Resolve σ}
    (henrich : team.EnrichesBy p resolve) {depth : Nat} {c : ClassInfo} {m : MethodInfo}
    {attempt : Nat} {w : σ} {d : Dossier}
    (hd : d = (Assembly.assemble p resolve depth c m attempt w).1) {score : Nat}
    (hgate : team.policy.judge d = .admitted score) (s : Session σ) :
    ∃ rounds, Account team.maxRounds (team.exchanges d s) (team.run d s).1 rounds ∧
      (rounds = [] ↔ s.cancelled = true) ∧
      (team.run d s).2.log = s.log ++ (team.exchanges d s).map Exchange.event := by
  cases hcancelled : s.cancelled with
  | true =>
    have hwatched : team.watched.run d s.watched =
        team.watched.cancel (team.clock s.world) d s.watched := run_of_cancelled hcancelled
    have hend := ending_run_watched team d s
    have hlog := log_run_watched team d s
    unfold exchanges
    rw [hwatched] at hend hlog ⊢
    rw [← hend, ← hlog]
    exact ⟨[], (Course.cancelled rfl).account, by simp, by simp [cancel, Session.watched]⟩
  | false =>
    have hwatched : team.watched.run d s.watched = team.watched.rounds (team.clock s.world)
        team.maxRounds { d with round := 0 } s.watched :=
      run_of_admitted hcancelled hgate
    have hremembers : { d with round := 0 : Dossier }.Remembers [] := by
      have hfailures : d.failures = [] := hd ▸ failures_assemble p resolve depth c m attempt w
      exact ⟨rfl, by simp [hfailures], by simp [hfailures]⟩
    obtain ⟨rounds, xs, course, hnotes, hempty⟩ := exists_course_rounds (team.clock s.world)
      s.watched henrich.keepsCore team.maxRounds (Nat.zero_add _) hremembers
    rw [← hwatched] at course hnotes
    rw [ending_run_watched] at course
    have hxs : team.exchanges d s = xs := hnotes.world
    have hlog := hnotes.log
    rw [log_run_watched] at hlog
    refine ⟨rounds, hxs ▸ course.account, ?_, hxs ▸ hlog⟩
    simpa [Session.watched, hcancelled] using hempty

namespace Till

/-- A method that calls a class of a library. -/
def total : MethodInfo where
  name := "total"
  signature := "total()"
  source := "int total();"
  calls := .ofList [("Tax", .ofList ["rate()"])]

def till : ClassInfo := { fullName := "Till", name := "Till", header := "interface Till" }

/-- Every class of a library has one and the same source. -/
def resolve : Resolve Nat := fun name _ calls =>
  (.found { className := name, origin := "tax.jar", source := "" }
    { source := "interface Tax \x7b \x7d".toList, kept := ∅, stubbed := 0, removed := 0 }, calls)

/-- A team whose judge counts its tests and rejects the first one. -/
def team : Team Nat where
  author :=
    { generate := fun d _ calls => (.done ⟨d.testClassName, ""⟩, false, calls)
      repair := fun d _ _ calls => (.done ⟨d.testClassName, ""⟩, false, calls) }
  judge _ _ calls := (.done (if calls = 0 then .fail "no assertion" else .pass), false, calls + 1)
  archive _ calls := (none, calls)
  enrich := some fun names st => (Assembly.enrich {} resolve names st).2
  policy := { threshold := 0 }
  maxRounds := 1
  clock _ := 0
  now _ := default

theorem enrichesBy : team.EnrichesBy {} resolve := by
  intro enrich henrich names st
  rw [← Option.some.inj henrich]

/-- The till is admitted and is not without rounds. -/
theorem account_total : ∃ rounds,
    Account 1 (team.exchanges (Assembly.assemble {} resolve 0 till total 0 0).1 ⟨0, false, []⟩)
      (team.run (Assembly.assemble {} resolve 0 till total 0 0).1 ⟨0, false, []⟩).1 rounds ∧
    rounds ≠ [] := by
  have hactive : (Assembly.assemble {} resolve 0 till total 0 0).1.activations = 1 := by
    decide
  have hgate : team.policy.judge (Assembly.assemble {} resolve 0 till total 0 0).1 =
      .admitted (team.policy.score (Assembly.assemble {} resolve 0 till total 0 0).1.methodSource) := by
    simp [GatePolicy.judge, GatePolicy.decide, hactive, show team.policy.threshold = 0 from rfl]
  obtain ⟨rounds, account, hempty, -⟩ := run_account enrichesBy rfl hgate ⟨0, false, []⟩
  exact ⟨rounds, account, by simp [hempty]⟩

end Till

end Team

end Testwright
