import Testwright.Proofs.Attempt.Repairs

/-!
# Interrupted attempts

A run may be cancelled during any call. An attempt looks at the flag between its rounds only, so a round
that has begun comes to its end.

`Team.noted` notes with every call whether the run was cancelled before it. A round as it is noted is a
`Stint`, what an attempt does after its last round is a `Close`, and every run that begins is a
`Passage` through rounds that fail to the last one (`exists_passage`). Which calls are late, and how an
attempt ends, is read off the passages (`run_heeds`). A run that is cancelled between two rounds counts
a round that no one is asked for (`run_round_eq_iff`).

Neither the archive nor enriching tells whether it cancels the run. A report is the last call of an
attempt, and no one looks at the flag between a verdict and the enriching after it: a flag that is raised
by enriching might as well be raised with the verdict.
-/

namespace Testwright

/-! ## Notes -/

/-- A call with its reply. It is late if the run was cancelled before it. -/
structure Note where
  exchange : Exchange
  late : Bool

/-- A state with notes, and whether the run is cancelled. -/
structure Diary (σ : Type) where
  world : σ
  cancelled : Bool
  notes : List Note

variable {σ ε α : Type}

/-- The exchanges that a diary notes. -/
def Diary.told (t : Diary σ) : σ × List Exchange := (t.world, t.notes.map Note.exchange)

def Call.noted (c : Call σ ε α) (x : Reply ε α → Exchange) : Call (Diary σ) ε α :=
  fun cancelled t =>
    let (reply, cancels, world) := c cancelled t.world
    (reply, cancels, ⟨world, cancelled || cancels, t.notes ++ [⟨x reply, cancelled⟩]⟩)

theorem Call.mirrors_noted (c : Call σ ε α) (x : Reply ε α → Exchange) :
    (c.noted x).Mirrors Diary.told (c.watched x) := by
  intro cancelled t
  simp [noted, watched, Diary.told]

/-- A session with a diary. -/
abbrev NotedSession (σ : Type) := Session (Diary σ)

def Session.noted (s : Session σ) : NotedSession σ :=
  ⟨⟨s.world, s.cancelled, []⟩, s.cancelled, s.log⟩

/-- Some notes were added, and the diary knows whether the run is cancelled. -/
structure Session.Adds (ns : List Note) (t t' : NotedSession σ) : Prop where
  notes : t'.world.notes = t.world.notes ++ ns
  cancelled : t'.world.cancelled = t'.cancelled

namespace Session.Adds

variable {ns ms : List Note} {t t' t'' : NotedSession σ}

theorem refl (h : t.world.cancelled = t.cancelled) : Adds [] t t := ⟨by simp, h⟩

theorem trans (h : Adds ns t t') (h' : Adds ms t' t'') : Adds (ns ++ ms) t t'' :=
  ⟨by rw [h'.notes, h.notes, List.append_assoc], h'.cancelled⟩

end Session.Adds

namespace Team

/-- The team that keeps a diary. -/
def noted (team : Team σ) : Team (Diary σ) where
  author :=
    { generate := fun d => (team.author.generate d).noted (.generate d)
      repair := fun d diagnostics => (team.author.repair d diagnostics).noted (.repair d diagnostics) }
  judge test := (team.judge test).noted (.judge test)
  archive r t :=
    let (failure, world) := team.archive r t.world
    (failure, { t with world, notes := t.notes ++ [⟨.report r, t.cancelled⟩] })
  meter := team.meter.map fun m => (fun request => (m.1 request).noted (.measure request), m.2)
  enrich := team.enrich.map fun enrich names st =>
    let (d, world) := enrich names (st.1, st.2.world)
    (d, { st.2 with world, notes := st.2.notes ++ [⟨.enrich names, st.2.cancelled⟩] })
  policy := team.policy
  maxRounds := team.maxRounds
  clock t := team.clock t.world
  now t := team.now t.world

theorem mirrors_noted (team : Team σ) : Mirrors Diary.told team.noted team.watched where
  generate _ := Call.mirrors_noted _ _
  repair _ _ := Call.mirrors_noted _ _
  judge _ := Call.mirrors_noted _ _
  archive _ _ := by simp [noted, watched, Diary.told]
  meter := by
    change Option.Rel _ (team.meter.map _) (team.meter.map _)
    cases team.meter with
    | none => exact .none
    | some m => exact .some ⟨fun _ => Call.mirrors_noted _ _, rfl⟩
  enrich := by
    change Option.Rel _ (team.enrich.map _) (team.enrich.map _)
    cases team.enrich with
    | none => exact .none
    | some enrich => exact .some fun _ _ _ => by simp [Diary.told]
  policy := rfl
  maxRounds := rfl
  clock _ := rfl
  now _ := rfl

/-- The calls of an attempt, each with its reply and whether it is late. -/
def notes (team : Team σ) (d : Dossier) (s : Session σ) : List Note :=
  (team.noted.run d s.noted).2.world.notes

section
variable (team : Team σ) (d : Dossier) (s : Session σ)

theorem run_noted : Prod.map id (Session.map Diary.told) (team.noted.run d s.noted) =
    team.watched.run d s.watched :=
  team.mirrors_noted.run d s.noted

theorem exchange_notes : (team.notes d s).map Note.exchange = team.exchanges d s :=
  congrArg (fun r => r.2.world.2) (run_noted team d s)

theorem ending_run_noted : (team.noted.run d s.noted).1 = (team.run d s).1 :=
  (congrArg Prod.fst (run_noted team d s)).trans (ending_run_watched team d s)

theorem cancelled_run_noted : (team.noted.run d s.noted).2.cancelled = (team.run d s).2.cancelled :=
  (congrArg (fun r => r.2.cancelled) (run_noted team d s)).trans
    (congrArg (fun r => r.2.cancelled) (team.mirrors_watched.run d s.watched))

end

end Team

/-! ## Rounds -/

namespace Exchange

/-- The dossier that a call hands to the author. -/
def asked? : Exchange → Option Dossier
  | generate d _ | repair d _ _ => some d
  | _ => none

abbrev lastAsked? : List Exchange → Option Dossier := last? asked?

/-- The author or the judge replies that the run is cancelled. -/
def withdrawn : Exchange → Bool
  | generate _ (.failed .cancelled) | repair _ _ (.failed .cancelled) | judge _ (.failed .cancelled) =>
    true
  | _ => false

@[simp] theorem asked?_judge (test : UnitTest) (reply : Reply JudgeError Verdict) :
    (judge test reply).asked? = none := rfl

theorem asked?_eq_none {y : Exchange} (h : y.ofRound = false) : y.asked? = none := by
  cases y <;> first | rfl | cases h

end Exchange

open Exchange (lastAsked? lastWritten? lastJudged?)

/-- The last round that some calls belong to failed: the author wrote no test, or the judge rejected
it. -/
def LastFailed (xs : List Exchange) : Prop :=
  (∃ reason, lastWritten? xs = some (.failed (.noTest reason))) ∨
    ∃ test diagnostics, lastWritten? xs = some (.done test) ∧ About xs test diagnostics

theorem not_lastFailed_nil : ¬LastFailed [] := by
  rintro (⟨reason, h⟩ | ⟨test, diagnostics, h, -⟩) <;> cases h

/-- The round of the last call to the author, if there is one. -/
def lastRound (xs : List Exchange) : Nat := ((lastAsked? xs).map Dossier.round).getD 0

namespace Round

variable {x : Round}

/-- The dossier after a round. A test that is written is kept. -/
def kept (x : Round) : Dossier :=
  match x.written with
  | .done (test, _) => { x.dossier with unitTest := some test }
  | _ => x.dossier

@[simp] theorem asked?_call (reply : Reply AuthorError UnitTest) :
    (x.call reply).asked? = some x.dossier := by
  unfold call
  split <;> rfl

@[simp] theorem written?_call (reply : Reply AuthorError UnitTest) :
    (x.call reply).written? = some reply := by
  unfold call
  split <;> rfl

@[simp] theorem judged?_call (reply : Reply AuthorError UnitTest) : (x.call reply).judged? = none := by
  unfold call
  split <;> rfl

theorem exists_kept (x : Round) : ∃ unitTest, x.kept = { x.dossier with unitTest } := by
  unfold kept
  split
  · exact ⟨_, rfl⟩
  · exact ⟨x.dossier.unitTest, rfl⟩

theorem judge_mem_exchanges {test : UnitTest} {reply : Reply JudgeError Verdict}
    (h : .judge test reply ∈ x.exchanges) : x.written = .done (test, reply) := by
  have hcall (reply') : Exchange.judge test reply ≠ x.call reply' := by
    intro heq
    have := congrArg Exchange.judged? heq
    simp at this
  unfold exchanges at h
  split at h
  · next hwritten =>
    rcases List.mem_cons.1 h with h | h
    · exact absurd h (hcall _)
    · cases List.mem_singleton.1 h
      exact hwritten
  all_goals exact absurd (List.mem_singleton.1 h) (hcall _)

/-- If a round is cancelled, its last call says so. -/
theorem withdrawn_of_cancelled (h : x.outcome = .cancelled) :
    ∃ y, x.exchanges.getLast? = some y ∧ y.withdrawn = true := by
  obtain ⟨d, repairs, written⟩ := x
  match written with
  | .done (_, .failed .cancelled) => exact ⟨_, rfl, rfl⟩
  | .failed .cancelled => cases repairs <;> exact ⟨_, rfl, rfl⟩

variable {xs before after : List Exchange}

theorem lastAsked?_eq (h : xs = before ++ (x.exchanges ++ after))
    (hafter : ∀ y ∈ after, y.ofRound = false) :
    lastAsked? xs = some x.dossier := by
  have hlast : lastAsked? x.exchanges = some x.dossier := by
    unfold exchanges
    split <;> simp
  simp [h, hlast, Exchange.last?_eq_none fun y hy => Exchange.asked?_eq_none (hafter y hy)]

theorem lastFailed_iff (h : xs = before ++ (x.exchanges ++ after))
    (hafter : ∀ y ∈ after, y.ofRound = false) : LastFailed xs ↔ x.Failed := by
  have hwritten : lastWritten? xs = lastWritten? (before ++ x.exchanges) := by
    simp [h, Exchange.last?_eq_none fun y hy => Exchange.written?_eq_none (hafter y hy)]
  have hjudged : lastJudged? xs = lastJudged? (before ++ x.exchanges) := by
    simp [h, Exchange.last?_eq_none fun y hy => Exchange.judged?_eq_none (hafter y hy)]
  rw [LastFailed, hwritten]
  unfold About
  rw [hjudged, Failed, failure?, exchanges]
  cases x.written with
  | done judged =>
    obtain ⟨test, reply⟩ := judged
    cases reply with
    | done verdict => cases verdict <;> simp
    | failed | crashed => simp
  | failed error => cases error <;> simp
  | crashed => simp

end Round

/-- The notes of a round that begins before the run is cancelled, and whether it is cancelled at the
end. -/
inductive Stint (x : Round) : List Note → Bool → Prop
  | unwritten {reply up} (calls : x.exchanges = [x.call reply]) : Stint x [⟨x.call reply, false⟩] up
  | judged {test reply late up} (written : x.written = .done (test, reply))
    (stays : late = true → up = true) :
    Stint x [⟨x.call (.done test), false⟩, ⟨.judge test reply, late⟩] up

/-- What is noted between two rounds. -/
def Between (up : Bool) (ms : List Note) : Prop := ms = [] ∨ ∃ names, ms = [⟨.enrich names, up⟩]

theorem Between.late_eq {up : Bool} {ms : List Note} (h : Between up ms) : ∀ y ∈ ms, y.late = up := by
  rcases h with rfl | ⟨names, rfl⟩ <;> simp

theorem Between.exchanges_eq {up : Bool} {ms : List Note} (h : Between up ms) :
    ms.map Note.exchange = [] ∨ ∃ names, ms.map Note.exchange = [.enrich names] := by
  rcases h with rfl | ⟨names, rfl⟩
  · exact .inl rfl
  · exact .inr ⟨names, rfl⟩

/-- What is noted of measuring a test. -/
inductive Measured (up : Bool) : List Note → Bool → Prop
  | unmetered : Measured up [] up
  | metered {request reply up'} (stays : up = true → up' = true) :
    Measured up [⟨.measure request reply, up⟩] up'

/-- How an attempt with at most `n` repairs ends after its last round: from whether the run is
cancelled, by some notes, to the ending and whether the run is cancelled then. -/
inductive Close (n : Nat) (x : Round) : Bool → List Note → Ending → Bool → Prop
  /-- The run is seen to be cancelled before the next round. -/
  | unrepaired {ms result} (failed : x.Failed) (more : x.dossier.round < n) (between : Between true ms)
    (status : result.status = .cancelled) (round : result.round = x.dossier.round + 1) :
    Close n x true ms (.done result) true
  | stopped {up ending} (unfailed : ¬x.Failed) (unpassed : ¬x.Passed)
    (stop : ∀ result, ending = Reply.done result →
      result.status = .cancelled ∧ result.round = x.dossier.round ∧ x.outcome = .cancelled) :
    Close n x up [] ending up
  | passed {test up up' ms result now} (written : x.written = .done (test, .done .pass))
    (status : result.status = .succeeded) (round : result.round = x.dossier.round)
    (measured : Measured up ms up') :
    Close n x up
      (ms ++ [⟨.report (.finished { x.dossier with unitTest := some test } result now), up'⟩])
      (.done result) up'
  /-- The meter breaks down over a test that passed. -/
  | unmeasured {request message up up'} (passed : x.Passed) :
    Close n x up [⟨.measure request (.crashed message), up⟩] (.crashed message) up'
  | exhausted {diagnostics up result now} (failed : x.Failed) (last : x.dossier.round = n)
    (status : result.status = .exhausted) (round : result.round = n) :
    Close n x up [⟨.report (.finished (x.kept.fail diagnostics) result now), up⟩] (.done result) up

/-- The passages of an attempt with at most `n` repairs from a round on that begins before the run is
cancelled: the notes, the ending and whether the run is cancelled then. -/
inductive Passage (n : Nat) : Nat → List Note → Ending → Bool → Prop
  | last {x up ns ms ending up'} (stint : Stint x ns up) (close : Close n x up ms ending up') :
    Passage n x.dossier.round (ns ++ ms) ending up'
  | repaired {x ns ms ys ending up'} (stint : Stint x ns false) (failed : x.Failed)
    (between : Between false ms) (rest : Passage n (x.dossier.round + 1) ys ending up') :
    Passage n x.dossier.round (ns ++ (ms ++ ys)) ending up'

/-! ## The diary of a run -/

namespace Team

section
variable (team : Team σ) (started : Nat) (t : NotedSession σ)

/-- A round that begins before the run is cancelled is noted as a stint. -/
theorem exists_stint (d : Dossier) (hrunning : t.cancelled = false) : ∃ x ns, x.dossier = d ∧
    (team.noted.round d t).1 = x.outcome ∧ (team.noted.round d t).2.1 = x.kept ∧
      Stint x ns (team.noted.round d t).2.2.cancelled ∧
      Session.Adds ns t (team.noted.round d t).2.2 := by
  obtain ⟨repairs, hcall⟩ : ∃ repairs, Session.Adds
      [⟨Round.call ⟨d, repairs, .crashed none⟩ (team.noted.produce d t).1, false⟩] t
      (team.noted.produce d t).2 := by
    unfold produce
    rw [← hrunning]
    split
    · exact ⟨none, rfl, rfl⟩
    · exact ⟨some _, rfl, rfl⟩
  unfold round
  generalize team.noted.produce d t = produced at *
  obtain ⟨reply, t'⟩ := produced
  match reply with
  | .failed (.noTest reason) =>
    exact ⟨⟨d, repairs, .failed (.noTest reason)⟩, _, rfl, rfl, rfl, .unwritten rfl, hcall⟩
  | .failed .cancelled =>
    exact ⟨⟨d, repairs, .failed .cancelled⟩, _, rfl, rfl, rfl, .unwritten rfl, hcall⟩
  | .failed (.request reason) =>
    exact ⟨⟨d, repairs, .failed (.request reason)⟩, _, rfl, rfl, rfl, .unwritten rfl, hcall⟩
  | .crashed message =>
    exact ⟨⟨d, repairs, .crashed message⟩, _, rfl, rfl, rfl, .unwritten rfl, hcall⟩
  | .done test =>
    let judged := (t'.call (.judge test) (team.noted.judge test)).1
    have stays (h : t'.cancelled = true) :
        (t'.call (.judge test) (team.noted.judge test)).2.cancelled = true := by
      simp [Session.call, h]
    exact ⟨⟨d, repairs, .done (test, judged)⟩, _, rfl, rfl, rfl, .judged rfl stays,
      hcall.trans ⟨rfl, rfl⟩⟩

variable {t} (hdiary : t.world.cancelled = t.cancelled)
include hdiary

theorem adds_keep (r : Report) :
    Session.Adds [⟨.report r, t.cancelled⟩] t (team.noted.keep r t) := by
  rw [← hdiary]
  exact ⟨rfl, hdiary⟩

theorem exists_measured (d : Dossier) : ∃ ms, Session.Adds ms t (team.noted.measure d t).2 ∧
    ((∃ coverage, (team.noted.measure d t).1 = .ok coverage ∧
        Measured t.cancelled ms (team.noted.measure d t).2.cancelled) ∨
      ∃ request message, (team.noted.measure d t).1 = .error message ∧
        ms = [⟨.measure request (.crashed message), t.cancelled⟩]) := by
  unfold measure
  cases hmeter : team.meter with
  | none =>
    simp only [noted, hmeter, Option.map_none]
    exact ⟨[], .refl hdiary, .inl ⟨none, rfl, .unmetered⟩⟩
  | some meter =>
    cases d.unitTest with
    | none =>
      simp only [noted, hmeter, Option.map_some]
      exact ⟨[], .refl hdiary, .inl ⟨none, rfl, .unmetered⟩⟩
    | some test =>
      let request : CoverageRequest :=
        ⟨test.source, test.className, d.className, d.methodSignature, meter.2⟩
      have hadds : Session.Adds [⟨.measure request
          (t.call (.measure request) ((meter.1 request).noted (.measure request))).1, t.cancelled⟩] t
          (t.call (.measure request) ((meter.1 request).noted (.measure request))).2 := ⟨rfl, rfl⟩
      have stays (h : t.cancelled = true) :
          (t.call (.measure request) ((meter.1 request).noted (.measure request))).2.cancelled = true := by
        simp [Session.call, h]
      simp only [noted, hmeter, Option.map_some]
      generalize t.call (.measure request) ((meter.1 request).noted (.measure request)) = r at *
      obtain ⟨reply, t'⟩ := r
      cases reply with
      | done percent => exact ⟨_, hadds, .inl ⟨_, rfl, .metered stays⟩⟩
      | failed message => exact ⟨_, hadds, .inl ⟨_, rfl, .metered stays⟩⟩
      | crashed message => exact ⟨_, hadds, .inr ⟨request, message, rfl, rfl⟩⟩

theorem exists_close_succeed {n : Nat} {x : Round} (passed : x.Passed) : ∃ ms,
    Close n x t.cancelled ms (team.noted.succeed started x.kept t).1
        (team.noted.succeed started x.kept t).2.cancelled ∧
      Session.Adds ms t (team.noted.succeed started x.kept t).2 := by
  obtain ⟨test, written⟩ := passed
  have hkept : x.kept = { x.dossier with unitTest := some test } := by rw [Round.kept, written]
  obtain ⟨ms, hadds, hmeasured⟩ := exists_measured team hdiary x.kept
  unfold succeed
  generalize team.noted.measure x.kept t = measured at *
  obtain ⟨reply, t'⟩ := measured
  rcases hmeasured with ⟨coverage, rfl, measured⟩ | ⟨request, message, rfl, rfl⟩
  · rw [hkept]
    exact ⟨_, .passed written rfl rfl measured, hadds.trans (adds_keep team hadds.cancelled _)⟩
  · exact ⟨_, .unmeasured ⟨test, written⟩, hadds⟩

variable {team}

/-- Enriching is noted between two rounds, changes dependencies only and does not cancel the run. -/
theorem exists_between (henrich : team.KeepsCore) (d : Dossier) : ∃ ms, Between t.cancelled ms ∧
    (team.noted.enrichFromFailure d t).1.round = d.round ∧
      (team.noted.enrichFromFailure d t).2.cancelled = t.cancelled ∧
        Session.Adds ms t (team.noted.enrichFromFailure d t).2 := by
  unfold enrichFromFailure
  cases hteam : team.enrich with
  | none =>
    exact ⟨[], .inl rfl, by simp [noted, hteam], by simp [noted, hteam],
      by simpa [noted, hteam] using .refl hdiary⟩
  | some enrich =>
    cases hlast : d.lastFailure? with
    | none =>
      exact ⟨[], .inl rfl, by simp [noted, hteam], by simp [noted, hteam],
        by simpa [noted, hteam] using .refl hdiary⟩
    | some failure =>
      simp only [noted, hteam, Option.map_some]
      generalize Diagnostics.classNames failure.diagnostics = names
      split
      · exact ⟨[], .inl rfl, rfl, rfl, .refl hdiary⟩
      · have hround := (Dossier.history_of_core (henrich enrich hteam names (d, t.world.world))).2.1
        refine ⟨[⟨.enrich names, t.cancelled⟩], .inr ⟨names, rfl⟩, hround, rfl, ⟨?_, hdiary⟩⟩
        rw [← hdiary]

omit hdiary in
/-- The loop is noted as a passage. -/
theorem exists_passage (henrich : team.KeepsCore) {n : Nat} (remaining : Nat) (d : Dossier)
    (hn : d.round + remaining = n) (hrunning : t.cancelled = false) : ∃ ns,
      Passage n d.round ns (team.noted.rounds started remaining d t).1
          (team.noted.rounds started remaining d t).2.cancelled ∧
        Session.Adds ns t (team.noted.rounds started remaining d t).2 := by
  -- as for courses, a round comes before the repairs are counted
  induction remaining using Nat.strongRecOn generalizing d t with
  | ind remaining ih =>
    rw [rounds_of_running hrunning]
    obtain ⟨x, ns, rfl, houtcome, hkept, stint, hadds⟩ := exists_stint team t d hrunning
    generalize team.noted.round x.dossier t = r at *
    obtain ⟨outcome, e, t'⟩ := r
    simp only at houtcome hkept stint hadds
    subst hkept
    have last {ms : List Note} {r : Ending × NotedSession σ}
        (h : Close n x t'.cancelled ms r.1 r.2.cancelled) (hms : Session.Adds ms t' r.2) :
        ∃ ns, Passage n x.dossier.round ns r.1 r.2.cancelled ∧ Session.Adds ns t r.2 :=
      ⟨_, .last stint h, hadds.trans hms⟩
    cases outcome with
    | passed =>
      obtain ⟨ms, close, hms⟩ := exists_close_succeed team started hadds.cancelled
        (Round.passed_iff.2 houtcome.symm)
      exact last close hms
    | cancelled =>
      obtain ⟨unitTest, hkept⟩ := x.exists_kept
      refine last (.stopped ?_ ?_ ?_) (.refl hadds.cancelled)
      · simp [Round.failed_iff, ← houtcome]
      · simp [Round.passed_iff, ← houtcome]
      · intro result h
        cases h
        exact ⟨rfl, by rw [hkept], houtcome.symm⟩
    | error | crashed =>
      refine last (.stopped ?_ ?_ nofun) (.refl hadds.cancelled)
      · simp [Round.failed_iff, ← houtcome]
      · simp [Round.passed_iff, ← houtcome]
    | failed diagnostics =>
      have failed : x.Failed := Round.failed_iff.2 ⟨diagnostics, houtcome.symm⟩
      obtain ⟨unitTest, hkept⟩ := x.exists_kept
      have hround : x.kept.round = x.dossier.round := by rw [hkept]
      cases remaining with
      | zero =>
        exact last (.exhausted failed hn rfl (hround.trans hn)) (adds_keep team hadds.cancelled _)
      | succ remaining =>
        let next : Dossier := { x.kept.fail diagnostics with round := x.kept.round + 1 }
        obtain ⟨ms, between, hnext, hstill, hms⟩ :=
          exists_between hadds.cancelled henrich next
        have hnext : (team.noted.enrichFromFailure next t').1.round = x.dossier.round + 1 :=
          hnext.trans (congrArg Nat.succ hround)
        cases hcancelled : t'.cancelled with
        | true =>
          rw [hcancelled] at between hstill
          have hend : team.noted.afterRound started (remaining + 1) (.failed diagnostics, x.kept, t') =
              team.noted.cancel started (team.noted.enrichFromFailure next t').1
                (team.noted.enrichFromFailure next t').2 :=
            rounds_of_cancelled hstill
          rw [hend]
          exact last (by
            rw [hcancelled, cancel, hstill]
            exact .unrepaired failed (by omega) between rfl hnext) hms
        | false =>
          rw [hcancelled] at between hstill stint
          have hn' : (team.noted.enrichFromFailure next t').1.round + remaining = n := by
            rw [hnext]
            omega
          obtain ⟨ys, rest, hys⟩ := ih remaining (Nat.lt_succ_self remaining) _ hn' hstill
          rw [hnext] at rest
          exact ⟨_, .repaired stint failed between rest, hadds.trans (hms.trans hys)⟩

end

end Team

/-! ## What a passage tells -/

/-- What can still be called of a round when the author has replied, in this order. -/
inductive Leftover (xs : List Exchange) : Prop
  | reported {test reply request measured r}
    (h : xs.Sublist [.judge test reply, .measure request measured, .report r])
  | enriched {test reply names} (h : xs.Sublist [.judge test reply, .enrich names])

theorem Leftover.nil : Leftover [] :=
  .enriched (List.nil_sublist [Exchange.judge default default, Exchange.enrich ∅])

theorem Leftover.asked?_eq_none {xs : List Exchange} (h : Leftover xs) {y : Exchange} (hy : y ∈ xs) :
    y.asked? = none := by
  rcases h with h | h
  · have hy := h.subset hy
    simp only [List.mem_cons, List.not_mem_nil, or_false] at hy
    rcases hy with rfl | rfl | rfl <;> rfl
  · have hy := h.subset hy
    simp only [List.mem_cons, List.not_mem_nil, or_false] at hy
    rcases hy with rfl | rfl <;> rfl

/-- The late ones of some notes come last. -/
structure Splits (ns before after : List Note) : Prop where
  eq : ns = before ++ after
  before : ∀ y ∈ before, y.late = false
  after : ∀ y ∈ after, y.late = true

namespace Splits

variable {ns ms before after before' after' : List Note}

theorem early (h : ∀ y ∈ ns, y.late = false) : Splits ns ns [] := ⟨by simp, h, by simp⟩

theorem late (h : ∀ y ∈ ns, y.late = true) : Splits ns [] ns := ⟨rfl, by simp, h⟩

theorem exists_singleton (y : Exchange) (up : Bool) : ∃ before after, Splits [⟨y, up⟩] before after ∧
    (up = true → before = []) ∧ (after.map Note.exchange).Sublist [y] := by
  cases up with
  | false => exact ⟨_, _, .early (by simp), nofun, List.nil_sublist _⟩
  | true => exact ⟨_, _, .late (by simp), fun _ => rfl, .refl _⟩

theorem append_left (h : Splits ns before []) (h' : Splits ms before' after') :
    Splits (ns ++ ms) (before ++ before') after' where
  eq := by rw [h.eq, h'.eq, List.append_nil, List.append_assoc]
  before y hy := (List.mem_append.1 hy).elim (h.before y) (h'.before y)
  after := h'.after

theorem append_right (h : Splits ns before after) (h' : Splits ms [] after') :
    Splits (ns ++ ms) before (after ++ after') where
  eq := by rw [h.eq, h'.eq, List.nil_append, List.append_assoc]
  before := h.before
  after y hy := (List.mem_append.1 hy).elim (h.after y) (h'.after y)

end Splits

theorem Stint.exchanges {x : Round} {ns : List Note} {up : Bool} (h : Stint x ns up) :
    ns.map Note.exchange = x.exchanges := by
  cases h with
  | unwritten calls => exact calls.symm
  | judged written => rw [Round.exchanges, written]; rfl

/-- Of a stint only the judge can be called late. -/
theorem Stint.splits {x : Round} {ns : List Note} {up : Bool} (h : Stint x ns up) : ∃ before after,
    Splits ns before after ∧
      (after = [] ∨ up = true ∧ ∃ test reply, after = [⟨.judge test reply, true⟩]) := by
  cases h with
  | unwritten => exact ⟨_, [], .early (by simp), .inl rfl⟩
  | @judged test reply late up written stays =>
    cases late with
    | false => exact ⟨_, [], .early (by simp), .inl rfl⟩
    | true =>
      exact ⟨[⟨x.call (.done test), false⟩], [⟨.judge test reply, true⟩], ⟨rfl, by simp, by simp⟩,
        .inr ⟨stays rfl, test, reply, rfl⟩⟩

namespace Close

variable {n : Nat} {x : Round} {up up' : Bool} {ms : List Note} {ending : Ending}

theorem ofRound (h : Close n x up ms ending up') : ∀ y ∈ ms.map Note.exchange, y.ofRound = false := by
  cases h with
  | unrepaired _ _ between =>
    rcases between.exchanges_eq with h | ⟨names, h⟩ <;> simp [h, Exchange.ofRound]
  | passed _ _ _ measured => cases measured <;> simp [Exchange.ofRound]
  | stopped | unmeasured | exhausted => simp [Exchange.ofRound]

theorem splits (h : Close n x up ms ending up') : ∃ before after, Splits ms before after ∧
    (up = true → before = []) ∧
      ((∃ request measured r,
          (after.map Note.exchange).Sublist [.measure request measured, .report r]) ∨
        ∃ names, (after.map Note.exchange).Sublist [.enrich names]) := by
  cases h with
  | unrepaired _ _ between =>
    refine ⟨_, _, .late between.late_eq, fun _ => rfl, .inr ?_⟩
    rcases between.exchanges_eq with h | ⟨names, h⟩
    · exact ⟨∅, by simp [h]⟩
    · exact ⟨names, by simp [h]⟩
  | stopped => exact ⟨_, _, .late (by simp), fun _ => rfl, .inr ⟨∅, List.nil_sublist _⟩⟩
  | @passed test _ _ _ result now _ _ _ measured =>
    let closing : Exchange := .report (.finished { x.dossier with unitTest := some test } result now)
    cases measured with
    | unmetered =>
      obtain ⟨before, after, hsplits, hbefore, hafter⟩ := Splits.exists_singleton closing up
      exact ⟨before, after, hsplits, hbefore, .inl ⟨default, default, _, hafter.cons _⟩⟩
    | @metered request reply _ stays =>
      cases up with
      | false =>
        obtain ⟨before, after, hsplits, -, hafter⟩ := Splits.exists_singleton closing up'
        exact ⟨_, after, .append_left (.early (by simp)) hsplits, nofun,
          .inl ⟨request, reply, _, hafter.cons _⟩⟩
      | true =>
        refine ⟨_, _, .late ?_, fun _ => rfl, .inl ⟨request, reply, _, .refl _⟩⟩
        simp [stays]
  | @unmeasured request message =>
    obtain ⟨before, after, hsplits, hbefore, hafter⟩ :=
      Splits.exists_singleton (.measure request (.crashed message)) up
    exact ⟨before, after, hsplits, hbefore,
      .inl ⟨request, .crashed message, default, hafter.trans (List.sublist_append_left [_] [_])⟩⟩
  | @exhausted diagnostics _ result now =>
    obtain ⟨before, after, hsplits, hbefore, hafter⟩ :=
      Splits.exists_singleton (.report (.finished (x.kept.fail diagnostics) result now)) up
    exact ⟨before, after, hsplits, hbefore, .inl ⟨default, default, _, hafter.cons _⟩⟩

end Close

/-- How an attempt with at most `n` repairs heeds that its run is cancelled. -/
structure Heeds (n : Nat) (ns : List Note) (ending : Ending) (up : Bool) : Prop where
  /-- No one is asked for a test once the run is cancelled. -/
  unasked : ∀ y ∈ ns, y.late = true → y.exchange.asked? = none
  /-- What is called once the run is cancelled was left to do of a round. -/
  leftover : ∃ before after, Splits ns before after ∧ Leftover (after.map Note.exchange)
  /-- An attempt ends as cancelled only if the run was, or the author or the judge says so. -/
  cancelled : ∀ result, ending = Reply.done result → result.status = .cancelled →
    (up = true ∨ ∃ y, (ns.map Note.exchange).getLast? = some y ∧ y.withdrawn = true) ∧
      ∀ r, .report r ∉ ns.map Note.exchange
  /-- A test that passes ends the attempt with success and a report of it, unless the meter breaks down. -/
  passed : ∀ test, .judge test (.done .pass) ∈ ns.map Note.exchange →
    (∃ d result now, lastAsked? (ns.map Note.exchange) = some d ∧ ending = .done result ∧
      result.status = .succeeded ∧ result.round = d.round ∧
      (ns.map Note.exchange).getLast? =
        some (.report (.finished { d with unitTest := some test } result now))) ∨
    ∃ request message, ending = .crashed message ∧
      (ns.map Note.exchange).getLast? = some (.measure request (.crashed message))
  /-- If the last repair fails, the attempt ends exhausted and with a report. -/
  exhausted : ∀ d, lastAsked? (ns.map Note.exchange) = some d → d.round = n →
    LastFailed (ns.map Note.exchange) → ∃ unitTest failures result now, ending = .done result ∧
      result.status = .exhausted ∧ result.round = n ∧
      (ns.map Note.exchange).getLast? =
        some (.report (.finished { d with unitTest, failures } result now))

/-- An attempt without rounds in which no call is late. -/
theorem heeds_of_quiet {n : Nat} {ns : List Note} {ending : Ending} {up : Bool}
    (hround : ∀ y ∈ ns, y.exchange.ofRound = false) (hlate : ∀ y ∈ ns, y.late = false)
    (hcancelled : ∀ result, ending = Reply.done result → result.status = .cancelled →
      up = true ∧ ns = []) : Heeds n ns ending up where
  unasked y hy _ := Exchange.asked?_eq_none (hround y hy)
  leftover := ⟨ns, [], .early hlate, .nil⟩
  cancelled result hend hstatus := by
    obtain ⟨hup, rfl⟩ := hcancelled result hend hstatus
    exact ⟨.inl hup, fun r => List.not_mem_nil⟩
  passed test hpass := by
    obtain ⟨y, hy, hpass⟩ := List.mem_map.1 hpass
    have hround := hround y hy
    rw [hpass] at hround
    cases hround
  exhausted d hd := by
    have hnone : lastAsked? (ns.map Note.exchange) = none := by
      apply Exchange.last?_eq_none
      intro x hx
      obtain ⟨y, hy, rfl⟩ := List.mem_map.1 hx
      exact Exchange.asked?_eq_none (hround y hy)
    rw [hnone] at hd
    cases hd

/-- Calls after which no other round begins. -/
def Exchange.conclusive : Exchange → Bool
  | judge _ (.done .pass) | report _ => true
  | _ => false

theorem Round.conclusive_of_failed {x : Round} (h : x.Failed) :
    ∀ y ∈ x.exchanges, y.conclusive = false := by
  intro y hy
  rw [Bool.eq_false_iff]
  intro hy'
  match y, hy' with
  | .judge test (.done .pass), _ =>
    exact not_passed_of_failed h ⟨test, judge_mem_exchanges hy⟩
  | .report r, _ => cases (ofRound_exchanges hy).1

namespace Close

variable {n : Nat} {x : Round} {up up' : Bool} {ms : List Note} {ending : Ending} {xs before : List Exchange}
  (h : Close n x up ms ending up') (hcalls : xs = before ++ (x.exchanges ++ ms.map Note.exchange))
  (hbefore : ∀ y ∈ before, y.conclusive = false)

include hcalls in
theorem getLast?_calls {y : Note} (hms : ms.getLast? = some y) : xs.getLast? = some y.exchange := by
  rw [hcalls, List.getLast?_append, List.getLast?_append, List.getLast?_map, hms]
  rfl

include hcalls hbefore in
theorem report_not_mem (hms : ∀ r, .report r ∉ ms.map Note.exchange) : ∀ r, .report r ∉ xs := by
  intro r hr
  rw [hcalls, List.mem_append, List.mem_append] at hr
  rcases hr with hr | hr | hr
  · cases hbefore _ hr
  · cases (Round.ofRound_exchanges hr).1
  · exact hms r hr

include h hcalls hbefore

/-- An attempt that ends as cancelled is not reported. -/
theorem ending_cancelled : ∀ result, ending = Reply.done result → result.status = .cancelled →
    (up' = true ∨ ∃ y, xs.getLast? = some y ∧ y.withdrawn = true) ∧ ∀ r, .report r ∉ xs := by
  intro result hend hstatus
  cases h with
  | unrepaired _ _ between =>
    refine ⟨.inl rfl, report_not_mem hcalls hbefore ?_⟩
    rcases between.exchanges_eq with h | ⟨names, h⟩ <;> simp [h]
  | stopped _ _ stop =>
    obtain ⟨y, hy, hwithdrawn⟩ := Round.withdrawn_of_cancelled (stop result hend).2.2
    refine ⟨.inr ⟨y, ?_, hwithdrawn⟩, report_not_mem hcalls hbefore (by simp)⟩
    rw [hcalls, List.map_nil, List.append_nil, List.getLast?_append, hy]
    rfl
  | passed _ status | exhausted _ _ status =>
    cases hend
    rw [status] at hstatus
    cases hstatus
  | unmeasured => cases hend

/-- A test that passes is that of the last round, and ends the attempt. -/
theorem ending_passed : ∀ test, .judge test (.done .pass) ∈ xs →
    (∃ d result now, lastAsked? xs = some d ∧ ending = .done result ∧ result.status = .succeeded ∧
      result.round = d.round ∧
      xs.getLast? = some (.report (.finished { d with unitTest := some test } result now))) ∨
    ∃ request message, ending = .crashed message ∧
      xs.getLast? = some (.measure request (.crashed message)) := by
  intro test hpass
  have hasked := Round.lastAsked?_eq hcalls h.ofRound
  have hwritten : x.written = .done (test, .done .pass) := by
    rw [hcalls, List.mem_append, List.mem_append] at hpass
    rcases hpass with hpass | hpass | hpass
    · cases hbefore _ hpass
    · exact Round.judge_mem_exchanges hpass
    · cases h.ofRound _ hpass
  have hpassed : x.Passed := ⟨test, hwritten⟩
  cases h with
  | unrepaired failed | exhausted failed =>
    exact absurd hpassed (Round.not_passed_of_failed failed)
  | stopped _ unpassed => exact absurd hpassed unpassed
  | passed written status round =>
    rw [hwritten] at written
    cases written
    exact .inl ⟨_, _, _, hasked, rfl, status, round, getLast?_calls hcalls List.getLast?_concat⟩
  | unmeasured => exact .inr ⟨_, _, rfl, getLast?_calls hcalls rfl⟩

omit hbefore in
/-- If the last repair fails, the attempt ends exhausted. -/
theorem ending_exhausted : ∀ d, lastAsked? xs = some d → d.round = n → LastFailed xs →
    ∃ unitTest failures result now, ending = .done result ∧ result.status = .exhausted ∧
      result.round = n ∧
      xs.getLast? = some (.report (.finished { d with unitTest, failures } result now)) := by
  intro d hd hround hfail
  have hasked := Round.lastAsked?_eq hcalls h.ofRound
  obtain rfl : x.dossier = d := Option.some.inj (hasked.symm.trans hd)
  have hfailed : x.Failed := (Round.lastFailed_iff hcalls h.ofRound).1 hfail
  cases h with
  | unrepaired _ more => exact absurd hround (Nat.ne_of_lt more)
  | stopped unfailed => exact absurd hfailed unfailed
  | passed written => exact absurd ⟨_, written⟩ (Round.not_passed_of_failed hfailed)
  | unmeasured passed => exact absurd passed (Round.not_passed_of_failed hfailed)
  | exhausted _ _ status round =>
    obtain ⟨unitTest, hkept⟩ := x.exists_kept
    have hlast := getLast?_calls hcalls rfl
    rw [hkept] at hlast
    exact ⟨unitTest, _, _, _, rfl, status, round, hlast⟩

end Close

namespace Passage

variable {n r : Nat} {ns : List Note} {ending : Ending} {up : Bool}

theorem splits (h : Passage n r ns ending up) :
    ∃ before after, Splits ns before after ∧ Leftover (after.map Note.exchange) := by
  induction h with
  | last stint close =>
    obtain ⟨before, after, hstint, hafter⟩ := stint.splits
    obtain ⟨before', after', hclose, hbefore', hafter'⟩ := close.splits
    rcases hafter with rfl | ⟨hup, test, reply, rfl⟩
    · refine ⟨_, _, hstint.append_left hclose, ?_⟩
      rcases hafter' with ⟨request, measured, report, hafter'⟩ | ⟨names, hafter'⟩
      · exact .reported (hafter'.cons (.judge default default))
      · exact .enriched (hafter'.cons (.judge default default))
    · obtain rfl := hbefore' hup
      refine ⟨_, _, hstint.append_right hclose, ?_⟩
      rw [List.map_append, List.map_singleton, List.singleton_append]
      rcases hafter' with ⟨request, measured, report, hafter'⟩ | ⟨names, hafter'⟩
      · exact .reported (hafter'.cons_cons (.judge test reply))
      · exact .enriched (hafter'.cons_cons (.judge test reply))
  | repaired stint _ between _ ih =>
    obtain ⟨before, after, hrest, hleftover⟩ := ih
    obtain ⟨before', after', hstint, hafter⟩ := stint.splits
    obtain rfl : after' = [] := by simpa using hafter
    exact ⟨_, after, hstint.append_left ((Splits.early between.late_eq).append_left hrest), hleftover⟩

/-- The calls of a passage end with those of the last round and what is called after it. -/
theorem exists_last (h : Passage n r ns ending up) : ∃ x up' ms before, Close n x up' ms ending up ∧
    ns.map Note.exchange = before ++ (x.exchanges ++ ms.map Note.exchange) ∧
      ∀ y ∈ before, y.conclusive = false := by
  induction h with
  | @last x up ns ms ending up' stint close =>
    exact ⟨x, up, ms, [], close, by rw [List.map_append, stint.exchanges, List.nil_append], by simp⟩
  | @repaired x ns ms ys ending up' stint failed between _ ih =>
    obtain ⟨x', up', ms', before, close, hcalls, hbefore⟩ := ih
    refine ⟨x', up', ms', x.exchanges ++ (ms.map Note.exchange ++ before), close, ?_, ?_⟩
    · rw [List.map_append, List.map_append, stint.exchanges, hcalls, List.append_assoc,
        List.append_assoc]
    · intro y hy
      rcases List.mem_append.1 hy with hy | hy
      · exact Round.conclusive_of_failed failed y hy
      rcases List.mem_append.1 hy with hy | hy
      · rcases between.exchanges_eq with h | ⟨names, h⟩ <;> rw [h] at hy
        · cases hy
        · rw [List.mem_singleton.1 hy]
          rfl
      · exact hbefore y hy

theorem unasked (h : Passage n r ns ending up) : ∀ y ∈ ns, y.late = true → y.exchange.asked? = none := by
  intro y hy hlate
  obtain ⟨early, late, hsplits, hleftover⟩ := h.splits
  rw [hsplits.eq, List.mem_append] at hy
  rcases hy with hy | hy
  · rw [hsplits.before y hy] at hlate
    cases hlate
  · exact hleftover.asked?_eq_none (List.mem_map_of_mem hy)

theorem heeds (h : Passage n r ns ending up) : Heeds n ns ending up := by
  obtain ⟨x, up', ms, before, close, hcalls, hbefore⟩ := h.exists_last
  exact ⟨h.unasked, h.splits, close.ending_cancelled hcalls hbefore,
    close.ending_passed hcalls hbefore, close.ending_exhausted hcalls⟩

/-- A result counts the last round, or one more if the attempt ends as cancelled after that round failed. -/
theorem round_eq {result : Result} (h : Passage n r ns (.done result) up) :
    (result.status = .cancelled ∧ LastFailed (ns.map Note.exchange) →
      result.round = lastRound (ns.map Note.exchange) + 1) ∧
    (¬(result.status = .cancelled ∧ LastFailed (ns.map Note.exchange)) →
      result.round = lastRound (ns.map Note.exchange)) := by
  obtain ⟨x, up', ms, before, close, hcalls, -⟩ := h.exists_last
  have hround : lastRound (ns.map Note.exchange) = x.dossier.round := by
    rw [lastRound, Round.lastAsked?_eq hcalls close.ofRound]
    rfl
  rw [hround, Round.lastFailed_iff hcalls close.ofRound]
  cases close with
  | unrepaired failed _ _ status round => exact ⟨fun _ => round, fun h => absurd ⟨status, failed⟩ h⟩
  | stopped unfailed _ stop => exact ⟨fun h => absurd h.2 unfailed, fun _ => (stop _ rfl).2.1⟩
  | passed _ status round => exact ⟨fun h => absurd (status.symm.trans h.1) nofun, fun _ => round⟩
  | exhausted _ last status round =>
    exact ⟨fun h => absurd (status.symm.trans h.1) nofun, fun _ => round.trans last.symm⟩

end Passage

/-! ## Runs -/

namespace Team

section
variable {team : Team σ} {p : Project} {resolve : Resolve σ}

theorem notes_of_cancelled (d : Dossier) {s : Session σ} (h : s.cancelled = true) :
    team.notes d s = [] := by
  rw [notes, run_of_cancelled (show s.noted.cancelled = true from h)]
  rfl

theorem notes_of_refused {d : Dossier} {s : Session σ} (h : s.cancelled = false) {reason : Rejection}
    (hgate : team.policy.judge d = .refused reason) :
    team.notes d s = [⟨.report (.skipped d reason.message (team.now s.world)), false⟩] := by
  have hgate : team.noted.policy.judge d = .refused reason := hgate
  rw [notes, run_of_refused (show s.noted.cancelled = false from h) hgate, ← h]
  rfl

/-- A run that begins and that the gate admits is a passage from the first round on. -/
theorem passage_run (henrich : team.KeepsCore) {d : Dossier} {s : Session σ} (h : s.cancelled = false)
    {score : Nat} (hgate : team.policy.judge d = .admitted score) :
    Passage team.maxRounds 0 (team.notes d s) (team.run d s).1 (team.run d s).2.cancelled := by
  have hnoted : team.noted.run d s.noted = team.noted.rounds (team.clock s.world) team.maxRounds
      { d with round := 0 } s.noted := run_of_admitted h hgate
  obtain ⟨ns, passage, hadds⟩ := exists_passage (team.clock s.world) henrich
    team.maxRounds { d with round := 0 } (Nat.zero_add _) (show s.noted.cancelled = false from h)
  rw [← hnoted] at passage hadds
  rw [ending_run_noted, cancelled_run_noted] at passage
  rwa [← show team.notes d s = ns from hadds.notes] at passage

/-- **Interrupted attempts.** No one is asked for a test once the run is cancelled; what is still called
was left to do of a round. An attempt ends as cancelled only if the run was or the author or the judge
says so, and then there is no report of it. A round in which a test passes, or the last one that is
allowed, ends the attempt as if the run were not cancelled. -/
theorem run_heeds (henrich : team.EnrichesBy p resolve) (d : Dossier) (s : Session σ) :
    Heeds team.maxRounds (team.notes d s) (team.run d s).1 (team.run d s).2.cancelled ∧
      (team.notes d s).map Note.exchange = team.exchanges d s := by
  refine ⟨?_, exchange_notes team d s⟩
  cases hcancelled : s.cancelled with
  | true =>
    rw [notes_of_cancelled d hcancelled, run_of_cancelled hcancelled]
    exact heeds_of_quiet (by simp) (by simp) fun _ _ _ => ⟨hcancelled, rfl⟩
  | false =>
    cases hgate : team.policy.judge d with
    | refused reason =>
      rw [notes_of_refused hcancelled hgate, run_of_refused hcancelled hgate]
      refine heeds_of_quiet (by simp [Exchange.ofRound]) (by simp) fun result hend hstatus => ?_
      cases hend
      cases hstatus
    | admitted score => exact (passage_run henrich.keepsCore hcancelled hgate).heeds

/-- A dossier is assembled for the first round. -/
theorem round_assemble (p : Project) (resolve : Resolve σ) (depth : Nat) (c : ClassInfo)
    (m : MethodInfo) (attempt : Nat) (s : σ) :
    (Assembly.assemble p resolve depth c m attempt s).1.round = 0 := by
  obtain ⟨st, steps, heq⟩ := Assembly.filings_assemble p resolve depth c m attempt s
  rw [heq]
  exact congrArg Dossier.round (Assembly.core_filings steps)

/-- **The round of a result.** A result of an attempt from a dossier in its first round counts the round of
the last call to the author, except where the attempt ends as cancelled after a round that failed: there it
counts the next round, although no one was asked for it. -/
theorem run_round_eq_iff (henrich : team.EnrichesBy p resolve) {d : Dossier} (hd : d.round = 0)
    {s : Session σ} {result : Result} (hend : (team.run d s).1 = .done result) :
    (result.round = lastRound (team.exchanges d s) ↔
      ¬(result.status = .cancelled ∧ LastFailed (team.exchanges d s))) ∧
    (result.status = .cancelled → LastFailed (team.exchanges d s) →
      result.round = lastRound (team.exchanges d s) + 1) := by
  suffices h : (result.status = .cancelled ∧ LastFailed (team.exchanges d s) →
      result.round = lastRound (team.exchanges d s) + 1) ∧
      (¬(result.status = .cancelled ∧ LastFailed (team.exchanges d s)) →
        result.round = lastRound (team.exchanges d s)) by
    refine ⟨⟨fun hround hahead => ?_, h.2⟩, fun hstatus hfailed => h.1 ⟨hstatus, hfailed⟩⟩
    have := h.1 hahead
    omega
  rw [← exchange_notes]
  cases hcancelled : s.cancelled with
  | true =>
    rw [run_of_cancelled hcancelled] at hend
    cases hend
    rw [notes_of_cancelled d hcancelled]
    exact ⟨fun h => absurd h.2 not_lastFailed_nil, fun _ => hd⟩
  | false =>
    cases hgate : team.policy.judge d with
    | refused reason =>
      rw [run_of_refused hcancelled hgate] at hend
      cases hend
      rw [notes_of_refused hcancelled hgate]
      exact ⟨fun h => absurd h.1 nofun, fun _ => rfl⟩
    | admitted score =>
      have passage := passage_run henrich.keepsCore hcancelled hgate
      rw [hend] at passage
      exact passage.round_eq

end

namespace Curfew

/-- A team whose run is cancelled while the judge rejects a test. -/
def team : Team Nat where
  author := Till.team.author
  judge _ _ calls := (.done (.fail "location: class Tax"), true, calls)
  archive _ calls := (none, calls)
  enrich := some fun names st => (Assembly.enrich {} Till.resolve names st).2
  policy := { threshold := 0 }
  maxRounds := 1
  clock _ := 0
  now _ := default

def dossier : Dossier := (Assembly.assemble {} Till.resolve 0 Till.till Till.total 0 0).1

def session : Session Nat := ⟨0, false, []⟩

def result : Result := { status := .cancelled, round := 1 }

theorem enrichesBy : team.EnrichesBy {} Till.resolve := by
  intro enrich henrich names st
  rw [← Option.some.inj henrich]

theorem ending_eq : (team.run dossier session).1 = .done result := by decide

/-- Only the enriching is late, and nothing is reported. -/
theorem heeds_late : (team.notes dossier session).map Note.late = [false, false, true] ∧
    ∀ r, .report r ∉ team.exchanges dossier session := by
  obtain ⟨heeds, hcalls⟩ := run_heeds enrichesBy dossier session
  refine ⟨by decide, ?_⟩
  rw [← hcalls]
  exact (heeds.cancelled result ending_eq rfl).2

/-- The result counts a repair that no one was asked for. -/
theorem round_unasked : ∃ result, (team.run dossier session).1 = .done result ∧
    result.round ≠ lastRound (team.exchanges dossier session) := by
  refine ⟨result, ending_eq, ?_⟩
  decide

theorem round_ahead : result.round = lastRound (team.exchanges dossier session) + 1 := by
  have hfailed : LastFailed (team.exchanges dossier session) := by
    refine .inr ⟨⟨dossier.testClassName, ""⟩, "location: class Tax", ?_, ?_⟩
    · decide
    · exact show lastJudged? _ = _ by decide
  have hround : dossier.round = 0 := round_assemble {} Till.resolve 0 Till.till Till.total 0 0
  exact (run_round_eq_iff enrichesBy hround ending_eq).2 rfl hfailed

end Curfew

end Team

end Testwright
