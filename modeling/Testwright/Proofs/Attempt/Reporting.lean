import Testwright.Proofs.Attempt.Course
import Testwright.Proofs.Attempt.Interleaving

/-!
# Reports of attempts that run side by side

Only the log is written to when an attempt hands its report around, and the attempt does so once:
`Progress` says which reports of an attempt the log holds at each stage, every step keeps it
(`Progress.step`), and so do all turns that attempts, time and cancelling may take
(`Tidy.run`). When no attempt is under way, the log holds one report for each attempt that ended
with a result other than being cancelled, and the report agrees with it (`reports_account`).
-/

namespace Testwright

variable {σ : Type}

/-! ## Reports and outcomes -/

/-- A report says what came of an attempt with at most `n` repairs, in which the judge spoke as given. -/
structure Report.Agrees (n : Nat) (judged : List Judgement) (result : Result) (r : Report) : Prop where
  status : r.status = result.status
  round : r.round = result.round
  coverage : r.coverage = result.coverage
  passed : r.passed = true ↔ result.status = .succeeded
  measured : result.coverage ≠ none → result.status = .succeeded
  skipReason : r.skipReason ≠ none ↔ result.status = .skipped
  /-- The report of a success holds the test of which the judge spoke last, and which passed. -/
  tested : result.status = .succeeded → ∃ test, judged.getLast? = some (test, .done .pass) ∧
    r.testClass = some test.className ∧ r.testSource = some test.source
  exhausted : result.status = .exhausted → result.round = n

/-- The reports that an attempt with a given outcome leaves. -/
inductive Outcome.Reported (n : Nat) (judged : List Judgement) : Outcome → List Report → Prop
  | once {result r} (kept : result.status ≠ .cancelled) (agrees : r.Agrees n judged result) :
    Reported n judged (.finished result) [r]
  | cancelled {result} (status : result.status = .cancelled) : Reported n judged (.finished result) []
  | faulted {message} : Reported n judged (.faulted message) []
  | notStarted : Reported n judged .notStarted []

theorem Report.agrees_skipped {n : Nat} {judged : List Judgement} (d : Dossier) (reason : String)
    (now : Timestamp) : (Report.skipped d reason now).Agrees n judged .skipped where
  status := rfl
  round := rfl
  coverage := rfl
  passed := by simp [Report.skipped, Result.skipped]
  measured h := absurd rfl h
  skipReason := by simp [Report.skipped, Result.skipped]
  tested := nofun
  exhausted := nofun

theorem Report.agrees_succeeded {n : Nat} {judged : List Judgement} {d : Dossier} {test : UnitTest}
    (htest : d.unitTest = some test) (hjudged : judged.getLast? = some (test, .done .pass))
    {result : Result} (hstatus : result.status = .succeeded) (now : Timestamp) :
    (Report.finished d result now).Agrees n judged result where
  status := rfl
  round := rfl
  coverage := rfl
  passed := by simp [Report.finished, Result.passed]
  measured _ := hstatus
  skipReason := by simp [Report.finished, hstatus]
  tested _ := ⟨test, hjudged, by simp [Report.finished, htest], by simp [Report.finished, htest]⟩
  exhausted h := by simp [hstatus] at h

theorem Report.agrees_exhausted {n : Nat} {judged : List Judgement} {d : Dossier} {result : Result}
    (hstatus : result.status = .exhausted) (hcoverage : result.coverage = none)
    (hround : result.round = n) (now : Timestamp) :
    (Report.finished d result now).Agrees n judged result where
  status := rfl
  round := rfl
  coverage := rfl
  passed := by simp [Report.finished, Result.passed]
  measured h := absurd hcoverage h
  skipReason := by simp [Report.finished, hstatus]
  tested h := by simp [hstatus] at h
  exhausted _ := hround

namespace Campaign

variable (c : Campaign σ) (index : Nat)

/-- Dossiers keep the number of their attempt. -/
structure Numbered : Prop where
  assemble : ∀ index world, (c.assemble index world).1.attempt = index
  enrich : c.team.KeepsCore

/-! ## The log is touched by archives only -/

section
variable {c} (d : Dossier) (s : LoggedSession σ)

theorem kept_produce : (c.crew.produce d s).2.world.2 = s.world.2 := by
  unfold Team.produce
  split <;> rfl

theorem kept_measure : (c.crew.measure d s).2.world.2 = s.world.2 := by
  unfold Team.measure
  cases hmeter : c.team.meter with
  | none => simp [crew, hmeter]
  | some meter =>
    cases d.unitTest with
    | none => simp [crew, hmeter]
    | some test =>
      let request : CoverageRequest :=
        ⟨test.source, test.className, d.className, d.methodSignature, meter.2⟩
      have hkept : (s.call (.measure request) (meter.1 request).beside).2.world.2 = s.world.2 := rfl
      simp only [crew, hmeter, Option.map_some]
      generalize s.call (.measure request) (meter.1 request).beside = x at hkept
      match x with
      | (.done _, _) | (.failed _, _) | (.crashed _, _) => exact hkept

theorem kept_enrichFromFailure : (c.crew.enrichFromFailure d s).2.world.2 = s.world.2 := by
  unfold Team.enrichFromFailure
  cases henrich : c.team.enrich with
  | none => simp [crew, henrich]
  | some enrich =>
    cases d.lastFailure? with
    | none => simp [crew, henrich]
    | some failure =>
      simp only [crew, henrich, Option.map_some]
      split <;> rfl

theorem core_enrichFromFailure (h : c.team.KeepsCore) :
    (c.crew.enrichFromFailure d s).1.core = d.core := by
  unfold Team.enrichFromFailure
  cases henrich : c.team.enrich with
  | none => simp [crew, henrich]
  | some enrich =>
    cases d.lastFailure? with
    | none => simp [crew, henrich]
    | some failure =>
      simp only [crew, henrich, Option.map_some]
      split
      · rfl
      · exact h enrich henrich _ (d, s.world.1)

end

end Campaign

/-! ## What the log holds of an attempt -/

/-- The repairs that remain and the dossier of an attempt in its rounds. -/
def Stage.inRounds? : Stage σ → Option (Nat × Dossier)
  | .resting _ remaining d | .writing _ remaining d | .judging _ remaining d _
  | .failed _ remaining d => some (remaining, d)
  | _ => none

namespace Campaign

variable (c : Campaign σ) (index : Nat)

/-- What the log holds of an attempt at a stage, and what the stage keeps for the report to come. -/
inductive Progress (judged : List Judgement) : Stage σ → List Report → Prop
  | idle : Progress judged .idle []
  | begun : Progress judged .begun []
  | assembled {d} (numbered : d.attempt = index) : Progress judged (.assembled d) []
  | inRounds {stage remaining d} (stage_eq : stage.inRounds? = some (remaining, d))
    (numbered : d.attempt = index) (round : d.round + remaining = c.team.maxRounds) :
    Progress judged stage []
  | passed {started d test} (numbered : d.attempt = index) (test_eq : d.unitTest = some test)
    (judged_eq : judged.getLast? = some (test, .done .pass)) : Progress judged (.passed started d) []
  /-- The log is among the archives that have not got the report yet. -/
  | unlogged {result r} {front : List (Archive σ)} (numbered : r.attempt = index) (kept : result.status ≠ .cancelled)
    (agrees : r.Agrees c.team.maxRounds judged result) :
    Progress judged (.reporting result r (front.map Archive.beside ++ .logging :: c.after.map .beside)) []
  | logged {result r} {rest : List (Archive σ)} (kept : result.status ≠ .cancelled)
    (agrees : r.Agrees c.team.maxRounds judged result) :
    Progress judged (.reporting result r (rest.map Archive.beside)) [r]
  | ended {outcome reports} (reported : outcome.Reported c.team.maxRounds judged reports) :
    Progress judged (.ended outcome) reports

/-- An attempt goes on from a session without touching the log. -/
structure Quiet (judged : List Judgement) (s : LoggedSession σ) (x : Stage σ × LoggedSession σ) :
    Prop where
  kept : x.2.world.2 = s.world.2
  progress : c.Progress index judged x.1 []

variable {c index} {judged : List Judgement} {s t : LoggedSession σ} {d : Dossier}
  {started remaining : Nat}

theorem Quiet.exists_new {x : Stage σ × LoggedSession σ} (h : c.Quiet index judged s x) :
    ∃ new, x.2.world.2 = s.world.2 ++ new ∧ (∀ r ∈ new, r.attempt = index) ∧
      c.Progress index judged x.1 ([] ++ new) :=
  ⟨[], by rw [h.kept, List.append_nil], by simp, h.progress⟩

theorem quiet_file {result : Result} {r : Report} (hkept : t.world.2 = s.world.2)
    (hnumbered : r.attempt = index) (hstatus : result.status ≠ .cancelled)
    (hagrees : r.Agrees c.team.maxRounds judged result) : c.Quiet index judged s (c.file result r t) :=
  ⟨hkept, .unlogged hnumbered hstatus hagrees⟩

theorem quiet_cancel (hkept : t.world.2 = s.world.2) :
    c.Quiet index judged s (leave (c.crew.cancel started d t)) :=
  ⟨hkept, .ended (.cancelled rfl)⟩

theorem quiet_stageAfter (started : Nat) (hkept : t.world.2 = s.world.2) (hnumbered : d.attempt = index)
    (hround : d.round + remaining = c.team.maxRounds) (outcome : RoundOutcome)
    (hpassed : outcome = .passed →
      ∃ test, d.unitTest = some test ∧ judged.getLast? = some (test, .done .pass)) :
    c.Quiet index judged s (c.stageAfter started remaining (outcome, d, t)) := by
  match remaining, outcome with
  | _, .passed =>
    obtain ⟨test, htest, hjudged⟩ := hpassed rfl
    simp only [stageAfter]
    exact ⟨hkept, .passed hnumbered htest hjudged⟩
  | _, .cancelled =>
    simp only [stageAfter]
    exact quiet_cancel hkept
  | _, .error e =>
    simp only [stageAfter]
    exact ⟨hkept, .ended .faulted⟩
  | _, .crashed message =>
    simp only [stageAfter]
    exact ⟨hkept, .ended .faulted⟩
  | 0, .failed diagnostics =>
    exact quiet_file hkept hnumbered nofun (Report.agrees_exhausted rfl rfl hround _)
  | remaining + 1, .failed diagnostics =>
    exact ⟨hkept, .inRounds rfl hnumbered (by simp only; omega)⟩

theorem quiet_stageWritten (hnumbered : d.attempt = index)
    (hround : d.round + remaining = c.team.maxRounds) {reply : Reply AuthorError UnitTest}
    (hkept : t.world.2 = s.world.2) :
    c.Quiet index judged s (c.stageWritten started remaining d (reply, t)) := by
  match reply with
  | .failed (.noTest message) =>
    exact quiet_stageAfter started hkept hnumbered hround (.failed message) nofun
  | .failed .cancelled => exact quiet_stageAfter started hkept hnumbered hround .cancelled nofun
  | .failed (.request reason) =>
    exact quiet_stageAfter started hkept hnumbered hround
      (.error (.author (.request reason))) nofun
  | .crashed message => exact quiet_stageAfter started hkept hnumbered hround (.crashed message) nofun
  | .done test => exact ⟨hkept, .inRounds rfl hnumbered hround⟩

theorem quiet_stageMeasured (hnumbered : d.attempt = index) {test : UnitTest}
    (htest : d.unitTest = some test) (hjudged : judged.getLast? = some (test, .done .pass))
    {measured : Except (Option String) (Option Coverage)} (hkept : t.world.2 = s.world.2) :
    c.Quiet index judged s (c.stageMeasured started d (measured, t)) := by
  cases measured with
  | ok coverage =>
    exact quiet_file hkept hnumbered nofun (Report.agrees_succeeded htest hjudged rfl _)
  | error message => exact ⟨hkept, .ended .faulted⟩

theorem quiet_stageAtGate (hnumbered : d.attempt = index) (decision : GateDecision) :
    c.Quiet index judged s (c.stageAtGate d s decision) := by
  cases decision with
  | refused reason => exact quiet_file rfl hnumbered nofun (Report.agrees_skipped d _ _)
  | admitted score => exact ⟨rfl, .inRounds rfl hnumbered (Nat.zero_add _)⟩

theorem eq_done_of_passed {reply : Reply JudgeError Verdict} (h : Team.roundOutcome reply = .passed) :
    reply = .done .pass := by
  match reply, h with
  | .done .pass, _ => rfl

theorem quiet_judging {test : UnitTest} (hnumbered : d.attempt = index)
    (hround : d.round + remaining = c.team.maxRounds) :
    c.Quiet index (judged ++ c.heard (.judging started remaining d test) s) s
      (c.step index (.judging started remaining d test) s) := by
  let called := s.call (.judge test) (c.crew.judge test)
  let d' : Dossier := { d with unitTest := some test }
  have hnumbered' : d'.attempt = index := hnumbered
  have hround' : d'.round + remaining = c.team.maxRounds := hround
  have hkept : called.2.world.2 = s.world.2 := rfl
  change c.Quiet index _ s (c.stageAfter started remaining (Team.roundOutcome called.1, d', called.2))
  refine quiet_stageAfter started hkept hnumbered' hround' (Team.roundOutcome called.1) ?_
  intro hpassed
  refine ⟨test, rfl, ?_⟩
  rw [heard, List.getLast?_concat, ← eq_done_of_passed hpassed]
  rfl

/-- In its rounds an attempt leaves the log alone. -/
theorem quiet_inRounds (hc : c.Numbered) {stage : Stage σ}
    (hstage : stage.inRounds? = some (remaining, d)) (hnumbered : d.attempt = index)
    (hround : d.round + remaining = c.team.maxRounds) (s : LoggedSession σ) :
    c.Quiet index (judged ++ c.heard stage s) s (c.step index stage s) := by
  cases stage with
  | resting started remaining d =>
    cases hstage
    rw [step]
    split
    · exact quiet_cancel rfl
    · exact ⟨rfl, .inRounds rfl hnumbered hround⟩
  | writing started remaining d =>
    cases hstage
    exact quiet_stageWritten hnumbered hround (kept_produce d s)
  | judging started remaining d test =>
    cases hstage
    exact quiet_judging hnumbered hround
  | failed started remaining d =>
    cases hstage
    have hcore := core_enrichFromFailure d s hc.enrich
    have hattempt : (c.crew.enrichFromFailure d s).1.core.attempt = d.core.attempt :=
      congrArg Dossier.attempt hcore
    have hsame : (c.crew.enrichFromFailure d s).1.core.round = d.core.round :=
      congrArg Dossier.round hcore
    refine ⟨kept_enrichFromFailure d s, .inRounds rfl (hattempt.trans hnumbered) ?_⟩
    exact (congrArg (· + remaining) hsame).trans hround
  | _ => cases hstage

/-- **One step.** The log gets a report of the attempt at most, and of no other attempt. -/
theorem Progress.step (hc : c.Numbered) {stage : Stage σ} {reports : List Report}
    (h : c.Progress index judged stage reports) (s : LoggedSession σ) :
    ∃ new, (c.step index stage s).2.world.2 = s.world.2 ++ new ∧ (∀ r ∈ new, r.attempt = index) ∧
      c.Progress index (judged ++ c.heard stage s) (c.step index stage s).1 (reports ++ new) := by
  cases h with
  | idle =>
    have hquiet : c.Quiet index (judged ++ c.heard .idle s) s (c.step index .idle s) := by
      refine ⟨rfl, ?_⟩
      rw [Campaign.step]
      cases s.cancelled with
      | true => exact .ended .notStarted
      | false => exact .begun
    exact hquiet.exists_new
  | begun =>
    have hquiet : c.Quiet index (judged ++ c.heard .begun s) s (c.step index .begun s) :=
      ⟨rfl, .assembled (hc.assemble index s.world.1)⟩
    exact hquiet.exists_new
  | @assembled d numbered =>
    have hquiet : c.Quiet index (judged ++ c.heard (.assembled d) s) s
        (c.step index (.assembled d) s) := by
      rw [Campaign.step]
      split
      · exact quiet_cancel rfl
      · exact quiet_stageAtGate numbered _
    exact hquiet.exists_new
  | inRounds stage_eq numbered round => exact (quiet_inRounds hc stage_eq numbered round s).exists_new
  | @passed started d test numbered test_eq judged_eq =>
    have hquiet : c.Quiet index (judged ++ []) s (c.step index (.passed started d) s) := by
      rw [List.append_nil]
      exact quiet_stageMeasured numbered test_eq judged_eq (kept_measure d s)
    exact hquiet.exists_new
  | @unlogged result r front numbered kept agrees =>
    have agrees' : r.Agrees c.team.maxRounds (judged ++ []) result := by rwa [List.append_nil]
    cases front with
    | nil => exact ⟨[r], rfl, by simpa using numbered, .logged kept agrees'⟩
    | cons archive front => exact ⟨[], (List.append_nil _).symm, by simp, .unlogged numbered kept agrees'⟩
  | @logged result r rest kept agrees =>
    have agrees' : r.Agrees c.team.maxRounds (judged ++ []) result := by rwa [List.append_nil]
    cases rest with
    | nil => exact ⟨[], (List.append_nil _).symm, by simp, .ended (.once kept agrees')⟩
    | cons archive rest => exact ⟨[], (List.append_nil _).symm, by simp, .logged kept agrees'⟩
  | ended reported =>
    refine ⟨[], (List.append_nil _).symm, by simp, ?_⟩
    rw [List.append_nil]
    exact .ended (by rwa [show judged ++ c.heard (.ended _) s = judged from List.append_nil _])

/-! ## Attempts side by side -/

/-- The log holds what was in it before and, for each attempt, the reports of its stage. -/
structure Tidy (kept : List Report) (j : Joint σ) (received : List Report) : Prop where
  log : j.session.world.2 = kept ++ received
  within : ∀ r ∈ received, r.attempt < j.attempts.length
  progress : ∀ index a, j.attempts[index]? = some a →
    c.Progress index a.judged a.stage (received.filter (·.attempt == index))

variable {kept received : List Report} {j : Joint σ}

theorem tidy_start (count : Nat) (hlog : s.world.2 = kept) : c.Tidy kept (.start count s) [] where
  log := by simp [Joint.start, hlog]
  within := by simp
  progress index a ha := by
    obtain rfl : a = {} := by
      simp only [Joint.start, List.getElem?_replicate] at ha
      split at ha <;> simp_all
    exact .idle

theorem Tidy.step (hc : c.Numbered) (h : c.Tidy kept j received) (index : Nat) :
    ∃ received', c.Tidy kept (c.turn j (.step index)) received' := by
  cases hattempt : j.attempts[index]? with
  | none =>
    rw [turn_step_of_none hattempt]
    exact ⟨received, h⟩
  | some a =>
    obtain ⟨new, hlog, hnew, hprogress⟩ := (h.progress index a hattempt).step hc j.session
    have hindex : index < j.attempts.length := (List.getElem?_eq_some_iff.1 hattempt).1
    rw [turn_step_of_some hattempt]
    refine ⟨received ++ new, by rw [hlog, h.log, List.append_assoc], fun r hr => ?_, ?_⟩
    · rw [List.length_set]
      rcases List.mem_append.1 hr with hr | hr
      · exact h.within r hr
      · exact hnew r hr ▸ hindex
    · intro k b hb
      rw [List.filter_append]
      by_cases hk : k = index
      · subst hk
        rw [List.getElem?_set_self hindex] at hb
        cases hb
        have hown : new.filter (·.attempt == k) = new :=
          List.filter_eq_self.2 fun r hr => by simpa using hnew r hr
        rwa [hown]
      · rw [List.getElem?_set_ne (Ne.symm hk)] at hb
        have hother : new.filter (·.attempt == k) = [] :=
          List.filter_eq_nil_iff.2 fun r hr => by simp [hnew r hr, Ne.symm hk]
        rw [hother, List.append_nil]
        exact h.progress k b hb

theorem Tidy.turn (hc : c.Numbered) (h : c.Tidy kept j received) (t : Turn σ) :
    ∃ received', c.Tidy kept (c.turn j t) received' := by
  cases t with
  | step index => exact h.step hc index
  | drift f => exact ⟨received, h.log, h.within, h.progress⟩
  | cancel => exact ⟨received, h.log, h.within, h.progress⟩

theorem Tidy.run (hc : c.Numbered) (h : c.Tidy kept j received) (turns : List (Turn σ)) :
    ∃ received', c.Tidy kept (c.run j turns) received' := by
  induction turns generalizing j received with
  | nil => exact ⟨received, h⟩
  | cons t turns ih =>
    obtain ⟨received', h'⟩ := h.turn hc t
    exact ih h'

/-- The log holds what was in it before and, for each attempt, what its outcome leaves. -/
structure Accounted (n : Nat) (kept : List Report) (j : Joint σ) (outcomes : List Outcome)
    (received : List Report) : Prop where
  log : j.session.world.2 = kept ++ received
  within : ∀ r ∈ received, r.attempt < outcomes.length
  reported : ∀ (index : Nat) (outcome : Outcome), outcomes[index]? = some outcome →
    ∃ a, j.attempts[index]? = some a ∧
      outcome.Reported n a.judged (received.filter (·.attempt == index))

theorem Progress.reported {index : Nat} {a : Attempt σ} {reports : List Report} {outcome : Outcome}
    (h : c.Progress index a.judged a.stage reports) (houtcome : a.stage.outcome? = some outcome) :
    outcome.Reported c.team.maxRounds a.judged reports := by
  obtain ⟨stage, judged⟩ := a
  cases h with
  | idle =>
    cases houtcome
    exact .notStarted
  | ended reported =>
    cases houtcome
    exact reported
  | @inRounds stage _ _ stage_eq =>
    cases stage with
    | idle | ended => cases stage_eq
    | _ => cases houtcome
  | _ => cases houtcome

theorem Tidy.accounted (h : c.Tidy kept j received) {outcomes : List Outcome} (hends : j.Ends outcomes) :
    Accounted c.team.maxRounds kept j outcomes received where
  log := h.log
  within := by
    have hlength : j.attempts.length = outcomes.length := by simpa using congrArg List.length hends
    exact hlength ▸ h.within
  reported index outcome houtcome := by
    have hstage := congrArg (·[index]?) hends
    simp only [List.getElem?_map, houtcome, Option.map_some] at hstage
    obtain ⟨a, ha, hoa⟩ := Option.map_eq_some_iff.1 hstage
    exact ⟨a, ha, (h.progress index a ha).reported hoa⟩

theorem numbered_assemble {p : Project} {resolve : Resolve σ} {depth : Nat} {k : ClassInfo}
    {m : MethodInfo} (henrich : c.team.EnrichesBy p resolve)
    (hassemble : c.assemble = Assembly.assemble p resolve depth k m) : c.Numbered where
  assemble index world := by
    obtain ⟨st, steps, heq⟩ := Assembly.filings_assemble p resolve depth k m index world
    rw [hassemble, heq]
    exact congrArg Dossier.attempt (Assembly.core_filings steps)
  enrich := henrich.keepsCore

/-- **Reports of attempts.** Whatever turns the attempts at a method take, once none is under way the log
has got exactly one report from each attempt that ended with success, exhausted or skipped, none from the
others, and every report agrees with the outcome. Runs in all modes are among these. -/
theorem reports_account {p : Project} {resolve : Resolve σ} {depth : Nat} {k : ClassInfo}
    {m : MethodInfo} (henrich : c.team.EnrichesBy p resolve)
    (hassemble : c.assemble = Assembly.assemble p resolve depth k m)
    (count : Nat) (world : σ) (kept : List Report) (cancelled : Bool) :
    (∀ turns outcomes, (c.run (.start count ⟨(world, kept), cancelled, []⟩) turns).Ends outcomes →
      ∃ received, Accounted c.team.maxRounds kept
        (c.run (.start count ⟨(world, kept), cancelled, []⟩) turns) outcomes received) ∧
    ∀ mode, ∃ turns,
      (c.run (.start count ⟨(world, kept), cancelled, []⟩) turns).Ends
        (Schedule.run mode count c.attempts ⟨((world, kept), []), cancelled, []⟩).1.outcomes ∧
      (c.run (.start count ⟨(world, kept), cancelled, []⟩) turns).session =
        session (Schedule.run mode count c.attempts ⟨((world, kept), []), cancelled, []⟩).2 := by
  refine ⟨fun turns outcomes hends => ?_, fun mode => ?_⟩
  · have hstart : c.Tidy kept (.start count ⟨(world, kept), cancelled, []⟩) [] := tidy_start count rfl
    obtain ⟨received, h⟩ := hstart.run (numbered_assemble henrich hassemble) turns
    exact ⟨received, h.accounted hends⟩
  · exact exists_turns_schedule mode count ⟨((world, kept), []), cancelled, []⟩

end Campaign

namespace Team.Till

/-- The reports of the till go to an archive that is full, to the log and to another full archive. -/
def campaign : Campaign Nat where
  team := team
  assemble := Assembly.assemble {} resolve 0 till total
  before := [fun _ calls => (some "no space left", calls)]
  after := [fun _ calls => (some "no space left", calls)]

/-- The till is run twice: the first attempt passes in its second round and the second one at once. -/
theorem reports_account_campaign : ∃ turns outcomes received,
    Campaign.Accounted 1 [] (campaign.run (.start 2 ⟨(0, []), false, []⟩) turns) outcomes received ∧
      outcomes.map Outcome.passed = [true, true] ∧
      received.map (fun r => (r.attempt, r.round, r.passed)) = [(0, 1, true), (1, 0, true)] := by
  obtain ⟨account, scheduled⟩ := Campaign.reports_account (c := campaign) enrichesBy rfl 2 0 [] false
  obtain ⟨turns, hends, hsession⟩ := scheduled .exhaustive
  obtain ⟨received, h⟩ := account turns _ hends
  refine ⟨turns, _, received, h, by decide +kernel, ?_⟩
  have hreceived := h.log
  rw [hsession, List.nil_append] at hreceived
  rw [← hreceived]
  decide +kernel

end Team.Till

end Testwright
