import Testwright.Proofs.Attempt.Course

/-!
# What repairs are about

A repair hands the author a dossier, with the latest test in it, and the diagnostics of the latest
failure. The two need not belong together: a round in which the author writes no test fails as
well, and then the next repair comes with an older test and the reason why there is no new one.

`Leaves` describes both cases by the calls before a repair. Every round keeps this
(`exists_founded_round`), and so does a run (`founded_exchanges`). A repair is about a verdict on the
test in its dossier if and only if the round before it wrote a test, or its failure reads like that
verdict (`repair_about_iff`); `Hush.repair_about_silence` is a repair that is not.
-/

namespace Testwright

/-! ## Calls before a repair -/

namespace Exchange

def written? : Exchange → Option (Reply AuthorError UnitTest)
  | generate _ reply | repair _ _ reply => some reply
  | _ => none

def judged? : Exchange → Option (UnitTest × Reply JudgeError Verdict)
  | judge test reply => some (test, reply)
  | _ => none

/-- The last of what some calls tell. -/
def last? {α : Type} (f : Exchange → Option α) (xs : List Exchange) : Option α :=
  (xs.filterMap f).getLast?

/-- The author's latest reply. -/
abbrev lastWritten? : List Exchange → Option (Reply AuthorError UnitTest) := last? written?

/-- The test that was judged last, with the judge's reply. -/
abbrev lastJudged? : List Exchange → Option (UnitTest × Reply JudgeError Verdict) := last? judged?

section
variable {α : Type} {f : Exchange → Option α} {xs ys : List Exchange} {y : Exchange}

@[simp] theorem last?_append : last? f (xs ++ ys) = (last? f ys).or (last? f xs) := by
  simp [last?, List.filterMap_append, List.getLast?_append]

@[simp] theorem last?_singleton : last? f [y] = f y := by
  cases h : f y <;> simp [last?, h]

@[simp] theorem last?_pair {z : Exchange} : last? f [y, z] = (f z).or (f y) := by
  rw [show [y, z] = [y] ++ [z] from rfl, last?_append, last?_singleton, last?_singleton]

theorem last?_eq_none (h : ∀ y ∈ xs, f y = none) : last? f xs = none := by
  rw [last?, List.filterMap_eq_nil_iff.2 h]
  rfl

@[simp] theorem written?_judge (test : UnitTest) (reply : Reply JudgeError Verdict) :
    (judge test reply).written? = none := rfl

@[simp] theorem judged?_judge (test : UnitTest) (reply : Reply JudgeError Verdict) :
    (judge test reply).judged? = some (test, reply) := rfl

theorem written?_eq_none (h : y.ofRound = false) : y.written? = none := by
  cases y <;> first | rfl | cases h

theorem judged?_eq_none (h : y.ofRound = false) : y.judged? = none := by
  cases y <;> first | rfl | cases h

end

end Exchange

open Exchange (lastWritten? lastJudged?)

/-- The latest test after some calls; before any test is judged it is the one to begin with. -/
def latestTest (initial : Option UnitTest) (xs : List Exchange) : Option UnitTest :=
  ((lastJudged? xs).map Prod.fst).or initial

/-- The test was judged last, and the diagnostics are why it was rejected. -/
def About (xs : List Exchange) (test : UnitTest) (diagnostics : String) : Prop :=
  lastJudged? xs = some (test, .done (.fail diagnostics))

/-- The test and the diagnostics that the calls so far leave to a repair. -/
inductive Leaves (initial : Option UnitTest) (xs : List Exchange) :
    Option UnitTest → String → Prop
  /-- The judge rejected the test that the author wrote last. -/
  | rejected {test diagnostics} (written : lastWritten? xs = some (.done test))
    (judged : About xs test diagnostics) : Leaves initial xs (some test) diagnostics
  /-- The author wrote no test; what remains is an older one. -/
  | unwritten {reason} (written : lastWritten? xs = some (.failed (.noTest reason))) :
    Leaves initial xs (latestTest initial xs) reason

section
variable {initial : Option UnitTest} {xs ys : List Exchange}

theorem latestTest_congr (h : lastJudged? ys = lastJudged? xs) :
    latestTest initial ys = latestTest initial xs := by
  rw [latestTest, h, latestTest]

theorem Leaves.congr {test : Option UnitTest} {diagnostics : String}
    (h : Leaves initial xs test diagnostics) (hwritten : lastWritten? ys = lastWritten? xs)
    (hjudged : lastJudged? ys = lastJudged? xs) : Leaves initial ys test diagnostics := by
  cases h with
  | rejected written judged => exact .rejected (hwritten.trans written) (hjudged.trans judged)
  | unwritten written =>
    rw [← latestTest_congr hjudged]
    exact .unwritten (hwritten.trans written)

theorem Leaves.about_iff {test : UnitTest} {diagnostics : String}
    (h : Leaves initial xs (some test) diagnostics) :
    (About xs test diagnostics ↔
      (∃ written, lastWritten? xs = some (.done written)) ∨
        ∃ reason, lastWritten? xs = some (.failed (.noTest reason)) ∧ About xs test reason) ∧
    (¬About xs test diagnostics → lastWritten? xs = some (.failed (.noTest diagnostics))) := by
  -- a test that is known to be there is no index to split on
  generalize htest : some test = found at h
  cases h with
  | rejected written judged =>
    cases htest
    exact ⟨⟨fun _ => .inl ⟨test, written⟩, fun _ => judged⟩, fun h => absurd judged h⟩
  | unwritten written =>
    refine ⟨⟨fun h => .inr ⟨diagnostics, written, h⟩, ?_⟩, fun _ => written⟩
    rintro (⟨other, hother⟩ | ⟨reason, hreason, habout⟩)
    · cases written.symm.trans hother
    · cases written.symm.trans hreason
      exact habout

end

/-- Every repair among some calls gets what the calls before it leave. -/
def Founded (initial : Option UnitTest) (before xs : List Exchange) : Prop :=
  ∀ earlier d diagnostics reply later, xs = earlier ++ .repair d diagnostics reply :: later →
    Leaves initial (before ++ earlier) d.unitTest diagnostics

namespace Founded

variable {initial : Option UnitTest} {before xs ys : List Exchange}

theorem append (h : Founded initial before xs) (h' : Founded initial (before ++ xs) ys) :
    Founded initial before (xs ++ ys) := by
  intro earlier d diagnostics reply later heq
  rcases List.append_eq_append_iff.1 heq with ⟨as, rfl, hys⟩ | ⟨cs, rfl, hys⟩
  · rw [← List.append_assoc]
    exact h' as d diagnostics reply later hys
  · cases cs with
    | nil => simpa using h' [] d diagnostics reply later hys.symm
    | cons c cs =>
      obtain ⟨rfl, rfl⟩ := List.cons_eq_cons.1 hys
      exact h earlier d diagnostics reply cs rfl

theorem of_ofRound (h : ∀ y ∈ xs, y.ofRound = false) : Founded initial before xs := by
  rintro earlier d diagnostics reply later rfl
  have := h (.repair d diagnostics reply) (by simp)
  cases this

theorem report (r : Report) : Founded initial before [.report r] :=
  of_ofRound (by simp [Exchange.ofRound])

/-- A call by itself is founded if it is no repair or gets what is left to it. -/
theorem singleton {x : Exchange}
    (h : ∀ d diagnostics reply, x = .repair d diagnostics reply →
      Leaves initial before d.unitTest diagnostics) : Founded initial before [x] := by
  intro earlier d diagnostics reply later heq
  obtain ⟨rfl, hx, -⟩ : earlier = [] ∧ .repair d diagnostics reply = x ∧ later = [] := by
    simpa [List.singleton_eq_append_iff] using heq
  simpa using h d diagnostics reply hx.symm

end Founded

/-! ## Rounds -/

/-- The dossier of a round agrees with the calls before it. -/
structure Ready (initial : Option UnitTest) (xs : List Exchange) (d : Dossier) : Prop where
  test : d.unitTest = latestTest initial xs
  repair : d.round ≠ 0 →
    Leaves initial xs d.unitTest ((d.lastFailure?.map Failure.diagnostics).getD "")

namespace Ready

variable {initial : Option UnitTest} {xs ys : List Exchange} {d e : Dossier} {test : UnitTest}
  {x : Exchange} {diagnostics : String}

/-- What happens between rounds does not matter. -/
theorem of_core (h : Ready initial xs d) (hys : ∀ y ∈ ys, y.ofRound = false)
    (hcore : e.core = d.core) : Ready initial (xs ++ ys) e := by
  have hwritten : lastWritten? (xs ++ ys) = lastWritten? xs := by
    simp [Exchange.last?_eq_none fun y hy => Exchange.written?_eq_none (hys y hy)]
  have hjudged : lastJudged? (xs ++ ys) = lastJudged? xs := by
    simp [Exchange.last?_eq_none fun y hy => Exchange.judged?_eq_none (hys y hy)]
  obtain ⟨-, hround, htest, hfailures⟩ := Dossier.history_of_core hcore
  refine ⟨by rw [htest, latestTest_congr hjudged, h.test], fun hne => ?_⟩
  rw [Dossier.lastFailure?, hfailures, htest]
  exact (h.repair (hround ▸ hne)).congr hwritten hjudged

/-- After a round that failed. -/
theorem next (htest : d.unitTest = latestTest initial xs)
    (hleaves : Leaves initial xs d.unitTest diagnostics) :
    Ready initial xs { d.fail diagnostics with round := d.round + 1 } :=
  ⟨htest, fun _ => by simpa [Dossier.fail, Dossier.lastFailure?] using hleaves⟩

theorem next_of_unwritten (h : Ready initial xs d) {reason : String}
    (hwritten : x.written? = some (.failed (.noTest reason))) (hjudged : x.judged? = none) :
    Ready initial (xs ++ [x]) { d.fail reason with round := d.round + 1 } := by
  have hlatest : latestTest initial (xs ++ [x]) = latestTest initial xs :=
    latestTest_congr (by simp [hjudged])
  have htest : d.unitTest = latestTest initial (xs ++ [x]) := h.test.trans hlatest.symm
  refine next htest ?_
  rw [htest]
  exact .unwritten (by simp [hwritten])

theorem next_of_rejected (hwritten : x.written? = some (.done test)) :
    Ready initial (xs ++ [x, .judge test (.done (.fail diagnostics))])
      { Dossier.fail { d with unitTest := some test } diagnostics with round := d.round + 1 } := by
  have habout : About (xs ++ [x, .judge test (.done (.fail diagnostics))]) test diagnostics := by
    simp [About]
  exact next (by simp [latestTest]) (.rejected (by simp [hwritten]) habout)

end Ready

namespace Team

section
variable {σ : Type} (team : Team σ) {initial : Option UnitTest} {d : Dossier}

/-- The call to the author in a round. -/
theorem exists_produce (t : WatchedSession σ) (h : Ready initial t.world.2 d) : ∃ x,
    Session.Notes [x] t (team.watched.produce d t).2 ∧
      x.written? = some (team.watched.produce d t).1 ∧ x.judged? = none ∧
      Founded initial t.world.2 [x] := by
  unfold produce
  split
  · exact ⟨_, ⟨rfl, rfl⟩, rfl, rfl, .singleton nofun⟩
  · next hround =>
    refine ⟨_, ⟨rfl, rfl⟩, rfl, rfl, .singleton fun e diagnostics reply heq => ?_⟩
    cases heq
    exact h.repair hround

theorem eq_fail_of_roundOutcome {reply : Reply JudgeError Verdict} {diagnostics : String}
    (h : roundOutcome reply = .failed diagnostics) : reply = .done (.fail diagnostics) := by
  match reply, h with
  | .done (.fail _), rfl => rfl

/-- A round is founded, and if it fails then so is the next one. -/
theorem exists_founded_round (t : WatchedSession σ) (h : Ready initial t.world.2 d) : ∃ xs,
    Session.Notes xs t (team.watched.round d t).2.2 ∧ Founded initial t.world.2 xs ∧
      ∀ diagnostics, (team.watched.round d t).1 = .failed diagnostics →
        Ready initial (t.world.2 ++ xs)
          { (team.watched.round d t).2.1.fail diagnostics with
            round := (team.watched.round d t).2.1.round + 1 } := by
  obtain ⟨x, hnotes, hwritten, hjudged, hfounded⟩ := exists_produce team t h
  unfold round
  generalize team.watched.produce d t = produced at *
  obtain ⟨reply, s⟩ := produced
  match reply with
  | .failed (.noTest reason) =>
    refine ⟨[x], hnotes, hfounded, fun diagnostics heq => ?_⟩
    cases heq
    exact h.next_of_unwritten hwritten hjudged
  | .failed .cancelled | .failed (.request _) | .crashed _ => exact ⟨[x], hnotes, hfounded, nofun⟩
  | .done test =>
    let judged := (s.call (.judge test) (team.watched.judge test)).1
    have hjudge : Session.Notes [.judge test judged] s
        (s.call (.judge test) (team.watched.judge test)).2 := ⟨rfl, rfl⟩
    refine ⟨[x] ++ [.judge test judged], hnotes.trans hjudge,
      hfounded.append (.singleton nofun), fun diagnostics heq => ?_⟩
    rw [show judged = .done (.fail diagnostics) from eq_fail_of_roundOutcome heq]
    exact Ready.next_of_rejected hwritten

theorem exists_founded_succeed (started : Nat) (initial : Option UnitTest)
    (before : List Exchange) (d : Dossier) (t : WatchedSession σ) : ∃ xs, Session.Notes xs t (team.watched.succeed started d t).2 ∧
      Founded initial before xs := by
  obtain ⟨xs, hnotes, hmeasure⟩ := exists_measure team t d
  unfold succeed
  generalize team.watched.measure d t = measured at *
  obtain ⟨reply, s⟩ := measured
  rcases hmeasure with ⟨coverage, rfl, hxs⟩ | ⟨request, message, rfl, rfl⟩
  · exact ⟨xs ++ [_], hnotes.trans ⟨rfl, rfl⟩,
      (Founded.of_ofRound fun y hy => (hxs y hy).1).append (.report _)⟩
  · exact ⟨_, hnotes, .singleton nofun⟩

variable {team}

theorem exists_founded_rounds (henrich : team.KeepsCore) (started remaining : Nat)
    (t : WatchedSession σ) (h : Ready initial t.world.2 d) : ∃ xs,
    Session.Notes xs t (team.watched.rounds started remaining d t).2 ∧
      Founded initial t.world.2 xs := by
  -- as for courses, a round comes before the repairs are counted
  induction remaining using Nat.strongRecOn generalizing d t with
  | ind remaining ih =>
    cases hcancelled : t.cancelled with
    | true =>
      rw [rounds_of_cancelled hcancelled]
      exact ⟨[], .refl, .of_ofRound (by simp)⟩
    | false =>
      rw [rounds_of_running hcancelled]
      obtain ⟨xs, hnotes, hfounded, hnext⟩ := exists_founded_round team t h
      generalize team.watched.round d t = r at *
      obtain ⟨outcome, e, t'⟩ := r
      cases outcome with
      | passed =>
        obtain ⟨ys, hys, hfounded'⟩ :=
          exists_founded_succeed team started initial (t.world.2 ++ xs) e t'
        exact ⟨_, hnotes.trans hys, hfounded.append hfounded'⟩
      | cancelled | error | crashed => exact ⟨xs, hnotes, hfounded⟩
      | failed diagnostics =>
        have hready := hnext diagnostics rfl
        cases remaining with
        | zero => exact ⟨_, hnotes.trans ⟨rfl, rfl⟩, hfounded.append (.report _)⟩
        | succ remaining =>
          obtain ⟨ys, between, hcore, hys⟩ := exists_enrichFromFailure t' henrich
            { e.fail diagnostics with round := e.round + 1 }
          have hboth := hnotes.trans hys
          have hready' := hready.of_core (fun y hy => (between y hy).1) hcore
          rw [List.append_assoc, ← hboth.world] at hready'
          obtain ⟨zs, hzs, hfounded'⟩ := ih remaining (Nat.lt_succ_self remaining) _ hready'
          rw [hboth.world] at hfounded'
          exact ⟨_, hboth.trans hzs, (hfounded.append
            (.of_ofRound fun y hy => (between y hy).1)).append hfounded'⟩

/-- Every repair of a run gets what the calls before it leave. -/
theorem founded_exchanges (henrich : team.KeepsCore) (d : Dossier) (s : Session σ) :
    Founded d.unitTest [] (team.exchanges d s) := by
  unfold exchanges
  cases hcancelled : s.cancelled with
  | true =>
    rw [run_of_cancelled (show s.watched.cancelled = true from hcancelled)]
    exact .of_ofRound (by simp [cancel, Session.watched])
  | false =>
    have hrunning : s.watched.cancelled = false := hcancelled
    cases hgate : team.policy.judge d with
    | refused reason =>
      rw [run_of_refused hrunning (show team.watched.policy.judge d = _ from hgate)]
      exact .report _
    | admitted score =>
      rw [run_of_admitted hrunning (show team.watched.policy.judge d = _ from hgate)]
      have hready : Ready d.unitTest s.watched.world.2 { d with round := 0 } :=
        ⟨rfl, fun hne => absurd rfl hne⟩
      obtain ⟨xs, hnotes, hfounded⟩ := exists_founded_rounds henrich
        (team.watched.clock s.watched.world) team.watched.maxRounds s.watched hready
      rw [hnotes.world]
      exact hfounded

/-- When a repair is about the test in its dossier: the round before it wrote a test, or its
failure reads like the judge's verdict on that test. Otherwise the author is told why there was no
test. -/
theorem repair_about_iff {p : Project} {resolve : Resolve σ} (henrich : team.EnrichesBy p resolve)
    {d e : Dossier} {s : Session σ} {before after : List Exchange} {diagnostics : String}
    {reply : Reply AuthorError UnitTest} {test : UnitTest}
    (hcalls : team.exchanges d s = before ++ .repair e diagnostics reply :: after)
    (htest : e.unitTest = some test) :
    (About before test diagnostics ↔
      (∃ written, lastWritten? before = some (.done written)) ∨
        ∃ reason, lastWritten? before = some (.failed (.noTest reason)) ∧
          About before test reason) ∧
    (¬About before test diagnostics →
      lastWritten? before = some (.failed (.noTest diagnostics))) := by
  have hleaves : Leaves d.unitTest ([] ++ before) e.unitTest diagnostics :=
    founded_exchanges henrich.keepsCore d s before e diagnostics reply after hcalls
  rw [htest] at hleaves
  exact hleaves.about_iff

end

namespace Hush

/-- A team whose author writes one test, which is rejected, and nothing after it. -/
def team : Team Unit where
  author :=
    { generate := fun d _ s => (.done ⟨d.testClassName, ""⟩, false, s)
      repair := fun _ _ _ s => (.failed (.noTest "no code block"), false, s) }
  judge _ _ s := (.done (.fail "no assertion"), false, s)
  archive _ s := (none, s)
  policy := { threshold := 0 }
  maxRounds := 2
  clock _ := 0
  now _ := default

def dossier : Dossier := (Assembly.assemble {} Till.resolve 0 Till.till Till.total 0 0).1

def test : UnitTest := ⟨"Till_total_0_Test", ""⟩

def calls : List Exchange := team.exchanges dossier ⟨(), false, []⟩

theorem enrichesBy : team.EnrichesBy {} fun _ _ s => (.notFound, s) := by
  intro enrich henrich
  cases henrich

/-- The dossier of a repair after some failures. -/
def after (failures : List Failure) : Dossier :=
  { dossier with round := failures.length, unitTest := some test, failures }

/-- The first repair is about the verdict. -/
theorem about_first : About (calls.take 2) test "no assertion" := by
  have hcalls : calls = calls.take 2 ++ .repair (after [⟨0, "no assertion"⟩]) "no assertion"
      (.failed (.noTest "no code block")) :: calls.drop 3 := by
    decide
  have hwritten : lastWritten? (calls.take 2) = some (.done test) := by decide
  exact (repair_about_iff enrichesBy hcalls rfl).1.2 (.inl ⟨test, hwritten⟩)

/-- The second repair is to mend the test by a message that no verdict on the test holds. -/
theorem repair_about_silence : ∃ before e reply later diagnostics,
    calls = before ++ .repair e diagnostics reply :: later ∧ e.unitTest = some test ∧
      .judge test (.done (.fail diagnostics)) ∉ before :=
  ⟨calls.take 3, after [⟨0, "no assertion"⟩, ⟨1, "no code block"⟩],
    .failed (.noTest "no code block"), calls.drop 4, "no code block",
    by decide, rfl, by decide⟩

end Hush

end Team

end Testwright
