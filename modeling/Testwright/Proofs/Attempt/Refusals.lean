import Testwright.Proofs.Attempt.DirectCalls
import Testwright.Proofs.Attempt.Enriching
import Testwright.Proofs.Attempt.Reporting

/-!
# Attempts that the gate refuses

The gate admits no dossier without a reconstructed class, whatever its policy (`exists_refused`). If a
resolver finds nothing (`Barren`), an assembled dossier has none (`activations_assemble`), so the attempt
makes no call but the one to the archive. This holds of attempts in one go (`refused_sequential`) and of
attempts that take turns (`Peaceful.run`); `attempts_refused` puts both together.
-/

namespace Testwright

variable {σ : Type}

/-! ## Dossiers without reconstructed classes -/

namespace Assembly

variable {I : σ → Prop} {answer : String → Names → Resolution} {p : Project} {resolve : Resolve σ}
  {st st' : Dossier × σ}

/-- In certain states a resolver finds no class, and the state after it is such a state again. -/
def Barren (I : σ → Prop) (resolve : Resolve σ) : Prop :=
  ∀ name wanted s, I s → I (resolve name wanted s).2 ∧
    ∀ reconstruction pruned, (resolve name wanted s).1 ≠ .found reconstruction pruned

theorem barren_of_steady (h : Steady I answer resolve)
    (hanswer : ∀ name wanted reconstruction pruned, answer name wanted ≠ .found reconstruction pruned) :
    Barren I resolve := by
  intro name wanted s hs
  obtain ⟨heq, hnext⟩ := h name wanted s hs
  rw [heq]
  exact ⟨hnext, hanswer name wanted⟩

/-- Without a decompiler nothing is found. -/
theorem barren_resolve {r : Resolver} (h : r.decompiler = none) (p : Project) :
    Barren (Cache.Coherent r) (r.resolve p) := by
  apply barren_of_steady (steady_resolve r p)
  intro name wanted reconstruction pruned
  unfold Resolver.answer Resolver.scan
  rw [h]
  split <;> nofun

theorem barren_filing (h : Barren I resolve) (hs : I st.2) (step : Filing p resolve st st') :
    I st'.2 ∧ st'.1.reconstructed = st.1.reconstructed := by
  obtain ⟨need, name, wanted, -, rfl⟩ := step
  generalize hres : fileDependency p resolve need name wanted st = res
  cases fileDependency_filed hres with
  | present => exact ⟨hs, rfl⟩
  | own => exact ⟨hs, by cases need <;> rfl⟩
  | unresolved fresh foreign resolved =>
    have hnext := (h name (normalizeSignatures wanted) _ hs).1
    rw [resolved] at hnext
    exact ⟨hnext, rfl⟩
  | external fresh foreign resolved =>
    have hnone := (h name (normalizeSignatures wanted) _ hs).2
    rw [resolved] at hnone
    exact absurd rfl (hnone _ _)

theorem barren_filings (h : Barren I resolve) (hs : I st.2) (steps : Filings p resolve st st') :
    I st'.2 ∧ st'.1.reconstructed = st.1.reconstructed := by
  induction steps with
  | refl => exact ⟨hs, rfl⟩
  | tail _ step ih =>
    obtain ⟨hmid, heq⟩ := ih
    obtain ⟨hnext, heq'⟩ := barren_filing h hmid step
    exact ⟨hnext, heq'.trans heq⟩

theorem activations_assemble (h : Barren I resolve) (p : Project) (depth : Nat) (c : ClassInfo)
    (m : MethodInfo) (attempt : Nat) {s : σ} (hs : I s) :
    I (assemble p resolve depth c m attempt s).2 ∧
      (assemble p resolve depth c m attempt s).1.activations = 0 := by
  obtain ⟨st, steps, heq⟩ := filings_assemble p resolve depth c m attempt s
  obtain ⟨hnext, hnone⟩ := barren_filings h hs steps
  rw [heq]
  exact ⟨hnext, congrArg Dict.size hnone⟩

end Assembly

/-! ## The gate -/

namespace GatePolicy

variable {policy : GatePolicy} {d : Dossier} {score : Nat}

theorem of_judge_admitted (h : policy.judge d = .admitted score) :
    policy.threshold ≤ policy.score d.methodSource ∧ d.activations ≠ 0 := by
  unfold judge decide at h
  split at h
  · cases h
  · next hscore =>
    split at h
    · cases h
    · next hactive => exact ⟨Nat.le_of_not_lt hscore, hactive⟩

theorem exists_refused (policy : GatePolicy) (h : d.activations = 0) :
    ∃ reason, policy.judge d = .refused reason := by
  cases hgate : policy.judge d with
  | refused reason => exact ⟨reason, rfl⟩
  | admitted score => exact absurd h (of_judge_admitted hgate).2

end GatePolicy

namespace Team

variable {team : Team σ} {d : Dossier}

/-- An attempt calls author and judge only if the gate admits its dossier. -/
theorem exists_admitted_of_ofRound {s : Session σ} {x : Exchange} (h : x ∈ team.exchanges d s)
    (hx : x.ofRound = true) : ∃ score, team.policy.judge d = .admitted score := by
  unfold exchanges at h
  cases hcancelled : s.cancelled with
  | true =>
    rw [run_of_cancelled (show s.watched.cancelled = true from hcancelled)] at h
    cases h
  | false =>
    cases hgate : team.policy.judge d with
    | admitted score => exact ⟨score, rfl⟩
    | refused reason =>
      rw [run_of_refused (show s.watched.cancelled = false from hcancelled)
        (show team.watched.policy.judge d = _ from hgate)] at h
      rw [List.mem_singleton.1 h] at hx
      cases hx

/-- An attempt over an assembled dossier calls author and judge only for a dossier with a class from a
library. -/
theorem external_of_ofRound {p : Project} {resolve : Resolve σ} {depth : Nat} {c : ClassInfo}
    {m : MethodInfo} {attempt : Nat} {w : σ}
    (hd : d = (Assembly.assemble p resolve depth c m attempt w).1) {s : Session σ} {x : Exchange}
    (h : x ∈ team.exchanges d s) (hx : x.ofRound = true) :
    (d.externalConstructorDeps ≠ ∅ ∨ d.externalMethodDeps ≠ ∅) ∧
      team.policy.threshold ≤ team.policy.score d.methodSource := by
  obtain ⟨score, hgate⟩ := exists_admitted_of_ofRound h hx
  obtain ⟨hscore, hactive⟩ := GatePolicy.of_judge_admitted hgate
  refine ⟨?_, hscore⟩
  have hfiled : d.WellFiled p := hd ▸ Assembly.wellFiled_assemble p resolve depth c m attempt w
  rw [hfiled.activations, hfiled.size_reconstructed] at hactive
  by_contra hnone
  rw [not_or, not_not, not_not] at hnone
  rw [hnone.1, hnone.2] at hactive
  exact hactive rfl

end Team

/-! ## Attempts in one go -/

/-- The report of an attempt that was skipped. -/
def Report.IsRefusal (r : Report) : Prop := r.status = .skipped ∧ r.round = 0

namespace Campaign

variable {c : Campaign σ} {I : σ → Prop} {r : Report} {t : Logged σ}

/-- In certain worlds all assembled dossiers are without reconstructed classes, and neither assembling nor
an archive leads to another world. -/
structure Barren (c : Campaign σ) (I : σ → Prop) : Prop where
  numbered : c.Numbered
  activations : ∀ index w, I w → (c.assemble index w).1.activations = 0
  assembled : ∀ index w, I w → I (c.assemble index w).2
  archived : ∀ archive ∈ c.before ++ c.after, ∀ r w, I w → I (archive r w).2

theorem barren_assemble {p : Project} {resolve : Resolve σ} {depth : Nat} {k : ClassInfo}
    {m : MethodInfo} (henrich : c.team.EnrichesBy p resolve)
    (hassemble : c.assemble = Assembly.assemble p resolve depth k m)
    (hbarren : Assembly.Barren I resolve)
    (harchived : ∀ archive ∈ c.before ++ c.after, ∀ r w, I w → I (archive r w).2) : c.Barren I where
  numbered := numbered_assemble henrich hassemble
  activations index w hw := by
    rw [hassemble]
    exact (Assembly.activations_assemble hbarren p depth k m index hw).2
  assembled index w hw := by
    rw [hassemble]
    exact (Assembly.activations_assemble hbarren p depth k m index hw).1
  archived := harchived

theorem all_append (l l' : List (Archive (Logged σ))) :
    (Archive.all (l ++ l') r t).2 = (Archive.all l' r (Archive.all l r t).2).2 := by
  induction l generalizing t with
  | nil => rfl
  | cons archive l ih => exact ih

theorem all_beside {l : List (Archive σ)} (h : ∀ archive ∈ l, ∀ r s, I s → I (archive r s).2)
    (ht : I t.1) : I (Archive.all (l.map .beside) r t).2.1 ∧
      (Archive.all (l.map .beside) r t).2.2 = t.2 := by
  induction l generalizing t with
  | nil => exact ⟨ht, rfl⟩
  | cons archive l ih =>
    have hnext : I (archive.beside r t).2.1 := h archive List.mem_cons_self r t.1 ht
    exact ih (fun a ha => h a (List.mem_cons_of_mem archive ha)) hnext

/-- A report gets into the log once. -/
theorem all_archives (h : c.Barren I) (ht : I t.1) :
    I (Archive.all c.archives r t).2.1 ∧ (Archive.all c.archives r t).2.2 = t.2 ++ [r] := by
  obtain ⟨hbefore, hkept⟩ := all_beside (r := r) (l := c.before)
    (fun a ha => h.archived a (List.mem_append_left _ ha)) ht
  rw [archives, all_append]
  generalize (Archive.all (c.before.map Archive.beside) r t).2 = t' at *
  obtain ⟨hafter, hkept'⟩ := all_beside (r := r) (l := c.after) (t := (t'.1, t'.2 ++ [r]))
    (fun a ha => h.archived a (List.mem_append_right _ ha)) hbefore
  exact ⟨hafter, hkept'.trans (by rw [hkept])⟩

/-- Between two states of a schedule some attempts were refused, and only their reports were handed
out. -/
structure Refused (I : σ → Prop) (reports : List Report)
    (s s' : Schedule.State (Logged σ × List Event)) : Prop where
  world : I s'.world.1.1
  running : s'.cancelled = false
  refusals : ∀ r ∈ reports, r.IsRefusal
  kept : s'.world.1.2 = s.world.1.2 ++ reports
  log : s'.world.2 = s.world.2 ++ reports.map .report
  started : s'.started = s.started ++ reports.map Report.attempt

section
variable {reports reports' : List Report} {s s' s'' : Schedule.State (Logged σ × List Event)}

theorem Refused.refl (hw : I s.world.1.1) (hs : s.cancelled = false) : Refused I [] s s where
  world := hw
  running := hs
  refusals := by simp
  kept := by simp
  log := by simp
  started := by simp

theorem Refused.trans (h : Refused I reports s s') (h' : Refused I reports' s' s'') :
    Refused I (reports ++ reports') s s'' where
  world := h'.world
  running := h'.running
  refusals r hr := (List.mem_append.1 hr).elim (h.refusals r) (h'.refusals r)
  kept := by rw [h'.kept, h.kept, List.append_assoc]
  log := by rw [h'.log, h.log, List.map_append, List.append_assoc]
  started := by rw [h'.started, h.started, List.map_append, List.append_assoc]

theorem refused_attempt (h : c.Barren I) (hw : I s.world.1.1) (hs : s.cancelled = false)
    (index : Nat) : ∃ r, r.attempt = index ∧
      (Schedule.attempt c.attempts index s).1 = .finished .skipped ∧
      Refused I [r] s (Schedule.attempt c.attempts index s).2 := by
  obtain ⟨⟨⟨w, kept⟩, log⟩, cancelled, started⟩ := s
  cases hs
  obtain ⟨reason, hgate⟩ := c.crew.policy.exists_refused (h.activations index w hw)
  have hnumber := h.numbered.assemble index w
  have hnext := h.assembled index w hw
  generalize hd : c.assemble index w = x at hgate hnumber hnext
  obtain ⟨d, w'⟩ := x
  let r : Report := .skipped d reason.message (c.crew.now (w', kept))
  have hrun : c.crew.run d ⟨(w', kept), false, log⟩ = _ := Team.run_of_refused rfl hgate
  have hattempt : Schedule.attempt c.attempts index ⟨((w, kept), log), false, started⟩ =
      (.finished .skipped, ⟨((Archive.all c.archives r (w', kept)).2, log ++ [.report r]), false,
        started ++ [index]⟩) := by
    simp only [Schedule.attempt, attempts, Team.attempts, assembleBeside, hd, hrun]
    rfl
  obtain ⟨hworld, hkept⟩ := all_archives (r := r) (t := (w', kept)) h hnext
  rw [hattempt]
  refine ⟨r, hnumber, rfl, hworld, rfl, ?_, hkept, rfl, ?_⟩
  · intro r' hr'
    rw [List.mem_singleton.1 hr']
    exact ⟨rfl, rfl⟩
  · rw [← hnumber]
    rfl

theorem refused_sequential (h : c.Barren I) (hw : I s.world.1.1) (hs : s.cancelled = false)
    (stop : Bool) (index count : Nat) :
    ∃ reports, reports.map Report.attempt = .range' index count ∧
      (Schedule.sequential c.attempts stop index count s).1 = .replicate count (.finished .skipped) ∧
      Refused I reports s (Schedule.sequential c.attempts stop index count s).2 := by
  induction count generalizing index s with
  | zero => exact ⟨[], rfl, rfl, .refl hw hs⟩
  | succ count ih =>
    obtain ⟨r, hr, houtcome, hrefused⟩ := refused_attempt h hw hs index
    rw [Schedule.sequential]
    generalize Schedule.attempt c.attempts index s = x at *
    obtain ⟨outcome, s'⟩ := x
    obtain ⟨reports, hreports, houtcomes, hrest⟩ := ih hrefused.world hrefused.running (index + 1)
    dsimp only at houtcome hrefused hrest houtcomes ⊢
    -- a skipped attempt is no success to stop at
    have hpassed : (stop && outcome.passed) = false := by
      rw [houtcome]
      exact Bool.and_false stop
    rw [hpassed, if_neg Bool.false_ne_true, houtcome]
    refine ⟨[r] ++ reports, ?_, ?_, hrefused.trans hrest⟩
    · rw [List.singleton_append, List.map_cons, hr, hreports, List.range'_succ]
    · rw [houtcomes, List.replicate_succ]

theorem refused_run (h : c.Barren I) (hw : I s.world.1.1) (hs : s.cancelled = false) (mode : Mode)
    (count : Nat) : ∃ reports, reports.map Report.attempt = .range count ∧
      (Schedule.run mode count c.attempts s).1.outcomes = .replicate count (.finished .skipped) ∧
      Refused I reports s (Schedule.run mode count c.attempts s).2 := by
  rw [List.range_eq_range']
  cases mode with
  | stopAtSuccess => exact refused_sequential h hw hs true 0 count
  | exhaustive => exact refused_sequential h hw hs false 0 count
  | parallel =>
    simp only [Schedule.run, Schedule.parallel_range]
    exact refused_sequential h hw hs false 0 count

end

/-! ## Attempts that take turns -/

/-- The stages of an attempt that is refused. -/
inductive Calm (I : σ → Prop) : Stage σ → Prop
  | idle : Calm I .idle
  | begun : Calm I .begun
  | assembled {d : Dossier} (unreconstructed : d.activations = 0) : Calm I (.assembled d)
  | reporting {r : Report} {archives : List (Archive (Logged σ))}
    (archived : ∀ archive ∈ archives, ∀ r t, I t.1 → I (archive r t).2.1) :
    Calm I (.reporting .skipped r archives)
  | ended : Calm I (.ended (.finished .skipped))

/-- The world is one of those in which nothing is reconstructed, and nobody but the archives was called. -/
structure Still (I : σ → Prop) (s : LoggedSession σ) : Prop where
  world : I s.world.1
  running : s.cancelled = false
  log : ∀ event ∈ s.log, ∃ r, event = .report r

theorem Calm.archived (h : c.Barren I) :
    ∀ archive ∈ c.archives, ∀ r t, I t.1 → I (archive r t).2.1 := by
  have beside {l : List (Archive σ)} (hl : ∀ archive ∈ l, ∀ r w, I w → I (archive r w).2) :
      ∀ archive ∈ l.map Archive.beside, ∀ r t, I t.1 → I (archive r t).2.1 := by
    intro archive harchive r t ht
    obtain ⟨own, hown, rfl⟩ := List.mem_map.1 harchive
    exact hl own hown r t.1 ht
  intro archive harchive r t ht
  rcases List.mem_append.1 harchive with hbefore | hlater
  · exact beside (fun a ha => h.archived a (List.mem_append_left _ ha)) archive hbefore r t ht
  · rcases List.mem_cons.1 hlater with rfl | hafter
    · exact ht
    · exact beside (fun a ha => h.archived a (List.mem_append_right _ ha)) archive hafter r t ht

/-- A step of an attempt that is refused hands out a report at most. -/
theorem Calm.step (h : c.Barren I) {stage : Stage σ} (hcalm : Calm I stage) {s : LoggedSession σ}
    (hs : Still I s) (index : Nat) : Calm I (c.step index stage s).1 ∧
      (c.step index stage s).1 ≠ .idle ∧ Still I (c.step index stage s).2 := by
  cases hcalm with
  | idle =>
    rw [Campaign.step, hs.running]
    exact ⟨.begun, by rintro ⟨⟩, hs⟩
  | begun =>
    exact ⟨.assembled (h.activations index s.world.1 hs.world), by rintro ⟨⟩,
      h.assembled index s.world.1 hs.world, hs.running, hs.log⟩
  | @assembled d unreconstructed =>
    obtain ⟨reason, hgate⟩ := c.crew.policy.exists_refused unreconstructed
    rw [Campaign.step, hs.running, hgate]
    refine ⟨.reporting (Calm.archived h), by rintro ⟨⟩, hs.world, hs.running, ?_⟩
    intro event hevent
    rcases List.mem_append.1 hevent with hold | hnew
    · exact hs.log event hold
    · exact ⟨_, List.mem_singleton.1 hnew⟩
  | @reporting r archives archived =>
    cases archives with
    | nil => exact ⟨.ended, by rintro ⟨⟩, hs⟩
    | cons archive rest =>
      refine ⟨.reporting fun a ha => archived a (List.mem_cons_of_mem archive ha), by rintro ⟨⟩, ?_,
        hs.running, hs.log⟩
      exact archived archive List.mem_cons_self r s.world hs.world
  | ended => exact ⟨.ended, by rintro ⟨⟩, hs⟩

/-- A turn that neither cancels the run nor leads to another world. -/
def Mild (I : σ → Prop) : Turn σ → Prop
  | .step _ => True
  | .drift f => ∀ w, I w → I (f w)
  | .cancel => False

/-- After some turns all attempts are refused ones, and those that had a turn have begun. -/
structure Peaceful (I : σ → Prop) (past : List (Turn σ)) (j : Joint σ) : Prop where
  still : Still I j.session
  attempts : ∀ (index : Nat) a, j.attempts[index]? = some a →
    Calm I a.stage ∧ (a.stage = .idle → .step index ∉ past)

variable {past : List (Turn σ)} {j : Joint σ}

theorem Peaceful.turn (h : c.Barren I) (hj : Peaceful I past j) {t : Turn σ} (ht : Mild I t) :
    Peaceful I (past ++ [t]) (c.turn j t) := by
  -- an attempt whose turn it is not stays as it is
  have others (k : Nat) (a : Attempt σ) (ha : j.attempts[k]? = some a) (hk : t ≠ .step k) :
      Calm I a.stage ∧ (a.stage = .idle → .step k ∉ past ++ [t]) := by
    obtain ⟨hcalm, hbegun⟩ := hj.attempts k a ha
    refine ⟨hcalm, fun hidle => ?_⟩
    rw [List.mem_append, List.mem_singleton, not_or]
    exact ⟨hbegun hidle, Ne.symm hk⟩
  cases t with
  | cancel => cases ht
  | drift f =>
    refine ⟨⟨ht _ hj.still.world, hj.still.running, hj.still.log⟩, ?_⟩
    intro k a ha
    exact others k a ha (by simp)
  | step index =>
    cases hattempt : j.attempts[index]? with
    | none =>
      rw [turn_step_of_none hattempt]
      refine ⟨hj.still, ?_⟩
      intro k a ha
      apply others k a ha
      rintro ⟨⟩
      rw [hattempt] at ha
      cases ha
    | some a =>
      obtain ⟨hcalm, hbegun, hstill⟩ :=
        (hj.attempts index a hattempt).1.step h hj.still index
      have hindex : index < j.attempts.length := (List.getElem?_eq_some_iff.1 hattempt).1
      rw [turn_step_of_some hattempt]
      refine ⟨hstill, ?_⟩
      intro k b hb
      by_cases hk : index = k
      · subst hk
        rw [List.getElem?_set_self hindex] at hb
        cases hb
        exact ⟨hcalm, fun hidle => absurd hidle hbegun⟩
      · rw [List.getElem?_set_ne hk] at hb
        exact others k b hb (by simpa using hk)

theorem Peaceful.run (h : c.Barren I) (hj : Peaceful I past j) {turns : List (Turn σ)}
    (hturns : ∀ t ∈ turns, Mild I t) : Peaceful I (past ++ turns) (c.run j turns) := by
  induction turns generalizing past j with
  | nil => simpa [Campaign.run] using hj
  | cons t turns ih =>
    have hnext := hj.turn h (hturns t List.mem_cons_self)
    have hrest := ih hnext fun t' ht' => hturns t' (List.mem_cons_of_mem t ht')
    rwa [List.append_assoc, List.singleton_append] at hrest

/-! ## All attempts -/

/-- What becomes of attempts side by side: each that has begun is skipped and leaves one report, and nobody
but the archives was called. -/
structure Skips (turns : List (Turn σ)) (kept : List Report) (j : Joint σ) (outcomes : List Outcome)
    (received : List Report) : Prop where
  kept : j.session.world.2 = kept ++ received
  log : ∀ event ∈ j.session.log, ∃ r, event = .report r
  outcomes : ∀ (index : Nat) outcome, outcomes[index]? = some outcome →
    (outcome = .finished .skipped ∧
      ∃ r, received.filter (·.attempt == index) = [r] ∧ r.IsRefusal) ∨
    (outcome = .notStarted ∧ received.filter (·.attempt == index) = [] ∧ .step index ∉ turns)

theorem Peaceful.skips {turns : List (Turn σ)} (hj : Peaceful I turns j) {kept : List Report}
    {n : Nat} {outcomes : List Outcome} {received : List Report} (hends : j.Ends outcomes)
    (hreceived : Accounted n kept j outcomes received) : Skips turns kept j outcomes received where
  kept := hreceived.log
  log := hj.still.log
  outcomes index outcome houtcome := by
    obtain ⟨a, ha, hreported⟩ := hreceived.reported index outcome houtcome
    have hstage := congrArg (·[index]?) hends
    simp only [List.getElem?_map, houtcome, ha, Option.map_some, Option.some.injEq] at hstage
    obtain ⟨hcalm, hbegun⟩ := hj.attempts index a ha
    generalize a.stage = stage at hstage hcalm hbegun
    cases hcalm with
    | idle =>
      cases hstage
      generalize received.filter (·.attempt == index) = reports at hreported
      cases hreported
      exact .inr ⟨rfl, rfl, hbegun rfl⟩
    | ended =>
      cases hstage
      generalize received.filter (·.attempt == index) = reports at hreported
      cases hreported with
      | @once _ r kept agrees => exact .inl ⟨rfl, r, rfl, agrees.status, agrees.round⟩
      | cancelled status => cases status
    | begun | assembled | reporting => cases hstage

theorem skips_run (h : c.Barren I) {w : σ} (hw : I w) (kept : List Report) (count : Nat)
    {turns : List (Turn σ)} (hturns : ∀ t ∈ turns, Mild I t) {outcomes : List Outcome}
    (hends : (c.run (.start count ⟨(w, kept), false, []⟩) turns).Ends outcomes) :
    ∃ received, Skips turns kept (c.run (.start count ⟨(w, kept), false, []⟩) turns) outcomes
      received := by
  have hstart : Peaceful I [] (.start count ⟨(w, kept), false, []⟩) := by
    refine ⟨⟨hw, rfl, fun _ hevent => absurd hevent List.not_mem_nil⟩, ?_⟩
    intro index a ha
    have hmem : a ∈ List.replicate count {} := List.mem_of_getElem? ha
    rw [List.eq_of_mem_replicate hmem]
    exact ⟨.idle, fun _ => List.not_mem_nil⟩
  have htidy : c.Tidy kept (.start count ⟨(w, kept), false, []⟩) [] := tidy_start count rfl
  obtain ⟨received, hreceived⟩ := htidy.run h.numbered turns
  exact ⟨received, (hstart.run h hturns).skips hends (hreceived.accounted hends)⟩

/-- **Attempts without reconstructed classes.** If the resolver reconstructs nothing, then in every mode,
and whatever turns the attempts take, each of them is skipped in round 0 with one report, and neither
author nor judge nor meter is called. In general they are called only for a dossier with a class from a
library and a method that branches often enough. -/
theorem attempts_refused {c : Campaign σ} {p : Project} {resolve : Resolve σ} {depth : Nat}
    {k : ClassInfo} {m : MethodInfo} {I : σ → Prop} (henrich : c.team.EnrichesBy p resolve)
    (hassemble : c.assemble = Assembly.assemble p resolve depth k m)
    (hbarren : Assembly.Barren I resolve)
    (harchived : ∀ archive ∈ c.before ++ c.after, ∀ r w, I w → I (archive r w).2)
    {w : σ} (hw : I w) (kept : List Report) (count : Nat) :
    (∀ mode, ∃ reports, reports.map Report.attempt = .range count ∧
      (Schedule.run mode count c.attempts ⟨((w, kept), []), false, []⟩).1.outcomes =
        .replicate count (.finished .skipped) ∧
      Refused I reports ⟨((w, kept), []), false, []⟩
        (Schedule.run mode count c.attempts ⟨((w, kept), []), false, []⟩).2) ∧
    (∀ turns outcomes, (∀ t ∈ turns, Mild I t) →
      (c.run (.start count ⟨(w, kept), false, []⟩) turns).Ends outcomes →
      ∃ received, Skips turns kept (c.run (.start count ⟨(w, kept), false, []⟩) turns) outcomes
        received) ∧
    ∀ {τ : Type} (team : Team τ) (p : Project) (resolve : Resolve τ) depth c m attempt w s x,
      let d := (Assembly.assemble p resolve depth c m attempt w).1
      x ∈ team.exchanges d s → x.ofRound = true →
        (d.externalConstructorDeps ≠ ∅ ∨ d.externalMethodDeps ≠ ∅) ∧
          team.policy.threshold ≤ team.policy.score d.methodSource := by
  have h : c.Barren I := barren_assemble henrich hassemble hbarren harchived
  refine ⟨?_, ?_, ?_⟩
  · intro mode
    exact refused_run h hw rfl mode count
  · intro turns outcomes hturns hends
    exact skips_run h hw kept count hturns hends
  · intro τ team p resolve depth c m attempt w s x d hx hround
    exact Team.external_of_ofRound rfl hx hround

end Campaign

namespace Assembly.Shop

/-- A team whose first test would pass, for a shop without libraries. -/
def team : Team Cache where
  author :=
    { generate := fun d _ s => (.done ⟨d.testClassName, ""⟩, false, s)
      repair := fun d _ _ s => (.done ⟨d.testClassName, ""⟩, false, s) }
  judge _ _ s := (.done .pass, false, s)
  archive _ s := (none, s)
  enrich := some fun names st => (enrich shop (Resolver.resolve {} shop) names st).2
  policy := { threshold := 1 }
  clock _ := 0
  now _ := default

def campaign : Campaign Cache where
  team := team
  assemble := assemble shop (Resolver.resolve {} shop) 1 cart total
  before := [fun _ s => (some "no space left", s)]

theorem enrichesBy : team.EnrichesBy shop (Resolver.resolve {} shop) := by
  intro enrich henrich names st
  rw [← Option.some.inj henrich]

/-- Of three attempts the second one begins before the first one, and both get on in turns. -/
def turns : List (Turn Cache) := (List.replicate 6 [.step 1, .step 0]).flatten

/-- The shop has no libraries; a till has one, and a test is written for it. -/
theorem attempts_refused_shop :
    (Schedule.run .parallel 3 campaign.attempts ⟨(({}, []), []), false, []⟩).1.outcomes =
      .replicate 3 (.finished .skipped) ∧
    (∃ received, Campaign.Skips turns [] (campaign.run (.start 3 ⟨({}, []), false, []⟩) turns)
      [.finished .skipped, .finished .skipped, .notStarted] received) ∧
    ∃ x ∈ Team.Till.team.exchanges
      (assemble {} Team.Till.resolve 0 Team.Till.till Team.Till.total 0 0).1 ⟨0, false, []⟩,
      x.ofRound = true ∧ Team.Till.team.policy.threshold ≤
        Team.Till.team.policy.score Team.Till.total.source := by
  have hbarren : Barren (Cache.Coherent {}) (Resolver.resolve {} shop) := barren_resolve rfl shop
  have harchived : ∀ archive ∈ campaign.before ++ campaign.after, ∀ r w,
      Cache.Coherent {} w → Cache.Coherent {} (archive r w).2 := by
    intro archive harchive r w hw
    rw [List.mem_singleton.1 harchive]
    exact hw
  obtain ⟨modes, sideBySide, general⟩ := Campaign.attempts_refused (c := campaign) enrichesBy rfl
    hbarren harchived (Resolver.coherent_empty {}) [] 3
  refine ⟨?_, ?_, ?_⟩
  · obtain ⟨reports, -, houtcomes, -⟩ := modes .parallel
    exact houtcomes
  · apply sideBySide
    · intro t ht
      obtain ⟨pair, hpair, ht⟩ := List.mem_flatten.1 ht
      rw [List.eq_of_mem_replicate hpair] at ht
      simp only [List.mem_cons, List.not_mem_nil, or_false] at ht
      rcases ht with rfl | rfl <;> exact trivial
    · rfl
  · have hexchange : ∃ x ∈ Team.Till.team.exchanges
        (assemble {} Team.Till.resolve 0 Team.Till.till Team.Till.total 0 0).1 ⟨0, false, []⟩,
        x.ofRound = true := by decide
    obtain ⟨x, hx, hround⟩ := hexchange
    obtain ⟨-, hscore⟩ := general Team.Till.team {} Team.Till.resolve 0 Team.Till.till Team.Till.total
      0 0 ⟨0, false, []⟩ x hx hround
    exact ⟨x, hx, hround, hscore⟩

end Assembly.Shop

end Testwright
