import Testwright.Proofs.Attempt.Course
import Testwright.Proofs.Attempt.Enriching

/-!
# Dossiers that grow

What an attempt hands to the author is the dossier that it began with, up to the history of the attempt
and to what enriching has added since (`Dossier.Grows`). A round adds to the history
(`exists_log_round`), diagnostics may add classes (`exists_log_enrichFromFailure`), and nothing is ever
taken away, so the dossiers in the log of a run go up in this order (`grown_run`).

`enrich_laws` puts this together with the laws of enriching.
-/

namespace Testwright

/-- The dossier that a call hands to the author. -/
def Event.authored? : Event → Option Dossier
  | .generate d | .repair d _ => some d
  | _ => none

/-- Apart from the history of the attempt, a dossier extends an earlier one. -/
def Dossier.Grows (d e : Dossier) : Prop :=
  { d with round := e.round, unitTest := e.unitTest, failures := e.failures : Dossier }.Extends e

namespace Dossier.Grows

variable {d e f : Dossier}

theorem refl : d.Grows d := Extends.refl

theorem of_history (round : Nat) (unitTest : Option UnitTest) (failures : List Failure) :
    d.Grows { d with round, unitTest, failures } := Extends.refl

theorem of_extends (h : d.Extends e) : d.Grows e := by
  refine ⟨?_, h.methodDeps, h.externalMethodDeps, h.reconstructed⟩
  rw [h.rest]

theorem trans (h : d.Grows e) (h' : e.Grows f) : d.Grows f := by
  refine ⟨?_, h.methodDeps.trans h'.methodDeps, h.externalMethodDeps.trans h'.externalMethodDeps,
    h.reconstructed.trans h'.reconstructed⟩
  rw [h'.rest, h.rest]

end Dossier.Grows

variable {σ : Type}

/-- From a dossier on, the dossiers that an attempt hands to the author between two sessions grow. -/
def Session.Grown (d : Dossier) (s s' : Session σ) : Prop :=
  ∃ calls, s'.log = s.log ++ calls ∧
    (d :: calls.filterMap Event.authored?).Pairwise Dossier.Grows

namespace Session.Grown

variable {d e : Dossier} {s s' s'' : Session σ} {calls : List Event}

theorem of_quiet (hlog : s'.log = s.log ++ calls) (hcalls : calls.filterMap Event.authored? = []) :
    Grown d s s' := by
  refine ⟨calls, hlog, ?_⟩
  rw [hcalls]
  exact List.pairwise_singleton _ _

/-- It may as well begin with an earlier dossier. -/
theorem of_grows (hgrows : d.Grows e) (h : Grown e s s') : Grown d s s' := by
  obtain ⟨calls, hlog, hcalls⟩ := h
  obtain ⟨hhead, htail⟩ := List.pairwise_cons.1 hcalls
  refine ⟨calls, hlog, List.pairwise_cons.2 ⟨?_, htail⟩⟩
  intro f hf
  exact hgrows.trans (hhead f hf)

/-- It may begin with calls that hand over the first dossier itself, or none. -/
theorem append (hlog : s'.log = s.log ++ calls)
    (hcalls : calls.filterMap Event.authored? = [d] ∨ calls.filterMap Event.authored? = [])
    (h : Grown d s' s'') : Grown d s s'' := by
  obtain ⟨later, hlater, hgrown⟩ := h
  refine ⟨calls ++ later, by rw [hlater, hlog, List.append_assoc], ?_⟩
  rw [List.filterMap_append]
  rcases hcalls with hcalls | hcalls
  · rw [hcalls, List.singleton_append, List.pairwise_cons]
    refine ⟨?_, hgrown⟩
    intro e he
    rcases List.mem_cons.1 he with rfl | he
    · exact .refl
    · exact (List.pairwise_cons.1 hgrown).1 e he
  · rw [hcalls]
    exact hgrown

end Session.Grown

namespace Team

variable {team : Team σ} {p : Project} {resolve : Resolve σ}

/-! ## Rounds -/

theorem exists_log_produce (team : Team σ) (d : Dossier) (s : Session σ) :
    ∃ call, (team.produce d s).2.log = s.log ++ [call] ∧ call.authored? = some d := by
  unfold produce
  split
  · exact ⟨.generate d, rfl, rfl⟩
  · exact ⟨.repair d _, rfl, rfl⟩

/-- A round hands its dossier to the author, and adds to its history. -/
theorem exists_log_round (team : Team σ) (d : Dossier) (s : Session σ) :
    ∃ calls, (team.round d s).2.2.log = s.log ++ calls ∧
      calls.filterMap Event.authored? = [d] ∧ d.Grows (team.round d s).2.1 := by
  obtain ⟨call, hlog, hcall⟩ := exists_log_produce team d s
  have hauthored : [call].filterMap Event.authored? = [d] := by simp [hcall]
  unfold round
  generalize team.produce d s = produced at *
  obtain ⟨reply, s'⟩ := produced
  match reply with
  | .failed (.noTest _) | .failed .cancelled | .failed (.request _) | .crashed _ =>
    exact ⟨[call], hlog, hauthored, .refl⟩
  | .done test =>
    refine ⟨[call] ++ [.judge test], ?_, ?_, .of_history _ _ _⟩
    · rw [← List.append_assoc, ← hlog]
      rfl
    · rw [List.filterMap_append, hauthored]
      rfl

/-- What diagnostics name may be added to the dossier. -/
theorem exists_log_enrichFromFailure (henrich : team.EnrichesBy p resolve) (d : Dossier)
    (s : Session σ) : ∃ calls, (team.enrichFromFailure d s).2.log = s.log ++ calls ∧
      calls.filterMap Event.authored? = [] ∧ d.Extends (team.enrichFromFailure d s).1 := by
  unfold enrichFromFailure
  split
  · next enrich failure hteam hlast =>
    dsimp only
    generalize Diagnostics.classNames failure.diagnostics = names
    split
    · exact ⟨[], (List.append_nil _).symm, rfl, .refl⟩
    · refine ⟨[.enrich names], rfl, rfl, ?_⟩
      rw [henrich enrich hteam names (d, s.world)]
      exact (Assembly.enrich_extends p resolve names (d, s.world)).1
  · exact ⟨[], (List.append_nil _).symm, rfl, .refl⟩

/-! ## The end of an attempt -/

theorem exists_log_measure (team : Team σ) (d : Dossier) (s : Session σ) :
    ∃ calls, (team.measure d s).2.log = s.log ++ calls ∧ calls.filterMap Event.authored? = [] := by
  unfold measure
  split
  · next meter paths test hmeter htest =>
    let request : CoverageRequest :=
      ⟨test.source, test.className, d.className, d.methodSignature, paths⟩
    refine ⟨[.measure request], ?_, rfl⟩
    dsimp only
    have hlog : (s.call (.measure request) (meter request)).2.log = s.log ++ [.measure request] := rfl
    generalize s.call (.measure request) (meter request) = called at *
    match called with
    | (.done _, _) | (.failed _, _) | (.crashed _, _) => exact hlog
  · exact ⟨[], (List.append_nil _).symm, rfl⟩

theorem grown_keep (d : Dossier) (r : Report) (s : Session σ) : s.Grown d (team.keep r s) := by
  have hlog : (team.keep r s).log = s.log ++ [.report r] := rfl
  exact .of_quiet hlog rfl

theorem grown_succeed (started : Nat) (d e : Dossier) (s : Session σ) :
    s.Grown d (team.succeed started e s).2 := by
  obtain ⟨calls, hlog, hcalls⟩ := exists_log_measure team e s
  unfold succeed
  generalize team.measure e s = measured at *
  obtain ⟨reply, s'⟩ := measured
  cases reply with
  | error message => exact .of_quiet hlog hcalls
  | ok coverage => exact .append hlog (.inr hcalls) (grown_keep ..)

/-! ## Runs -/

theorem grown_rounds (henrich : team.EnrichesBy p resolve) (started remaining : Nat) (d : Dossier)
    (s : Session σ) : s.Grown d (team.rounds started remaining d s).2 := by
  -- a round comes before the repairs are counted
  induction remaining using Nat.strongRecOn generalizing d s with
  | ind remaining ih =>
    cases hcancelled : s.cancelled with
    | true =>
      rw [rounds_of_cancelled hcancelled]
      exact .of_quiet (List.append_nil _).symm rfl
    | false =>
      rw [rounds_of_running hcancelled]
      obtain ⟨calls, hlog, hcalls, hround⟩ := exists_log_round team d s
      generalize team.round d s = r at *
      obtain ⟨outcome, e, s'⟩ := r
      apply Session.Grown.append hlog (.inl hcalls)
      cases outcome with
      | passed => exact grown_succeed started d e s'
      | cancelled | error | crashed => exact .of_quiet (List.append_nil _).symm rfl
      | failed diagnostics =>
        cases remaining with
        | zero => exact grown_keep ..
        | succ remaining =>
          have hnext : d.Grows { e.fail diagnostics with round := e.round + 1 } :=
            hround.trans (.of_history _ _ _)
          obtain ⟨calls', hlog', hcalls', hextends⟩ := exists_log_enrichFromFailure henrich
            { e.fail diagnostics with round := e.round + 1 } s'
          apply Session.Grown.append hlog' (.inr hcalls')
          apply Session.Grown.of_grows (hnext.trans (.of_extends hextends))
          exact ih remaining (Nat.lt_succ_self remaining) _ _

/-- In a run nothing is taken from the dossier. -/
theorem grown_run (henrich : team.EnrichesBy p resolve) (d : Dossier) (s : Session σ) :
    s.Grown d (team.run d s).2 := by
  cases hcancelled : s.cancelled with
  | true =>
    rw [run_of_cancelled hcancelled]
    exact .of_quiet (List.append_nil _).symm rfl
  | false =>
    cases hgate : team.policy.judge d with
    | refused reason =>
      rw [run_of_refused hcancelled hgate]
      exact grown_keep ..
    | admitted score =>
      rw [run_of_admitted hcancelled hgate]
      exact .of_grows (.of_history _ _ _) (grown_rounds henrich _ _ _ s)

end Team

/-! ## Laws of enriching -/

namespace Assembly

/-- A dossier after an enrichment. -/
def enriched (p : Project) (resolve : Resolve σ) (names : Names) (s : σ) (d : Dossier) : Dossier :=
  (enrich p resolve names (d, s)).2.1

/-- The count that an enrichment returns. -/
def added (p : Project) (resolve : Resolve σ) (names : Names) (s : σ) (d : Dossier) : Nat :=
  (enrich p resolve names (d, s)).1

/-- Enriching a dossier is like adding a set of names to a set, whatever states in `I` the resolver is
in. -/
structure Additive (p : Project) (resolve : Resolve σ) (I : σ → Prop) (d : Dossier) : Prop where
  steady : ∀ S s, I s → I (enrich p resolve S (d, s)).2.2
  comm : ∀ S T (s t s' t' : {s // I s}),
    enriched p resolve T t (enriched p resolve S s d) =
      enriched p resolve S s' (enriched p resolve T t' d)
  union : ∀ S T (s t u : {s // I s}),
    enriched p resolve T t (enriched p resolve S s d) = enriched p resolve (S.union T) u d
  /-- The counts are those of the classes gained. -/
  gained : ∀ S T s t, (enriched p resolve T t (enriched p resolve S s d)).called =
    d.called + added p resolve S s d + added p resolve T t (enriched p resolve S s d)
  added_union : ∀ S T (s t u : {s // I s}), added p resolve (S.union T) u d =
    added p resolve S s d + added p resolve T t (enriched p resolve S s d)
  repeated : ∀ S (s t : {s // I s}),
    enriched p resolve S t (enriched p resolve S s d) = enriched p resolve S s d ∧
      added p resolve S t (enriched p resolve S s d) = 0
  kept : ∀ S s, d.Extends (enriched p resolve S s d)

variable {I : σ → Prop} {answer : String → Names → Resolution} {p : Project} {resolve : Resolve σ}
  {S T : Names}

theorem called_enriched (names : Names) (s : σ) (d : Dossier) :
    (enriched p resolve names s d).called = d.called + added p resolve names s d :=
  (enrich_extends p resolve names (d, s)).2

theorem enriched_eq (h : Steady I answer resolve) (names : Names) (s : {s // I s}) (d : Dossier) :
    enriched p resolve names s d = names.toList.foldl (offer (entryOf p answer)) d :=
  (enrich_eq_offer h names d s.2).1

theorem enriched_enriched (h : Steady I answer resolve) (s t : {s // I s}) (d : Dossier) :
    enriched p resolve T t (enriched p resolve S s d) =
      (S.toList ++ T.toList).foldl (offer (entryOf p answer)) d := by
  rw [enriched_eq h, enriched_eq h, List.foldl_append]

theorem additive_enrich (h : Steady I answer resolve) (d : Dossier) : Additive p resolve I d := by
  have union (S T : Names) (s t u : {s // I s}) :
      enriched p resolve T t (enriched p resolve S s d) = enriched p resolve (S.union T) u d := by
    rw [enriched_enriched h, enriched_eq h]
    apply foldl_offer_congr
    intro name
    rw [List.mem_append, Names.mem_toList, Names.mem_toList, Names.mem_toList, Names.contains_union]
  have gained (S T : Names) (s t : σ) :
      (enriched p resolve T t (enriched p resolve S s d)).called =
        d.called + added p resolve S s d + added p resolve T t (enriched p resolve S s d) := by
    rw [called_enriched, called_enriched]
  have repeated (S : Names) (s t : {s // I s}) :
      enriched p resolve S t (enriched p resolve S s d) = enriched p resolve S s d := by
    rw [enriched_enriched h, enriched_eq h]
    exact foldl_offer_absorb fun _ hname => hname
  constructor
  case steady => exact fun S s hs => (enrich_eq_offer h S d hs).2
  case union => exact union
  case gained => exact gained
  case comm =>
    intro S T s t s' t'
    rw [enriched_enriched h, enriched_enriched h]
    apply foldl_offer_congr
    intro name
    rw [List.mem_append, List.mem_append, or_comm]
  case added_union =>
    intro S T s t u
    have hboth := gained S T s t
    rw [union S T s t u, called_enriched] at hboth
    omega
  case repeated =>
    intro S s t
    refine ⟨repeated S s t, ?_⟩
    have htwice : (enriched p resolve S t (enriched p resolve S s d)).called = _ :=
      called_enriched S t.1 (enriched p resolve S s d)
    rw [repeated] at htwice
    omega
  case kept => exact fun S s => (enrich_extends p resolve S (d, s)).1

/-- **Enriching.** With a resolver whose answers depend on the question alone, sets of names may be added
to a dossier in any order, at once or repeatedly; the counts are those of the classes gained, and all
that was there stays. So the dossiers that an attempt hands to its author, one after another, differ in
its history and in what enriching added. -/
theorem enrich_laws (h : Steady I answer resolve) (d : Dossier) :
    Additive p resolve I d ∧ ∀ team : Team σ, team.EnrichesBy p resolve →
      ∀ s : Session σ, s.Grown d (team.run d s).2 := by
  constructor
  · exact additive_enrich h d
  · intro team henrich s
    exact Team.grown_run henrich d s

end Assembly

namespace Team.Till

def dossier : Dossier := (Assembly.assemble {} resolve 0 till total 0 0).1

/-- The first test does not compile for want of a rate. -/
def compiler : Team Nat :=
  { team with
    judge := fun _ _ calls =>
      (.done (if calls = 0 then .fail "location: class Rate" else .pass), false, calls + 1) }

theorem steady : Assembly.Steady (fun _ => True) (fun name _ => (resolve name ∅ 0).1) resolve :=
  fun _ _ _ _ => ⟨rfl, trivial⟩

open Assembly in
/-- Of two classes one is new, and with it the author is to repair the test. -/
theorem enrich_laws_till :
    Additive {} resolve (fun _ => True) dossier ∧
    added {} resolve (.ofList ["Rate", "Tax"]) 0 dossier = 1 ∧
    compiler.EnrichesBy {} resolve ∧ ∃ calls,
      (compiler.run dossier ⟨0, false, []⟩).2.log = [] ++ calls ∧
      (dossier :: calls.filterMap Event.authored?).Pairwise Dossier.Grows ∧
      (calls.filterMap Event.authored?).map (·.externalMethodDeps.keys) = [["Tax"], ["Rate", "Tax"]] := by
  obtain ⟨hadditive, hgrown⟩ := enrich_laws (p := {}) steady dossier
  have henrich : compiler.EnrichesBy {} resolve := enrichesBy
  obtain ⟨calls, hlog, hcalls⟩ := hgrown compiler henrich ⟨0, false, []⟩
  refine ⟨hadditive, by decide +kernel, henrich, calls, hlog, hcalls, ?_⟩
  rw [List.nil_append] at hlog
  rw [← hlog]
  decide +kernel

end Team.Till

end Testwright
