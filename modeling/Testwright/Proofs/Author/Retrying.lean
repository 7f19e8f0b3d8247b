import Mathlib.Algebra.Ring.Nat
import Testwright.Author.Model
import Testwright.Proofs.Attempt.Watching

/-!
# What a model is asked

A model answers one request after another, and its author repeats a request as long as the answer is an
error that another try may mend. `Answers.Taken` says which answers one task of an author takes,
`Answers.Served` what becomes of tasks one after another, and `Answers.usage` what the answers so far
cost. One induction over the retries (`ask_completer`) carries the rest: tasks in a row take the answers
where the task before left off, and an attempt takes no more than its rounds allow
(`requests_account`).
-/

namespace Testwright

/-- The answers of a model, one for each request in turn. A queue is continued by the answer that stands
for its end. -/
abbrev Answers := Nat → Except ProviderError Completion

namespace Answers

def ofQueue (queue : List (Except ProviderError Completion)) : Answers := fun n =>
  queue[n]?.getD (.error .emptyResponse)

/-- The model that gives these answers, whatever it is asked. Its state counts the requests. -/
def completer (answers : Answers) : Completer Nat := fun _ _ _ n =>
  match answers n with
  | .ok c => (.done c, false, n + 1)
  | .error e => (.failed e, false, n + 1)

/-- No other try follows: the answer is a completion or an error for good. -/
def Final (answer : Except ProviderError Completion) : Prop :=
  ∀ e, answer = .error e → e.isRetryable = false

/-- A task for which answer `n` is the next takes the answers before `m`: those up to the first final
one, and no more than there are tries. -/
structure Taken (answers : Answers) (retries n m : Nat) : Prop where
  lt : n < m
  le : m ≤ n + (retries + 1)
  retried : ∀ i, n ≤ i → i + 1 < m → ¬Final (answers i)
  ended : Final (answers (m - 1)) ∨ m = n + (retries + 1)

/-- What a request comes to with its last answer. -/
def reply : Except ProviderError Completion → Reply AuthorError Completion
  | .ok c => .done c
  | .error e => .failed (.request e.message)

def completions (answers : Answers) (n : Nat) : List Completion :=
  (List.range n).filterMap fun i => (answers i).toOption

/-- The usage after the first `n` answers: completions count, errors do not. -/
def usage (answers : Answers) (rates : Rates) (n : Nat) : Usage where
  rates
  calls := (answers.completions n).length
  inputTokens := ((answers.completions n).map fun c => c.inputTokens.getD 0).sum
  outputTokens := ((answers.completions n).map fun c => c.outputTokens.getD 0).sum

variable {answers : Answers} {rates : Rates} {retries n m : Nat}

theorem completions_succ :
    answers.completions (n + 1) = answers.completions n ++ (answers n).toOption.toList := by
  rw [completions, List.range_succ, List.filterMap_append]
  cases h : (answers n).toOption with
  | none => simp [completions, h]
  | some c => simp [completions, h]

theorem usage_of_ok {c : Completion} (h : answers n = .ok c) :
    answers.usage rates (n + 1) = (answers.usage rates n).record c.inputTokens c.outputTokens := by
  have hnew : (answers n).toOption.toList = [c] := by rw [h]; rfl
  simp [usage, Usage.record, completions_succ, hnew]

theorem usage_of_error {e : ProviderError} (h : answers n = .error e) :
    answers.usage rates (n + 1) = answers.usage rates n := by
  have hnew : (answers n).toOption.toList = [] := by rw [h]; rfl
  simp [usage, completions_succ, hnew]

theorem taken_succ (h : Final (answers n)) : answers.Taken retries n (n + 1) where
  lt := Nat.lt_succ_self n
  le := Nat.add_le_add_left (Nat.succ_le_succ (Nat.zero_le _)) n
  retried i hle hlt := by omega
  ended := .inl h

theorem taken_zero : answers.Taken 0 n (n + 1) where
  lt := Nat.lt_succ_self n
  le := Nat.le_refl _
  retried i hle hlt := by omega
  ended := .inr rfl

/-- Another try takes what a task would take that begins with it. -/
theorem Taken.retry (hfirst : ¬Final (answers n)) (h : answers.Taken retries (n + 1) m) :
    answers.Taken (retries + 1) n m where
  lt := Nat.lt_of_succ_lt h.lt
  le := by have := h.le; omega
  retried i hle hlt := by
    rcases Nat.eq_or_lt_of_le hle with rfl | hle
    · exact hfirst
    · exact h.retried i hle hlt
  ended := by
    apply h.ended.imp_right
    intro hm
    omega

/-- A request takes its answers and comes to what the last of them says. -/
theorem ask_completer (system user : String) : ∃ m, answers.Taken retries n m ∧
    Completer.ask (answers.completer system user) retries false (answers.usage rates n, n) =
      (reply (answers (m - 1)), false, answers.usage rates m, m) := by
  induction retries generalizing n with
  | zero =>
    refine ⟨n + 1, taken_zero, ?_⟩
    cases hanswer : answers n with
    | ok c => simp [Completer.ask, completer, hanswer, reply, usage_of_ok hanswer]
    | error e => simp [Completer.ask, completer, hanswer, reply, usage_of_error hanswer]
  | succ retries ih =>
    cases hanswer : answers n with
    | ok c =>
      have hfinal : Final (answers n) := by
        rw [hanswer]
        nofun
      refine ⟨n + 1, taken_succ hfinal, ?_⟩
      simp [Completer.ask, completer, hanswer, reply, usage_of_ok hanswer]
    | error e =>
      cases hretry : e.isRetryable with
      | false =>
        have hfinal : Final (answers n) := by
          intro e' he'
          rw [hanswer] at he'
          cases he'
          exact hretry
        refine ⟨n + 1, taken_succ hfinal, ?_⟩
        simp [Completer.ask, completer, hanswer, hretry, reply, usage_of_error hanswer]
      | true =>
        have hfirst : ¬Final (answers n) := by
          intro hfinal
          simp [hfinal e hanswer] at hretry
        obtain ⟨m, htaken, hask⟩ := ih (n := n + 1)
        refine ⟨m, htaken.retry hfirst, ?_⟩
        rw [usage_of_error hanswer] at hask
        simp [Completer.ask, completer, hanswer, hretry, hask]

end Answers

/-! ## Tasks one after another -/

/-- What an author is asked for. -/
inductive Task where
  | generate (d : Dossier)
  | repair (d : Dossier) (diagnostics : String)

def Task.dossier : Task → Dossier
  | generate d => d
  | repair d _ => d

namespace Author

variable {σ : Type}

def perform (author : Author σ) : Task → Call σ AuthorError UnitTest
  | .generate d => author.generate d
  | .repair d diagnostics => author.repair d diagnostics

/-- The replies to some tasks in a run that is not cancelled. -/
def serve (author : Author σ) : List Task → σ → List (Reply AuthorError UnitTest) × σ
  | [], s => ([], s)
  | task :: tasks, s =>
    let (reply, _, s) := author.perform task false s
    let (replies, s) := author.serve tasks s
    (reply :: replies, s)

end Author

namespace Answers

/-- The author that a model with these answers makes. -/
def author (answers : Answers) (retries : Nat) : Author (Usage × Nat) :=
  Completer.author answers.completer retries

/-- Tasks take the answers from `n` on, each where the one before left off, and the replies are read
off the last answer that each takes. -/
inductive Served (answers : Answers) (retries : Nat) :
    Nat → List Task → List (Reply AuthorError UnitTest) → Nat → Prop
  | nil {n} : Served answers retries n [] [] n
  | cons {n m k task tasks replies} (taken : answers.Taken retries n m)
    (others : Served answers retries m tasks replies k) :
    Served answers retries n (task :: tasks)
      (Completer.readTest task.dossier (reply (answers (m - 1))) :: replies) k

variable {answers : Answers} {rates : Rates} {retries n : Nat}

theorem perform_author (task : Task) : ∃ m, answers.Taken retries n m ∧
    (answers.author retries).perform task false (answers.usage rates n, n) =
      (Completer.readTest task.dossier (reply (answers (m - 1))), false, answers.usage rates m, m) := by
  have answered (d : Dossier) (user : String) : ∃ m, answers.Taken retries n m ∧
      Completer.answer answers.completer retries d user false (answers.usage rates n, n) =
        (Completer.readTest d (reply (answers (m - 1))), false, answers.usage rates m, m) := by
    obtain ⟨m, htaken, hask⟩ := @ask_completer answers rates retries n Prompt.instructions user
    refine ⟨m, htaken, ?_⟩
    rw [Completer.answer, hask]
  cases task with
  | generate d => exact answered d (Prompt.generation d)
  | repair d diagnostics => exact answered d (Completer.repairRequest d diagnostics)

theorem serve_author (tasks : List Task) : ∃ m,
    answers.Served retries n tasks
      ((answers.author retries).serve tasks (answers.usage rates n, n)).1 m ∧
    ((answers.author retries).serve tasks (answers.usage rates n, n)).2 =
      (answers.usage rates m, m) := by
  induction tasks generalizing n with
  | nil => exact ⟨n, .nil, rfl⟩
  | cons task tasks ih =>
    obtain ⟨m, htaken, htask⟩ := @perform_author answers rates retries n task
    obtain ⟨k, hserved, hstate⟩ := ih (n := m)
    rw [Author.serve, htask]
    exact ⟨k, .cons htaken hserved, hstate⟩

end Answers

/-! ## Attempts -/

namespace Team

variable {σ τ : Type}

/-- An author writes the tests of a team. It works on a part of the state that the others leave alone. -/
structure Employs (team : Team τ) (author : Author σ) (part : τ → σ) : Prop where
  generate : ∀ d cancelled t,
    Prod.map id (Prod.map id part) (team.author.generate d cancelled t) =
      author.generate d cancelled (part t)
  repair : ∀ d diagnostics cancelled t,
    Prod.map id (Prod.map id part) (team.author.repair d diagnostics cancelled t) =
      author.repair d diagnostics cancelled (part t)
  judge : ∀ test cancelled t, part (team.judge test cancelled t).2.2 = part t
  archive : ∀ r t, part (team.archive r t).2 = part t
  meter : ∀ meter, team.meter = some meter → ∀ request cancelled t,
    part (meter.1 request cancelled t).2.2 = part t
  enrich : ∀ enrich, team.enrich = some enrich → ∀ names st, part (enrich names st).2 = part st.2

namespace Employs

section
variable {team : Team τ} {author : Author σ} {part : τ → σ}

theorem keep (h : team.Employs author part) (r : Report) (s : Session τ) :
    part (team.keep r s).world = part s.world :=
  h.archive r s.world

theorem measure (h : team.Employs author part) (d : Dossier) (s : Session τ) :
    part (team.measure d s).2.world = part s.world := by
  unfold Team.measure
  cases hmeter : team.meter with
  | none => rfl
  | some meter =>
    cases d.unitTest with
    | none => rfl
    | some test =>
      let request : CoverageRequest :=
        ⟨test.source, test.className, d.className, d.methodSignature, meter.2⟩
      have hcall : part (s.call (.measure request) (meter.1 request)).2.world = part s.world :=
        h.meter meter hmeter request s.cancelled s.world
      simp only
      generalize s.call (.measure request) (meter.1 request) = r at hcall
      obtain ⟨reply, s'⟩ := r
      cases reply <;> exact hcall

theorem succeed (h : team.Employs author part) (started : Nat) (d : Dossier) (s : Session τ) :
    part (team.succeed started d s).2.world = part s.world := by
  have hmeasure := h.measure d s
  unfold Team.succeed
  generalize team.measure d s = r at hmeasure
  obtain ⟨measured, s'⟩ := r
  cases measured with
  | ok coverage => exact (h.keep _ s').trans hmeasure
  | error message => exact hmeasure

theorem enrichFromFailure (h : team.Employs author part) (d : Dossier) (s : Session τ) :
    part (team.enrichFromFailure d s).2.world = part s.world := by
  unfold Team.enrichFromFailure
  cases henrich : team.enrich with
  | none => rfl
  | some enrich =>
    cases d.lastFailure? with
    | none => rfl
    | some failure =>
      simp only
      split
      · rfl
      · exact h.enrich enrich henrich _ (d, s.world)

end

variable {team : Team τ} {answers : Answers} {rates : Rates} {retries n : Nat}
  {part : τ → Usage × Nat} {s : Session τ}

/-- Writing or repairing a test is one task of the author. -/
theorem produce (h : team.Employs (answers.author retries) part) (d : Dossier)
    (hs : part s.world = (answers.usage rates n, n)) (hrunning : s.cancelled = false) :
    ∃ m, n ≤ m ∧ m ≤ n + (retries + 1) ∧
      part (team.produce d s).2.world = (answers.usage rates m, m) := by
  have performed (task : Task) {r : Reply AuthorError UnitTest × Bool × τ}
      (hr : Prod.map id (Prod.map id part) r =
        (answers.author retries).perform task s.cancelled (part s.world)) :
      ∃ m, n ≤ m ∧ m ≤ n + (retries + 1) ∧ part r.2.2 = (answers.usage rates m, m) := by
    obtain ⟨m, htaken, htask⟩ := @Answers.perform_author answers rates retries n task
    rw [hs, hrunning, htask] at hr
    exact ⟨m, Nat.le_of_lt htaken.lt, htaken.le, congrArg (fun r => r.2.2) hr⟩
  unfold Team.produce
  split
  · exact performed (.generate d) (h.generate d s.cancelled s.world)
  · let diagnostics := (d.lastFailure?.map Failure.diagnostics).getD ""
    exact performed (.repair d diagnostics) (h.repair d diagnostics s.cancelled s.world)

theorem round (h : team.Employs (answers.author retries) part) (d : Dossier)
    (hs : part s.world = (answers.usage rates n, n)) (hrunning : s.cancelled = false) :
    ∃ m, n ≤ m ∧ m ≤ n + (retries + 1) ∧
      part (team.round d s).2.2.world = (answers.usage rates m, m) := by
  obtain ⟨m, hle, hbound, hpart⟩ := h.produce d hs hrunning
  refine ⟨m, hle, hbound, ?_⟩
  unfold Team.round
  generalize team.produce d s = r at hpart
  obtain ⟨reply, s'⟩ := r
  match reply with
  | .failed (.noTest _) | .failed .cancelled | .failed (.request _) | .crashed _ => exact hpart
  | .done test => exact (h.judge test s'.cancelled s'.world).trans hpart

/-- Each round that may still come is one task of the author. -/
theorem rounds (h : team.Employs (answers.author retries) part) (started remaining : Nat) (d : Dossier)
    (hs : part s.world = (answers.usage rates n, n)) :
    ∃ m, n ≤ m ∧ m ≤ n + (remaining + 1) * (retries + 1) ∧
      part (team.rounds started remaining d s).2.world = (answers.usage rates m, m) := by
  -- not by zero and successor, as cancelling and a round come before the repairs are counted
  induction remaining using Nat.strongRecOn generalizing d s n with
  | ind remaining ih =>
    cases hcancelled : s.cancelled with
    | true =>
      rw [rounds_of_cancelled hcancelled]
      exact ⟨n, Nat.le_refl n, Nat.le_add_right .., hs⟩
    | false =>
      rw [rounds_of_running hcancelled]
      obtain ⟨m, hle, hbound, hpart⟩ := h.round d hs hcancelled
      have hbound' : m ≤ n + (remaining + 1) * (retries + 1) := by
        apply Nat.le_trans hbound
        apply Nat.add_le_add_left
        exact Nat.le_mul_of_pos_left _ (Nat.succ_pos remaining)
      generalize team.round d s = r at hpart
      obtain ⟨outcome, d', s'⟩ := r
      match outcome with
      | .passed => exact ⟨m, hle, hbound', (h.succeed started d' s').trans hpart⟩
      | .cancelled | .error _ | .crashed _ => exact ⟨m, hle, hbound', hpart⟩
      | .failed diagnostics =>
        cases remaining with
        | zero => exact ⟨m, hle, hbound', (h.keep _ s').trans hpart⟩
        | succ remaining =>
          let next : Dossier := { d'.fail diagnostics with round := (d'.fail diagnostics).round + 1 }
          obtain ⟨k, hmk, hk, hend⟩ := ih remaining (Nat.lt_succ_self remaining)
            (team.enrichFromFailure next s').1 ((h.enrichFromFailure next s').trans hpart)
          refine ⟨k, Nat.le_trans hle hmk, ?_, hend⟩
          calc k ≤ m + (remaining + 1) * (retries + 1) := hk
            _ ≤ n + (retries + 1) + (remaining + 1) * (retries + 1) := Nat.add_le_add_right hbound _
            _ = n + (remaining + 1 + 1) * (retries + 1) := by
              rw [Nat.add_mul (remaining + 1), Nat.one_mul, Nat.add_assoc, Nat.add_comm (retries + 1)]

theorem run (h : team.Employs (answers.author retries) part) (d : Dossier)
    (hs : part s.world = (answers.usage rates n, n)) :
    ∃ m, n ≤ m ∧ m ≤ n + (team.maxRounds + 1) * (retries + 1) ∧
      part (team.run d s).2.world = (answers.usage rates m, m) := by
  cases hcancelled : s.cancelled with
  | true =>
    rw [run_of_cancelled hcancelled]
    exact ⟨n, Nat.le_refl n, Nat.le_add_right .., hs⟩
  | false =>
    cases hgate : team.policy.judge d with
    | refused reason =>
      rw [run_of_refused hcancelled hgate]
      exact ⟨n, Nat.le_refl n, Nat.le_add_right .., (h.keep _ s).trans hs⟩
    | admitted score =>
      rw [run_of_admitted hcancelled hgate]
      exact h.rounds (team.clock s.world) team.maxRounds { d with round := 0 } hs

end Employs

end Team

namespace Answers

/-- **Requests.** Tasks one after another take the answers of a model in turn, each those up to the first
final one and no more than it has tries, and reply by the last that they take. The usage counts the
completions among the answers taken, with their tokens. An attempt takes no more answers than its rounds
have tries. -/
theorem requests_account (answers : Answers) (rates : Rates) (retries : Nat) :
    (∀ tasks : List Task, ∃ m,
      answers.Served retries 0 tasks ((answers.author retries).serve tasks ({ rates }, 0)).1 m ∧
      ((answers.author retries).serve tasks ({ rates }, 0)).2 = (answers.usage rates m, m)) ∧
    ∀ (τ : Type) (team : Team τ) (part : τ → Usage × Nat),
      team.Employs (answers.author retries) part → ∀ (d : Dossier) (s : Session τ) (n : Nat),
        part s.world = (answers.usage rates n, n) → ∃ m, n ≤ m ∧
          m ≤ n + (team.maxRounds + 1) * (retries + 1) ∧
          part (team.run d s).2.world = (answers.usage rates m, m) := by
  constructor
  · intro tasks
    exact serve_author tasks
  · intro τ team part hemploys d s n hs
    exact hemploys.run d hs

/-- A model that is overloaded, then asks back, then writes a test. -/
def shaky : Answers := ofQueue
  [.error (.api 503 "overloaded"), .ok ⟨"I need more context.", some 5, none⟩,
    .ok ⟨"\x60\x60\x60java\nclass T \x7b\x7d\n\x60\x60\x60", some 7, some 2⟩]

/-- A team of that model and a judge who accepts every test. -/
def desk : Team (Usage × Nat) where
  author := shaky.author 1
  judge _ _ t := (.done .pass, false, t)
  archive _ t := (none, t)
  policy := { threshold := 0 }
  maxRounds := 1
  clock _ := 0
  now _ := default

theorem employs_desk : desk.Employs (shaky.author 1) id where
  generate _ _ _ := rfl
  repair _ _ _ _ := rfl
  judge _ _ _ := rfl
  archive _ _ := rfl
  meter := nofun
  enrich := nofun

/-- Of four requests that the attempt may make it makes three, and two of them are completed. -/
theorem requests_account_desk :
    let dossier : Dossier := { reconstructed := .ofList ["Tax"] }
    let rates : Rates := ⟨.zero false, .zero false⟩
    let s : Session (Usage × Nat) := ⟨({ rates }, 0), false, []⟩
    (∃ m, m ≤ 4 ∧ (desk.run dossier s).2.world = (shaky.usage rates m, m)) ∧
      (desk.run dossier s).2.world = ({ rates, calls := 2, inputTokens := 12, outputTokens := 2 }, 3) := by
  intro dossier rates s
  obtain ⟨m, -, hbound, hworld⟩ :=
    (requests_account shaky rates 1).2 _ desk id employs_desk dossier s 0 rfl
  refine ⟨⟨m, hbound, hworld⟩, ?_⟩
  decide

end Answers

end Testwright
