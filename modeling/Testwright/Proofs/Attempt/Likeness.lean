import Testwright.Proofs.Attempt.Filing

/-!
# Assembling the same dossier twice

What the assembler does depends on the dossier only up to the attempt and on the resolver only
through its answers. `Match` relates two states of the assembler whose dossiers are alike and whose
resolvers are in related states; if the resolvers agree from related states on, filing a class
keeps the relation (`match_fileDependency`), and so does everything that is made of filings
(`match_follow`, `match_assemble`, `match_enrich`).
-/

namespace Testwright

/-- Dossiers that differ at most in the attempt. -/
def Dossier.Alike (d e : Dossier) : Prop := ∃ attempt, e = { d with attempt }

namespace Dossier.Alike

variable {d e : Dossier} {name : String}

theorem refl : d.Alike d := ⟨d.attempt, rfl⟩

theorem isTarget_eq (h : d.Alike e) : e.isTarget name = d.isTarget name := by
  obtain ⟨_, rfl⟩ := h
  rfl

theorem hasDependency_eq (h : d.Alike e) : e.hasDependency name = d.hasDependency name := by
  obtain ⟨_, rfl⟩ := h
  rfl

theorem fileOwn (h : d.Alike e) (need : Need) (source : String) :
    (Assembly.fileOwn need d name source).Alike (Assembly.fileOwn need e name source) := by
  obtain ⟨attempt, rfl⟩ := h
  exact ⟨attempt, by cases need <;> rfl⟩

theorem fileExternal (h : d.Alike e) (need : Need) (source : String) :
    (Assembly.fileExternal need d name source).Alike
      (Assembly.fileExternal need e name source) := by
  obtain ⟨attempt, rfl⟩ := h
  exact ⟨attempt, by cases need <;> rfl⟩

theorem describe (h : d.Alike e) (c : ClassInfo) (m : MethodInfo) :
    (Assembly.describe c m d).Alike (Assembly.describe c m e) := by
  obtain ⟨attempt, rfl⟩ := h
  exact ⟨attempt, rfl⟩

theorem start (c : ClassInfo) (m : MethodInfo) (i j : Nat) :
    (Dossier.start c m i).Alike (Dossier.start c m j) := ⟨j, rfl⟩

/-- The attempt of the second dossier is all that it can differ in. -/
theorem eq_of_attempt {attempt : Nat} (h : d.Alike e) (he : e.attempt = attempt) :
    e = { d with attempt } := by
  obtain ⟨_, rfl⟩ := h
  exact he ▸ rfl

theorem eq (h : d.Alike e) (he : e.attempt = d.attempt) : e = d :=
  h.eq_of_attempt he

end Dossier.Alike

namespace Assembly

variable {σ τ : Type}

/-- From related states two ways to resolve classes give one answer and go on to related states. -/
def Agree (R : σ → τ → Prop) (resolve : Resolve σ) (resolve' : Resolve τ) : Prop :=
  ∀ name wanted s t, R s t → ∃ resolution s' t', resolve name wanted s = (resolution, s') ∧
    resolve' name wanted t = (resolution, t') ∧ R s' t'

/-- The dossiers are alike and the states of the resolvers related. -/
structure Match (R : σ → τ → Prop) (st : Dossier × σ) (st' : Dossier × τ) : Prop where
  alike : st.1.Alike st'.1
  related : R st.2 st'.2

variable {R : σ → τ → Prop} {resolve : Resolve σ} {resolve' : Resolve τ} {p : Project}
  {st : Dossier × σ} {st' : Dossier × τ}

theorem match_fileDependency (hagree : Agree R resolve resolve') (h : Match R st st')
    (need : Need) (name : String) (wanted : Names) :
    ∃ calls st₁ st₁', fileDependency p resolve need name wanted st = (calls, st₁) ∧
      fileDependency p resolve' need name wanted st' = (calls, st₁') ∧ Match R st₁ st₁' := by
  obtain ⟨d, s⟩ := st
  obtain ⟨e, t⟩ := st'
  obtain ⟨halike, hrelated⟩ := h
  simp only [fileDependency, halike.hasDependency_eq]
  by_cases known : d.hasDependency name = true
  · simp only [known, if_true]
    exact ⟨_, _, _, rfl, rfl, halike, hrelated⟩
  simp only [known, Bool.false_eq_true, if_false]
  cases p.class? name with
  | some c => exact ⟨_, _, _, rfl, rfl, halike.fileOwn need _, hrelated⟩
  | none =>
    obtain ⟨resolution, s', t', hs, ht, hnext⟩ :=
      hagree name (normalizeSignatures wanted) s t hrelated
    rw [hs, ht]
    cases resolution with
    | found reconstruction pruned =>
      exact ⟨_, _, _, rfl, rfl, halike.fileExternal need _, hnext⟩
    | notApplicable | notFound | unusable => exact ⟨_, _, _, rfl, rfl, halike, hnext⟩

theorem match_visit {n : Nat} (hagree : Agree R resolve resolve')
    (hfollow : ∀ calls st st', Match R st st' →
      Match R (follow p resolve n calls st) (follow p resolve' n calls st'))
    (h : Match R st st') (e : String × Names) :
    Match R (visit p resolve n st e) (visit p resolve' n st' e) := by
  obtain ⟨calls, st₁, st₁', hf, hf', h₁⟩ := match_fileDependency (p := p) hagree h .call e.1 e.2
  unfold visit
  rw [hf, hf']
  cases calls with
  | none => exact h₁
  | some next => exact hfollow next _ _ h₁

theorem match_follow (hagree : Agree R resolve resolve') (n : Nat) (calls : Calls)
    (h : Match R st st') :
    Match R (follow p resolve n calls st) (follow p resolve' n calls st') := by
  induction n generalizing calls st st' with
  | zero => exact h
  | succ n ih =>
    rw [follow_succ, follow_succ]
    refine List.foldl_rel h fun e _ st st' h => ?_
    unfold followStep
    rw [h.alike.isTarget_eq, h.alike.hasDependency_eq]
    split
    · exact h
    · exact match_visit hagree (fun calls _ _ h => ih calls h) h e

theorem match_fileConstructorNeed (hagree : Agree R resolve resolve') (m : MethodInfo)
    (h : Match R st st') (e : String × Names) :
    Match R (fileConstructorNeed p resolve m st e) (fileConstructorNeed p resolve' m st' e) := by
  unfold fileConstructorNeed
  rw [h.alike.isTarget_eq]
  split
  · exact h
  · obtain ⟨_, _, _, hf, hf', h₁⟩ := match_fileDependency (p := p) hagree h .constructor e.1 e.2
    rw [hf, hf']
    exact h₁

theorem match_fileCall (hagree : Agree R resolve resolve') (depth : Nat) (c : ClassInfo)
    (h : Match R st st') (e : String × Names) :
    Match R (fileCall p resolve depth c st e) (fileCall p resolve' depth c st' e) := by
  rw [fileCall_eq, fileCall_eq]
  split
  · exact h
  · exact match_visit hagree (fun calls _ _ => match_follow hagree depth calls) h e

variable {depth : Nat} {c : ClassInfo} {m : MethodInfo}

theorem match_assemble (hagree : Agree R resolve resolve') {s : σ} {t : τ} (hrelated : R s t)
    (i j : Nat) :
    Match R (assemble p resolve depth c m i s) (assemble p resolve' depth c m j t) := by
  have hneeds : Match R (beforeCalls p resolve c m i s) (beforeCalls p resolve' c m j t) :=
    List.foldl_rel ⟨.start c m i j, hrelated⟩ fun e _ _ _ h =>
      match_fileConstructorNeed hagree m h e
  have hcalls := List.foldl_rel (l := m.calls.edges) hneeds fun e _ _ _ h =>
    match_fileCall (p := p) hagree depth c h e
  exact ⟨hcalls.alike.describe c m, hcalls.related⟩

theorem match_enrich (hagree : Agree R resolve resolve') (h : Match R st st') (names : Names) :
    (enrich p resolve names st).1 = (enrich p resolve' names st').1 ∧
      Match R (enrich p resolve names st).2 (enrich p resolve' names st').2 := by
  rw [enrich_eq_foldl, enrich_eq_foldl]
  refine List.foldl_rel (r := fun (x : Nat × _) (y : Nat × _) => x.1 = y.1 ∧ Match R x.2 y.2)
    ⟨rfl, h⟩ fun name _ x y ⟨hadded, h⟩ => ?_
  obtain ⟨calls, st₁, st₁', hf, hf', h₁⟩ := match_fileDependency (p := p) hagree h .call name ∅
  unfold enrichStep
  rw [h.alike.isTarget_eq, h.alike.hasDependency_eq, hadded]
  split
  · exact ⟨hadded, h⟩
  rw [hf, hf']
  cases calls with
  | none => exact ⟨rfl, h₁⟩
  | some next => exact ⟨rfl, h₁⟩

theorem attempt_assemble (p : Project) (resolve : Resolve σ) (depth : Nat) (c : ClassInfo)
    (m : MethodInfo) (attempt : Nat) (s : σ) :
    (assemble p resolve depth c m attempt s).1.attempt = attempt := by
  obtain ⟨st, steps, heq⟩ := filings_assemble p resolve depth c m attempt s
  rw [heq]
  exact (Dossier.history_of_core (core_filings steps)).1

theorem attempt_enrich (p : Project) (resolve : Resolve σ) (names : Names) (st : Dossier × σ) :
    (enrich p resolve names st).2.1.attempt = st.1.attempt :=
  (Dossier.history_of_core (core_filings (filings_enrich names st))).1

end Assembly

end Testwright
