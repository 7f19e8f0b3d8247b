import Mathlib.Logic.Relation
import Testwright.Attempt.Assembly
import Testwright.Proofs.Data.Dict

/-!
# Filing dependencies

All that assembling and enriching do to the dependencies of a dossier is to file one class after
another. `Filed` lists what filing a class can come to, and `fileDependency_filed` says that the
list is complete, so that an invariant of dossiers needs one case for each constructor.

A `Filing` is a step that files a class other than the target. `filings_assemble` and
`filings_enrich` show a run of the assembler to be a chain of such steps; along a chain the method
under test and the history of the attempt stay as they are (`core_filings`), and so does the entry
of every class that is filed already (`sameEntry_filings`).
-/

namespace Testwright

/-- A dossier without its dependencies. -/
def Dossier.core (d : Dossier) : Dossier :=
  { d with
    constructorDeps := ∅, externalConstructorDeps := ∅, methodDeps := ∅, externalMethodDeps := ∅
    reconstructed := ∅ }

theorem Dossier.isTarget_of_core {d e : Dossier} (h : e.core = d.core) (name : String) :
    e.isTarget name = d.isTarget name := by
  change (name == e.core.className || name == e.core.simpleClassName) = _
  rw [h]
  rfl

/-- The history of an attempt is a part of the core. -/
theorem Dossier.history_of_core {d e : Dossier} (h : e.core = d.core) :
    e.attempt = d.attempt ∧ e.round = d.round ∧ e.unitTest = d.unitTest ∧
      e.failures = d.failures := by
  change e.core.attempt = d.core.attempt ∧ e.core.round = d.core.round ∧
    e.core.unitTest = d.core.unitTest ∧ e.core.failures = d.core.failures
  rw [h]
  exact ⟨rfl, rfl, rfl, rfl⟩

theorem Dossier.isTarget_start (c : ClassInfo) (m : MethodInfo) (attempt : Nat) (name : String) :
    (Dossier.start c m attempt).isTarget name = c.isNamed name := rfl

/-- In all four maps a class has the same entry. -/
structure Dossier.SameEntry (name : String) (d e : Dossier) : Prop where
  constructorDeps : e.constructorDeps.get? name = d.constructorDeps.get? name
  externalConstructorDeps :
    e.externalConstructorDeps.get? name = d.externalConstructorDeps.get? name
  methodDeps : e.methodDeps.get? name = d.methodDeps.get? name
  externalMethodDeps : e.externalMethodDeps.get? name = d.externalMethodDeps.get? name

namespace Dossier.SameEntry

variable {name : String} {d e f : Dossier}

theorem refl : SameEntry name d d := ⟨rfl, rfl, rfl, rfl⟩

theorem trans (h : SameEntry name d e) (h' : SameEntry name e f) : SameEntry name d f :=
  ⟨h'.1.trans h.1, h'.2.trans h.2, h'.3.trans h.3, h'.4.trans h.4⟩

theorem hasDependency_eq (h : SameEntry name d e) : e.hasDependency name = d.hasDependency name := by
  simp [Dossier.hasDependency, Dict.contains, h.1, h.2, h.3, h.4]

end Dossier.SameEntry

namespace Assembly

variable {σ : Type} {p : Project} {resolve : Resolve σ} {need : Need} {name : String}
  {wanted : Names} {st st' : Dossier × σ}

/-! ## One class -/

/-- What filing a class with its wanted methods can come to. -/
inductive Filed (p : Project) (resolve : Resolve σ) (need : Need) (name : String)
    (wanted : Names) : Dossier × σ → Option Calls × (Dossier × σ) → Prop
  | present {d s} (known : d.hasDependency name = true) :
    Filed p resolve need name wanted (d, s) (none, d, s)
  | unresolved {d s s' resolution} (fresh : d.hasDependency name = false)
    (foreign : p.class? name = none)
    (resolved : resolve name (normalizeSignatures wanted) s = (resolution, s'))
    (lost : ∀ reconstruction pruned, resolution ≠ .found reconstruction pruned) :
    Filed p resolve need name wanted (d, s) (none, d, s')
  | own {d s c} (fresh : d.hasDependency name = false) (own : p.class? name = some c) :
    Filed p resolve need name wanted (d, s)
      (some (callsOf c (normalizeSignatures wanted)),
        fileOwn need d name (c.excerpt (normalizeSignatures wanted)), s)
  | external {d s s' reconstruction pruned} (fresh : d.hasDependency name = false)
    (foreign : p.class? name = none)
    (resolved : resolve name (normalizeSignatures wanted) s =
      (.found reconstruction pruned, s')) :
    Filed p resolve need name wanted (d, s)
      (some (reconstructedCalls name reconstruction.source pruned.kept),
        fileExternal need d name (.ofList pruned.source), s')

theorem fileDependency_filed {r : Option Calls × (Dossier × σ)}
    (h : fileDependency p resolve need name wanted st = r) :
    Filed p resolve need name wanted st r := by
  obtain ⟨d, s⟩ := st
  subst h
  unfold fileDependency
  by_cases known : d.hasDependency name = true
  · simpa only [known, if_true] using .present known
  have fresh : d.hasDependency name = false := by simpa using known
  simp only [fresh, Bool.false_eq_true, if_false]
  cases hclass : p.class? name with
  | some c => exact .own fresh hclass
  | none =>
    cases hresolve : resolve name (normalizeSignatures wanted) s with
    | mk resolution s' =>
      cases resolution with
      | found reconstruction pruned => exact .external fresh hclass hresolve
      | notApplicable | notFound | unusable =>
        exact .unresolved fresh hclass hresolve fun _ _ h => nomatch h

theorem fileDependency_of_known (h : st.1.hasDependency name = true) :
    fileDependency p resolve need name wanted st = (none, st) := by
  simp [fileDependency, h]

@[simp] theorem core_fileOwn (d : Dossier) (source : String) :
    (fileOwn need d name source).core = d.core := by
  cases need <;> rfl

@[simp] theorem core_fileExternal (d : Dossier) (source : String) :
    (fileExternal need d name source).core = d.core := by
  cases need <;> rfl

theorem core_filed {r : Option Calls × (Dossier × σ)} (h : Filed p resolve need name wanted st r) :
    r.2.1.core = st.1.core := by
  cases h with
  | present | unresolved => rfl
  | own => exact core_fileOwn ..
  | external => exact core_fileExternal ..

/-- Filing a class leaves the entries of all others as they are. -/
theorem sameEntry_filed {r : Option Calls × (Dossier × σ)} {other : String}
    (h : Filed p resolve need name wanted st r) (hne : name ≠ other) :
    Dossier.SameEntry other st.1 r.2.1 := by
  cases h with
  | present | unresolved => exact .refl
  | own => cases need <;> constructor <;> simp [fileOwn, hne]
  | external => cases need <;> constructor <;> simp [fileExternal, Dossier.activate, hne]

/-! ## Chains of filings -/

/-- A class other than the target is filed. -/
def Filing (p : Project) (resolve : Resolve σ) (st st' : Dossier × σ) : Prop :=
  ∃ need name wanted, st.1.isTarget name = false ∧
    st' = (fileDependency p resolve need name wanted st).2

abbrev Filings (p : Project) (resolve : Resolve σ) : Dossier × σ → Dossier × σ → Prop :=
  Relation.ReflTransGen (Filing p resolve)

theorem filings_fileDependency (need : Need) (wanted : Names) (h : st.1.isTarget name = false) :
    Filings p resolve st (fileDependency p resolve need name wanted st).2 :=
  .single ⟨need, name, wanted, h, rfl⟩

theorem core_filings (h : Filings p resolve st st') : st'.1.core = st.1.core := by
  induction h with
  | refl => rfl
  | tail _ h ih =>
    obtain ⟨need, name, wanted, _, rfl⟩ := h
    exact (core_filed (fileDependency_filed rfl)).trans ih

theorem sameEntry_filings (h : Filings p resolve st st')
    (known : st.1.hasDependency name = true) : Dossier.SameEntry name st.1 st'.1 := by
  induction h with
  | refl => exact .refl
  | @tail mid _ _ h ih =>
    obtain ⟨need, other, wanted, _, rfl⟩ := h
    refine ih.trans ?_
    by_cases heq : other = name
    · subst heq
      rw [fileDependency_of_known (ih.hasDependency_eq.trans known)]
      exact .refl
    · exact sameEntry_filed (fileDependency_filed rfl) heq

/-- A fold of chains is a chain; the chains may rely on what all filings preserve, that is, on the
core of the dossier. -/
theorem filings_foldl {α : Type} {core : Dossier} {f : Dossier × σ → α → Dossier × σ}
    (hf : ∀ st a, st.1.core = core → Filings p resolve st (f st a)) :
    ∀ (l : List α) {st : Dossier × σ}, st.1.core = core → Filings p resolve st (l.foldl f st)
  | [], _, _ => .refl
  | a :: l, st, h =>
    have step := hf st a h
    step.trans (filings_foldl hf l ((core_filings step).trans h))

/-- File a class that is called and follow the calls from there. -/
def visit (p : Project) (resolve : Resolve σ) (n : Nat) (st : Dossier × σ)
    (e : String × Names) : Dossier × σ :=
  match fileDependency p resolve .call e.1 e.2 st with
  | (none, st) => st
  | (some next, st) => follow p resolve n next st

/-- What a walk does with one of the calls it follows. -/
def followStep (p : Project) (resolve : Resolve σ) (n : Nat) (st : Dossier × σ)
    (e : String × Names) : Dossier × σ :=
  if st.1.isTarget e.1 || st.1.hasDependency e.1 then st else visit p resolve n st e

theorem follow_succ (n : Nat) (calls : Calls) (st : Dossier × σ) :
    follow p resolve (n + 1) calls st = calls.edges.foldl (followStep p resolve n) st := rfl

theorem fileCall_eq (depth : Nat) (c : ClassInfo) (st : Dossier × σ) (e : String × Names) :
    fileCall p resolve depth c st e =
      if c.isNamed e.1 then st else visit p resolve depth st e := rfl

/-- A visit is a chain if what follows the filing is one. -/
theorem filings_visit {n : Nat} {e : String × Names}
    (hfollow : ∀ calls st, Filings p resolve st (follow p resolve n calls st))
    (htarget : st.1.isTarget e.1 = false) : Filings p resolve st (visit p resolve n st e) := by
  have step : Filings p resolve st _ := filings_fileDependency .call e.2 htarget
  unfold visit
  split
  · next heq => rwa [heq] at step
  · next heq =>
    rw [heq] at step
    exact step.trans (hfollow _ _)

theorem filings_followStep {n : Nat}
    (hfollow : ∀ calls st, Filings p resolve st (follow p resolve n calls st)) (e : String × Names) :
    Filings p resolve st (followStep p resolve n st e) := by
  unfold followStep
  split
  · exact .refl
  · next hskip =>
    simp only [Bool.or_eq_true, not_or, Bool.not_eq_true] at hskip
    exact filings_visit hfollow hskip.1

theorem filings_follow (n : Nat) (calls : Calls) (st : Dossier × σ) :
    Filings p resolve st (follow p resolve n calls st) := by
  induction n generalizing calls st with
  | zero => exact .refl
  | succ n ih =>
    rw [follow_succ]
    exact filings_foldl (fun _ e _ => filings_followStep ih e) calls.edges rfl

variable {c : ClassInfo} {m : MethodInfo} {attempt depth : Nat}

theorem filings_fileConstructorNeed (e : String × Names) :
    Filings p resolve st (fileConstructorNeed p resolve m st e) := by
  unfold fileConstructorNeed
  split
  · exact .refl
  · next hskip =>
    simp only [Bool.or_eq_true, not_or, Bool.not_eq_true] at hskip
    exact filings_fileDependency .constructor e.2 hskip.2

theorem filings_fileCall (h : st.1.core = (Dossier.start c m attempt).core)
    (e : String × Names) : Filings p resolve st (fileCall p resolve depth c st e) := by
  rw [fileCall_eq]
  split
  · exact .refl
  · next hskip =>
    refine filings_visit (filings_follow depth) ?_
    rw [Dossier.isTarget_of_core h, Dossier.isTarget_start]
    simpa using hskip

/-- The dossier before the calls of the method are filed. -/
def beforeCalls (p : Project) (resolve : Resolve σ) (c : ClassInfo) (m : MethodInfo)
    (attempt : Nat) (s : σ) : Dossier × σ :=
  c.constructorCalls.edges.foldl (fileConstructorNeed p resolve m) (Dossier.start c m attempt, s)

theorem filings_beforeCalls (s : σ) :
    Filings p resolve (Dossier.start c m attempt, s) (beforeCalls p resolve c m attempt s) :=
  filings_foldl (fun _ e _ => filings_fileConstructorNeed e) _ rfl

theorem filings_fileCalls (h : st.1.core = (Dossier.start c m attempt).core)
    (l : List (String × Names)) :
    Filings p resolve st (l.foldl (fileCall p resolve depth c) st) :=
  filings_foldl (fun _ e h => filings_fileCall h e) l h

/-- An assembled dossier is described at the end of a chain of filings. -/
theorem filings_assemble (p : Project) (resolve : Resolve σ) (depth : Nat) (c : ClassInfo)
    (m : MethodInfo) (attempt : Nat) (s : σ) : ∃ st,
    Filings p resolve (Dossier.start c m attempt, s) st ∧
      assemble p resolve depth c m attempt s = (describe c m st.1, st.2) :=
  ⟨_, (filings_beforeCalls s).trans (filings_fileCalls (core_filings (filings_beforeCalls s)) _),
    rfl⟩

def enrichStep (p : Project) (resolve : Resolve σ) (r : Nat × (Dossier × σ)) (name : String) :
    Nat × (Dossier × σ) :=
  if r.2.1.isTarget name || r.2.1.hasDependency name then r
  else
    match fileDependency p resolve .call name ∅ r.2 with
    | (none, st) => (r.1, st)
    | (some _, st) => (r.1 + 1, st)

theorem enrich_eq_foldl (names : Names) (st : Dossier × σ) :
    enrich p resolve names st = names.toList.foldl (enrichStep p resolve) (0, st) := rfl

theorem filings_enrichStep (r : Nat × (Dossier × σ)) :
    Filings p resolve r.2 (enrichStep p resolve r name).2 := by
  unfold enrichStep
  split
  · exact .refl
  · next hskip =>
    simp only [Bool.or_eq_true, not_or, Bool.not_eq_true] at hskip
    have step : Filings p resolve r.2 _ := filings_fileDependency .call ∅ hskip.1
    split <;> next heq => rwa [heq] at step

theorem filings_enrich (names : Names) (st : Dossier × σ) :
    Filings p resolve st (enrich p resolve names st).2 := by
  rw [enrich_eq_foldl]
  generalize (0 : Nat) = added
  induction names.toList generalizing added st with
  | nil => exact .refl
  | cons name l ih => exact (filings_enrichStep (added, st)).trans (ih _ _)

end Assembly

end Testwright
