import Testwright.Proofs.Attempt.Filing

/-!
# The four maps of dependencies

`Dossier.WellFiled` is the invariant of the dependencies of a dossier: no class is filed twice, the
maps for classes of the project and those for reconstructed classes hold what their names say, the
reconstructed classes are those of the two external maps, and the target is in none of the maps.

Filing a class keeps the invariant (`wellFiled_filing`), so it holds after assembling and after any
enrichments that follow (`wellFiled_assemble_enrich`).
-/

namespace Testwright

/-- Two maps have no name in common. -/
def Dict.Disjoint {α β : Type} (d : Dict α) (e : Dict β) : Prop :=
  ∀ name, d.contains name = true → e.contains name = false

namespace Dossier

def maps (d : Dossier) : List (Dict String) :=
  [d.constructorDeps, d.externalConstructorDeps, d.methodDeps, d.externalMethodDeps]

/-- Every dependency is filed once, in the map it belongs to, and the target is none. -/
structure WellFiled (p : Project) (d : Dossier) : Prop where
  disjoint : d.maps.Pairwise Dict.Disjoint
  own : ∀ name, d.constructorDeps.contains name = true ∨ d.methodDeps.contains name = true →
    (p.class? name).isSome = true
  external : ∀ name, d.externalConstructorDeps.contains name = true ∨
    d.externalMethodDeps.contains name = true → p.class? name = none
  reconstructed : ∀ name, d.reconstructed.contains name = true ↔
    d.externalConstructorDeps.contains name = true ∨ d.externalMethodDeps.contains name = true
  activations : d.activations = d.reconstructed.size
  size_reconstructed :
    d.reconstructed.size = d.externalConstructorDeps.size + d.externalMethodDeps.size
  target : ∀ name, d.hasDependency name = true → d.isTarget name = false

theorem hasDependency_eq_false {d : Dossier} {name : String} :
    d.hasDependency name = false ↔
      d.constructorDeps.contains name = false ∧ d.externalConstructorDeps.contains name = false ∧
        d.methodDeps.contains name = false ∧ d.externalMethodDeps.contains name = false := by
  simp [hasDependency, and_assoc]

theorem pairwise_maps {d : Dossier} : d.maps.Pairwise Dict.Disjoint ↔
    (d.constructorDeps.Disjoint d.externalConstructorDeps ∧
      d.constructorDeps.Disjoint d.methodDeps ∧ d.constructorDeps.Disjoint d.externalMethodDeps) ∧
    (d.externalConstructorDeps.Disjoint d.methodDeps ∧
      d.externalConstructorDeps.Disjoint d.externalMethodDeps) ∧
    d.methodDeps.Disjoint d.externalMethodDeps := by
  simp [maps]

theorem disjoint_insert {d e : Dict String} {name text : String} (h : d.Disjoint e)
    (fresh : e.contains name = false) : (d.insert name text).Disjoint e := by
  intro k hk
  rcases Bool.or_eq_true _ _ ▸ Dict.contains_insert ▸ hk with heq | hk
  · exact of_decide_eq_true heq ▸ fresh
  · exact h k hk

theorem disjoint_insert_right {d e : Dict String} {name text : String} (h : d.Disjoint e)
    (fresh : d.contains name = false) : d.Disjoint (e.insert name text) := by
  intro k hk
  have hne : name ≠ k := fun heq => by simp [← heq, fresh] at hk
  simp [hne, h k hk]

theorem wellFiled_start (p : Project) (c : ClassInfo) (m : MethodInfo) (attempt : Nat) :
    (Dossier.start c m attempt).WellFiled p where
  disjoint := by simp [maps, start, Dict.Disjoint]
  own := by simp [start]
  external := by simp [start]
  reconstructed := by simp [start]
  activations := rfl
  size_reconstructed := rfl
  target := by simp [start, hasDependency]

/-- A method may be described without a change to the dependencies. -/
theorem wellFiled_describe {p : Project} {d : Dossier} (c : ClassInfo) (m : MethodInfo)
    (h : d.WellFiled p) : (Assembly.describe c m d).WellFiled p :=
  ⟨h.disjoint, h.own, h.external, h.reconstructed, h.activations, h.size_reconstructed, h.target⟩

end Dossier

namespace Assembly

open Dossier

variable {σ : Type} {p : Project} {resolve : Resolve σ} {need : Need} {name text : String}
  {d : Dossier}

theorem hasDependency_fileOwn {k : String} :
    (fileOwn need d name text).hasDependency k = (decide (name = k) || d.hasDependency k) := by
  cases need <;> simp only [fileOwn, hasDependency, Dict.contains_insert] <;> grind

theorem hasDependency_fileExternal {k : String} :
    (fileExternal need d name text).hasDependency k = (decide (name = k) || d.hasDependency k) := by
  cases need <;>
    simp only [fileExternal, activate, hasDependency, Dict.contains_insert] <;> grind

theorem wellFiled_fileOwn (h : d.WellFiled p) (fresh : d.hasDependency name = false)
    (own : (p.class? name).isSome = true) (htarget : d.isTarget name = false) :
    (fileOwn need d name text).WellFiled p where
  disjoint := by
    obtain ⟨h1, h2, h3, h4⟩ := hasDependency_eq_false.1 fresh
    obtain ⟨⟨hab, hac, had⟩, ⟨hbc, hbd⟩, hcd⟩ := pairwise_maps.1 h.disjoint
    cases need with
    | constructor =>
      exact pairwise_maps.2 ⟨⟨disjoint_insert hab h2, disjoint_insert hac h3,
        disjoint_insert had h4⟩, ⟨hbc, hbd⟩, hcd⟩
    | call =>
      exact pairwise_maps.2 ⟨⟨hab, disjoint_insert_right hac h1, had⟩,
        ⟨disjoint_insert_right hbc h2, hbd⟩, disjoint_insert hcd h4⟩
  own k hk := by
    by_cases heq : name = k
    · exact heq ▸ own
    · refine h.own k ?_
      cases need <;> simpa [fileOwn, heq] using hk
  external k hk := by
    refine h.external k ?_
    cases need <;> exact hk
  reconstructed k := by cases need <;> exact h.reconstructed k
  activations := rfl
  size_reconstructed := by cases need <;> exact h.size_reconstructed
  target k hk := by
    rw [isTarget_of_core (core_fileOwn d text)]
    rw [hasDependency_fileOwn, Bool.or_eq_true, decide_eq_true_eq] at hk
    rcases hk with rfl | hk
    · exact htarget
    · exact h.target k hk

theorem wellFiled_fileExternal (h : d.WellFiled p) (fresh : d.hasDependency name = false)
    (foreign : p.class? name = none) (htarget : d.isTarget name = false) :
    (fileExternal need d name text).WellFiled p where
  disjoint := by
    obtain ⟨h1, h2, h3, h4⟩ := hasDependency_eq_false.1 fresh
    obtain ⟨⟨hab, hac, had⟩, ⟨hbc, hbd⟩, hcd⟩ := pairwise_maps.1 h.disjoint
    cases need with
    | constructor =>
      exact pairwise_maps.2 ⟨⟨disjoint_insert_right hab h1, hac, had⟩,
        ⟨disjoint_insert hbc h3, disjoint_insert hbd h4⟩, hcd⟩
    | call =>
      exact pairwise_maps.2 ⟨⟨hab, hac, disjoint_insert_right had h1⟩,
        ⟨hbc, disjoint_insert_right hbd h2⟩, disjoint_insert_right hcd h3⟩
  own k hk := by
    refine h.own k ?_
    cases need <;> exact hk
  external k hk := by
    by_cases heq : name = k
    · exact heq ▸ foreign
    · refine h.external k ?_
      cases need <;> simpa [fileExternal, activate, heq] using hk
  reconstructed k := by
    have := h.reconstructed k
    cases need <;>
      simp only [fileExternal, activate, Names.contains_insert, Dict.contains_insert,
        Bool.or_eq_true, decide_eq_true_eq] <;> grind
  activations := rfl
  size_reconstructed := by
    obtain ⟨-, h2, -, h4⟩ := hasDependency_eq_false.1 fresh
    have hnew : d.reconstructed.contains name = false := by
      rw [← Bool.not_eq_true, h.reconstructed, h2, h4]
      simp
    have hsize : (d.reconstructed.insert name).size = d.reconstructed.size + 1 := by
      rw [Names.insert, Dict.size_insert, hnew]
      rfl
    have := h.size_reconstructed
    cases need <;> simp only [fileExternal, activate, hsize, Dict.size_insert, h2, h4] <;> grind
  target k hk := by
    rw [isTarget_of_core (core_fileExternal d text)]
    rw [hasDependency_fileExternal, Bool.or_eq_true, decide_eq_true_eq] at hk
    rcases hk with rfl | hk
    · exact htarget
    · exact h.target k hk

/-- Filing a class other than the target keeps the maps in order. -/
theorem wellFiled_filing {st st' : Dossier × σ} (h : st.1.WellFiled p)
    (step : Filing p resolve st st') : st'.1.WellFiled p := by
  obtain ⟨need, name, wanted, htarget, rfl⟩ := step
  generalize hr : fileDependency p resolve need name wanted st = r
  cases fileDependency_filed hr with
  | present | unresolved => exact h
  | own fresh own => exact wellFiled_fileOwn h fresh (by simp [own]) htarget
  | external fresh foreign => exact wellFiled_fileExternal h fresh foreign htarget

theorem wellFiled_filings {st st' : Dossier × σ} (h : st.1.WellFiled p)
    (steps : Filings p resolve st st') : st'.1.WellFiled p := by
  induction steps with
  | refl => exact h
  | tail _ step ih => exact wellFiled_filing ih step

theorem wellFiled_assemble (p : Project) (resolve : Resolve σ) (depth : Nat) (c : ClassInfo)
    (m : MethodInfo) (attempt : Nat) (s : σ) :
    (assemble p resolve depth c m attempt s).1.WellFiled p := by
  obtain ⟨st, steps, heq⟩ := filings_assemble p resolve depth c m attempt s
  rw [heq]
  exact wellFiled_describe c m (wellFiled_filings (wellFiled_start p c m attempt) steps)

/-- Enrich a dossier several times; the resolver may be used by others between two calls, so each
call finds it in a state of its own. -/
def enrichAll (p : Project) (resolve : Resolve σ) (d : Dossier) (calls : List (Names × σ)) :
    Dossier :=
  calls.foldl (fun d call => (enrich p resolve call.1 (d, call.2)).2.1) d

theorem core_enrich (names : Names) (st : Dossier × σ) :
    (enrich p resolve names st).2.1.core = st.1.core :=
  core_filings (filings_enrich names st)

theorem wellFiled_enrichAll (h : d.WellFiled p) (calls : List (Names × σ)) :
    (enrichAll p resolve d calls).WellFiled p := by
  induction calls generalizing d with
  | nil => exact h
  | cons call calls ih => exact ih (wellFiled_filings h (filings_enrich call.1 (d, call.2)))

theorem core_enrichAll (calls : List (Names × σ)) :
    (enrichAll p resolve d calls).core = d.core := by
  induction calls generalizing d with
  | nil => rfl
  | cons call calls ih => exact ih.trans (core_enrich call.1 (d, call.2))

theorem isTarget_assemble (p : Project) (resolve : Resolve σ) (depth : Nat) (c : ClassInfo)
    (m : MethodInfo) (attempt : Nat) (s : σ) (k : String) :
    (assemble p resolve depth c m attempt s).1.isTarget k = c.isNamed k := by
  obtain ⟨st, steps, heq⟩ := filings_assemble p resolve depth c m attempt s
  rw [heq]
  exact (isTarget_of_core (core_filings steps) k).trans (isTarget_start c m attempt k)

end Assembly

end Testwright
