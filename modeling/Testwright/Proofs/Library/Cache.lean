import Testwright.Library.Resolver
import Testwright.Proofs.Project.Excerpt

/-!
# The cache of a resolver

A cache is coherent with a resolver if every stored result is that of a search (`Cache.Coherent`).
Every look-up keeps it coherent and gives what a search without cache would give, so what a
resolver answers depends only on the question (`Resolver.answer`).
-/

namespace Testwright

namespace Cache

variable {c : Cache} {name k : String} {found result : Option Reconstruction}

/-- What is given when a result is stored is what is stored then. -/
theorem read_store_self : (c.store name found).2.read name = some (c.store name found).1 := by
  unfold store
  cases hread : c.read name with
  | some stored => exact hread
  | none => simp [read]

/-- A stored result stays. -/
theorem read_store_of_read (h : c.read k = some result) :
    (c.store name found).2.read k = some result := by
  unfold store
  cases hread : c.read name with
  | some stored => exact h
  | none =>
    have hne : name ≠ k := by
      rintro rfl
      simp [hread] at h
    simpa [read, hne] using h

theorem of_read_store (h : (c.store name found).2.read k = some result) :
    c.read k = some result ∨ name = k ∧ found = result := by
  unfold store at h
  cases hread : c.read name with
  | some stored =>
    rw [hread] at h
    exact .inl h
  | none =>
    rw [hread] at h
    simp only [read, Dict.get?_insert] at h
    split at h
    · next heq => exact .inr ⟨heq, Option.some.inj h⟩
    · exact .inl h

end Cache

/-- Every stored result is the result of a search. -/
def Cache.Coherent (r : Resolver) (cache : Cache) : Prop :=
  ∀ name found, cache.read name = some found → found = r.scan name

namespace Resolver

variable {r : Resolver} {p : Project} {cache : Cache} {name : String} {wanted : Names}

theorem coherent_empty (r : Resolver) : Cache.Coherent r {} := by
  intro name found h
  simp [Cache.read] at h

theorem coherent_note (h : cache.Coherent r) : (cache.note name).Coherent r := h

/-- Storing the result of a search gives that result and keeps the cache coherent. -/
theorem store_scan (h : cache.Coherent r) :
    (cache.store name (r.scan name)).1 = r.scan name ∧
      (cache.store name (r.scan name)).2.Coherent r := by
  have hstored : (cache.store name (r.scan name)).2.Coherent r := by
    intro k found hk
    rcases Cache.of_read_store hk with hk | ⟨rfl, hfound⟩
    · exact h k found hk
    · exact hfound.symm
  exact ⟨hstored name _ Cache.read_store_self, hstored⟩

theorem reconstruct_of_coherent (name : String) (h : cache.Coherent r) :
    (r.reconstruct name cache).1 = r.scan name ∧ (r.reconstruct name cache).2.Coherent r := by
  unfold reconstruct
  split
  · cases hread : cache.read name with
    | some found => exact ⟨h name found hread, h⟩
    | none => exact store_scan (coherent_note h)
  · exact ⟨rfl, coherent_note h⟩

/-- The answer of a resolver to a question. -/
def answer (r : Resolver) (p : Project) (name : String) (wanted : Names) : Resolution :=
  if (p.class? name).isSome then .notApplicable else conclude wanted (r.scan name)

theorem resolve_of_coherent (p : Project) (name : String) (wanted : Names)
    (h : cache.Coherent r) :
    (r.resolve p name wanted cache).1 = r.answer p name wanted ∧
      (r.resolve p name wanted cache).2.Coherent r := by
  unfold resolve answer
  split
  · exact ⟨rfl, h⟩
  · obtain ⟨hfound, hcache⟩ := reconstruct_of_coherent name h
    exact ⟨congrArg (conclude wanted) hfound, hcache⟩

theorem answer_normalizeSignatures :
    r.answer p name (normalizeSignatures wanted) = r.answer p name wanted := by
  have hprune (reconstruction : Reconstruction) :
      prune? reconstruction (normalizeSignatures wanted) = prune? reconstruction wanted := by
    simp only [prune?, normalizeSignatures_idem]
  unfold answer conclude
  cases r.scan name with
  | none => rfl
  | some reconstruction => simp only [hprune]

end Resolver

end Testwright
