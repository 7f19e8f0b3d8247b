import Testwright.Proofs.Attempt.DirectCalls
import Testwright.Proofs.Attempt.Enriching
import Testwright.Proofs.Project.Histories

/-!
# Classes under two names

A class of a project goes by its full name and, as long as no other class has it, by its simple name
(`Project.Keyed`). Dependencies are filed by name: enriching passes over a name that the dossier holds, but
files a class once more that it holds under the other name. `unaliased_iff` says for which names that
happens, and `Shop.tax_twice` is a case of it.
-/

namespace Testwright

namespace Project

variable {p : Project} {c : ClassInfo} {name : String}

theorem get?_or_name_of_class? (h : p.class? name = some c) :
    p.classes.get? name = some c ∨ name = c.name := by
  unfold class? at h
  split at h
  · next hget =>
    cases h
    exact .inl hget
  · split at h
    · cases h
    · split at h
      · next hfilter =>
        cases h
        have hmem : c ∈ p.classes.values.filter fun c => c.name == name := by simp [hfilter]
        exact .inr (eq_of_beq (List.mem_filter.1 hmem).2).symm
      · cases h

/-- A name stands for a class only if it is one of the two names of the class. -/
theorem name_of_class? (hp : p.Keyed) (h : p.class? name = some c) :
    name = c.fullName ∨ name = c.name := by
  rcases get?_or_name_of_class? h with hget | hname
  · exact .inl (hp name c hget)
  · exact .inr hname

end Project

namespace Assembly

variable {σ : Type} {p : Project} {resolve : Resolve σ} {d : Dossier} {name k : String}

/-- No two names in a dossier stand for one class of the project. -/
def Unaliased (p : Project) (d : Dossier) : Prop :=
  ∀ j k c, d.hasDependency j = true → d.hasDependency k = true →
    p.class? j = some c → p.class? k = some c → j = k

/-- The dossier holds a name, or an enrichment is given it and does not take it for the target. -/
def Mentioned (d : Dossier) (calls : List (Names × σ)) (name : String) : Prop :=
  d.hasDependency name = true ∨
    d.isTarget name = false ∧ ∃ call ∈ calls, call.1.contains name = true

/-- Of the names of the project a step of enriching adds the one that it is given. -/
theorem hasDependency_enrichStep (own : (p.class? k).isSome = true) (r : Nat × (Dossier × σ)) :
    (enrichStep p resolve r name).2.1.hasDependency k = true ↔
      r.2.1.hasDependency k = true ∨ r.2.1.isTarget k = false ∧ name = k := by
  have hne (foreign : p.class? name = none) : name ≠ k := by
    rintro rfl
    simp [foreign] at own
  have hstep : Enriches p resolve name r _ := enriches_enrichStep r name
  generalize enrichStep p resolve r name = r' at *
  cases hstep with
  | @passed n d s known =>
    constructor
    · exact .inl
    · rintro (hold | ⟨hother, rfl⟩)
      · exact hold
      · simpa [hother] using known
  | unresolved new foreign => simp [hne foreign]
  | external new foreign => simp [hasDependency_put, hne foreign]
  | @own n d s c new =>
    rw [Bool.or_eq_false_iff] at new
    rw [hasDependency_put, Bool.or_eq_true, decide_eq_true_eq]
    constructor
    · rintro (rfl | hold)
      · exact .inr ⟨new.1, rfl⟩
      · exact .inl hold
    · rintro (hold | ⟨-, hname⟩)
      · exact .inr hold
      · exact .inl hname

theorem hasDependency_enrich (own : (p.class? k).isSome = true) (names : Names) (st : Dossier × σ) :
    (enrich p resolve names st).2.1.hasDependency k = true ↔
      st.1.hasDependency k = true ∨ st.1.isTarget k = false ∧ names.contains k = true := by
  rw [enrich_eq_foldl, ← Names.mem_toList]
  -- what was counted before makes no difference
  generalize (0 : Nat) = added
  induction names.toList generalizing added st with
  | nil => simp
  | cons name l ih =>
    have hstep : (enrichStep p resolve (added, st) name).2.1.hasDependency k = true ↔ _ :=
      hasDependency_enrichStep own (added, st)
    have htarget : (enrichStep p resolve (added, st) name).2.1.isTarget k = st.1.isTarget k :=
      Dossier.isTarget_of_core (core_filings (filings_enrichStep (added, st))) k
    rw [List.foldl_cons, List.mem_cons]
    generalize enrichStep p resolve (added, st) name = r at *
    refine (ih r.2 r.1).trans ?_
    rw [hstep, htarget, eq_comm (a := k), or_assoc, and_or_left]

/-- Of the names of the project a dossier holds those that are mentioned. -/
theorem hasDependency_enrichAll (own : (p.class? k).isSome = true) (calls : List (Names × σ)) :
    (enrichAll p resolve d calls).hasDependency k = true ↔ Mentioned d calls k := by
  unfold Mentioned
  induction calls generalizing d with
  | nil => simp [enrichAll]
  | cons call calls ih =>
    have htarget : (enrich p resolve call.1 (d, call.2)).2.1.isTarget k = d.isTarget k :=
      Dossier.isTarget_of_core (core_enrich call.1 (d, call.2)) k
    refine ih.trans ?_
    rw [hasDependency_enrich own, htarget]
    simp only [List.mem_cons, exists_eq_or_imp, or_assoc, and_or_left]

theorem unaliased_enrichAll (calls : List (Names × σ)) :
    Unaliased p (enrichAll p resolve d calls) ↔ ∀ j k c, j ≠ k → p.class? j = some c →
      p.class? k = some c → ¬(Mentioned d calls j ∧ Mentioned d calls k) := by
  constructor
  · rintro h j k c hne hj hk ⟨hmj, hmk⟩
    apply hne
    apply h j k c _ _ hj hk
    · exact (hasDependency_enrichAll (by simp [hj]) calls).2 hmj
    · exact (hasDependency_enrichAll (by simp [hk]) calls).2 hmk
  · intro h j k c hdj hdk hj hk
    by_contra hne
    apply h j k c hne hj hk
    constructor
    · exact (hasDependency_enrichAll (by simp [hj]) calls).1 hdj
    · exact (hasDependency_enrichAll (by simp [hk]) calls).1 hdk

/-- **Classes under two names.** A dossier that was assembled and enriched holds a class of the project
under two names if and only if both are mentioned: a class is left alone under the name that it is filed
under, and not under the other one. In a project whose classes are kept under their full names these are
the full and the simple name. -/
theorem unaliased_iff (p : Project) (resolve : Resolve σ) (depth : Nat) (c : ClassInfo)
    (m : MethodInfo) (attempt : Nat) (s : σ) (calls : List (Names × σ)) :
    let d := (assemble p resolve depth c m attempt s).1
    (Unaliased p (enrichAll p resolve d calls) ↔ ∀ j k x, j ≠ k → p.class? j = some x →
      p.class? k = some x → ¬(Mentioned d calls j ∧ Mentioned d calls k)) ∧
    (p.Keyed → (Unaliased p (enrichAll p resolve d calls) ↔ ∀ x, p.class? x.fullName = some x →
      p.class? x.name = some x → x.fullName ≠ x.name →
        ¬(Mentioned d calls x.fullName ∧ Mentioned d calls x.name))) := by
  intro d
  refine ⟨unaliased_enrichAll calls, fun hp => (unaliased_enrichAll calls).trans ?_⟩
  constructor
  · intro h x hfull hname hne
    exact h x.fullName x.name x hne hfull hname
  · rintro h j k x hne hj hk ⟨hmj, hmk⟩
    rcases Project.name_of_class? hp hj with rfl | rfl <;>
      rcases Project.name_of_class? hp hk with rfl | rfl
    · exact hne rfl
    · exact h x hj hk hne ⟨hmj, hmk⟩
    · exact h x hk hj (Ne.symm hne) ⟨hmk, hmj⟩
    · exact hne rfl

namespace Shop

def packaged (name : String) (methods : List MethodInfo) : ClassInfo :=
  { interface name methods with fullName := "acme." ++ name, package := "package acme;" }

def tax : ClassInfo := packaged "Tax" [method "rate" []]

def packagedCart : ClassInfo := packaged "Cart" [method "total" [("acme.Tax", ["rate()"])]]

def packagedShop : Project := .ofList [packagedCart, tax]

/-- The dossier of the total of a cart, which calls the tax by its full name. -/
def packagedDossier : Dossier :=
  (assemble packagedShop (Resolver.resolve {} packagedShop) 0 packagedCart
    (method "total" [("acme.Tax", ["rate()"])]) 0 {}).1

/-- The tax stays the only entry if it is mentioned by its full name once more. -/
theorem unaliased_iff_tax : packagedShop.Keyed ∧
    Unaliased packagedShop (enrichAll packagedShop (Resolver.resolve {} packagedShop) packagedDossier
      [(.ofList ["acme.Tax"], {})]) := by
  have hp : packagedShop.Keyed := Project.keyed_ofList _
  have hkeys : packagedDossier.maps.flatMap Dict.keys = ["acme.Tax"] := by decide
  have hfull (name : String) (h : Mentioned packagedDossier
      [(.ofList ["acme.Tax"], ({} : Cache))] name) : name = "acme.Tax" := by
    rcases h with hfiled | ⟨-, call, hcall, hname⟩
    · have hmem : name ∈ packagedDossier.maps.flatMap Dict.keys := by
        simpa [Dossier.maps, Dossier.hasDependency, Dict.mem_keys, or_assoc] using hfiled
      rw [hkeys] at hmem
      exact List.mem_singleton.1 hmem
    · rw [List.mem_singleton.1 hcall, Names.contains_ofList] at hname
      exact List.mem_singleton.1 hname
  refine ⟨hp, ((unaliased_iff packagedShop (Resolver.resolve {} packagedShop) 0 packagedCart
    (method "total" [("acme.Tax", ["rate()"])]) 0 {} [(.ofList ["acme.Tax"], {})]).2 hp).2 ?_⟩
  rintro x - - hne ⟨hmfull, hmname⟩
  exact hne ((hfull x.fullName hmfull).trans (hfull x.name hmname).symm)

/-- Mentioned by its simple name the tax is filed once more. -/
theorem tax_twice : ¬Unaliased packagedShop (enrichAll packagedShop
    (Resolver.resolve {} packagedShop) packagedDossier [(.ofList ["Tax"], {})]) := by
  intro h
  have heq : "acme.Tax" = "Tax" := by
    apply h "acme.Tax" "Tax" tax <;> decide
  revert heq
  decide

end Shop

end Assembly

end Testwright
