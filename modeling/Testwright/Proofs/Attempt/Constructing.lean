import Testwright.Proofs.Attempt.DirectCalls
import Testwright.Proofs.Attempt.Enriching

/-!
# What constructors need

The classes that constructors need are filed first, each when its own edge has its turn and unless the
method calls it as well. A turn leaves the entries of all other classes as they are, so what a class is
filed as depends on its own edge alone (`holdsNeed_beforeCalls`).

All that follows files classes for calls: the direct calls, the walks from them, and enriching later on.
By `extends_follow` and its like these add to the maps for calls only, so the maps for constructors stay
as the first pass has left them (`constructorDeps_account`).
-/

namespace Testwright

/-- What a class is filed as whose methods are wanted: the excerpt of a class of the project, or else the
pruned source of a reconstructed one. -/
inductive Resolver.Gives (r : Resolver) (p : Project) (name : String) (wanted : Names) : Entry → Prop
  | own {c} (own : p.class? name = some c) :
    Gives r p name wanted (.own (c.excerpt (normalizeSignatures wanted)))
  | external {reconstruction pruned} (foreign : p.class? name = none)
    (found : r.scan name = some reconstruction)
    (fits : Resolver.prune? reconstruction wanted = some pruned) :
    Gives r p name wanted (.external (.ofList pruned.source))

namespace Dossier

/-- The maps for constructors hold a class as an entry. -/
def HoldsNeed (d : Dossier) (name : String) : Entry → Prop
  | .own source => d.constructorDeps.get? name = some source
  | .external source => d.externalConstructorDeps.get? name = some source

variable {d e : Dossier} {name : String} {entry : Entry}

theorem SameEntry.holdsNeed_iff (h : SameEntry name d e) :
    e.HoldsNeed name entry ↔ d.HoldsNeed name entry := by
  cases entry with
  | own => rw [HoldsNeed, HoldsNeed, h.constructorDeps]
  | external => rw [HoldsNeed, HoldsNeed, h.externalConstructorDeps]

theorem Extends.holdsNeed_iff (h : d.Extends e) :
    e.HoldsNeed name entry ↔ d.HoldsNeed name entry := by
  rw [h.rest]
  cases entry <;> rfl

theorem not_holdsNeed (h : d.hasDependency name = false) : ¬d.HoldsNeed name entry := by
  obtain ⟨hown, hexternal, -, -⟩ := hasDependency_eq_false.1 h
  cases entry with
  | own => simp [HoldsNeed, Dict.get?_eq_none_of_contains hown]
  | external => simp [HoldsNeed, Dict.get?_eq_none_of_contains hexternal]

theorem exists_holdsNeed_iff : (∃ entry, d.HoldsNeed name entry) ↔
    d.constructorDeps.contains name = true ∨ d.externalConstructorDeps.contains name = true := by
  simp only [Dict.contains_eq_isSome_get?, Option.isSome_iff_exists]
  constructor
  · rintro ⟨source | source, h⟩
    · exact .inl ⟨source, h⟩
    · exact .inr ⟨source, h⟩
  · rintro (⟨source, h⟩ | ⟨source, h⟩)
    · exact ⟨.own source, h⟩
    · exact ⟨.external source, h⟩

end Dossier

section
variable {r : Resolver} {p : Project} {name : String} {wanted : Names} {entry : Entry}

theorem Resolver.gives_iff_own {c : ClassInfo} (own : p.class? name = some c) :
    r.Gives p name wanted entry ↔ entry = .own (c.excerpt (normalizeSignatures wanted)) := by
  constructor
  · rintro (own' | ⟨foreign, -, -⟩)
    · cases own.symm.trans own'
      rfl
    · cases foreign.symm.trans own
  · rintro rfl
    exact .own own

theorem Resolver.gives_iff_external {reconstruction pruned} (foreign : p.class? name = none)
    (found : r.scan name = some reconstruction)
    (fits : Resolver.prune? reconstruction wanted = some pruned) :
    r.Gives p name wanted entry ↔ entry = .external (.ofList pruned.source) := by
  constructor
  · rintro (own | ⟨-, found', fits'⟩)
    · cases foreign.symm.trans own
    · cases found.symm.trans found'
      cases fits.symm.trans fits'
      rfl
  · rintro rfl
    exact .external foreign found fits

/-- A class is given where it can be looked up, or else reconstructed and pruned. -/
theorem Resolver.exists_gives_iff : (∃ entry, r.Gives p name wanted entry) ↔
    (p.class? name).isSome = true ∨ ∃ reconstruction, r.scan name = some reconstruction ∧
      (Resolver.prune? reconstruction wanted).isSome = true := by
  constructor
  · rintro ⟨_, own | @⟨reconstruction, pruned, -, found, fits⟩⟩
    · exact .inl (by simp [own])
    · exact .inr ⟨reconstruction, found, by simp [fits]⟩
  · intro h
    cases hclass : p.class? name with
    | some c => exact ⟨_, .own hclass⟩
    | none =>
      rw [hclass] at h
      obtain ⟨reconstruction, found, hfits⟩ := h.resolve_left (by simp)
      obtain ⟨pruned, fits⟩ := Option.isSome_iff_exists.1 hfits
      exact ⟨_, .external hclass found fits⟩

end

/-- A class that is not of the project is found as its search and pruning say. -/
theorem Resolver.of_answer_eq_found {r : Resolver} {p : Project} {name : String} {wanted : Names}
    {reconstruction pruned} (h : r.answer p name wanted = .found reconstruction pruned) :
    r.scan name = some reconstruction ∧ Resolver.prune? reconstruction wanted = some pruned := by
  unfold answer conclude at h
  split at h
  · cases h
  · split at h
    · cases h
    · next found =>
      split at h
      · next fits =>
        cases h
        exact ⟨found, fits⟩
      · cases h

namespace Assembly

/-! ## Filing for calls -/

section
variable {σ : Type} {p : Project} {resolve : Resolve σ} {st : Dossier × σ}

theorem extends_foldl {α : Type} {f : Dossier × σ → α → Dossier × σ}
    (hf : ∀ (st : Dossier × σ) a, st.1.Extends (f st a).1) (l : List α) (st : Dossier × σ) :
    st.1.Extends (l.foldl f st).1 := by
  induction l generalizing st with
  | nil => exact .refl
  | cons a l ih => exact (hf st a).trans (ih (f st a))

theorem extends_filed {name : String} {wanted : Names} {res : Option Calls × (Dossier × σ)}
    (h : Filed p resolve .call name wanted st res) : st.1.Extends res.2.1 := by
  cases h with
  | present | unresolved => exact .refl
  | own fresh => exact extends_put fresh (.own _)
  | external fresh => exact extends_put fresh (.external _)

theorem extends_visit {n : Nat}
    (hfollow : ∀ calls (st : Dossier × σ), st.1.Extends (follow p resolve n calls st).1)
    (st : Dossier × σ) (e : String × Names) : st.1.Extends (visit p resolve n st e).1 := by
  have hfiled : st.1.Extends (fileDependency p resolve .call e.1 e.2 st).2.1 :=
    extends_filed (fileDependency_filed rfl)
  unfold visit
  split
  · next heq => rwa [heq] at hfiled
  · next heq =>
    rw [heq] at hfiled
    exact hfiled.trans (hfollow _ _)

theorem extends_follow (n : Nat) (calls : Calls) (st : Dossier × σ) :
    st.1.Extends (follow p resolve n calls st).1 := by
  induction n generalizing calls st with
  | zero => exact .refl
  | succ n ih =>
    rw [follow_succ]
    refine extends_foldl (fun st e => ?_) calls.edges st
    unfold followStep
    split
    · exact .refl
    · exact extends_visit ih st e

theorem extends_fileCall (depth : Nat) (c : ClassInfo) (st : Dossier × σ) (e : String × Names) :
    st.1.Extends (fileCall p resolve depth c st e).1 := by
  rw [fileCall_eq]
  split
  · exact .refl
  · exact extends_visit (extends_follow depth) st e

theorem extends_enrichAll (d : Dossier) (calls : List (Names × σ)) :
    d.Extends (enrichAll p resolve d calls) := by
  induction calls generalizing d with
  | nil => exact .refl
  | cons call calls ih => exact (enrich_extends p resolve call.1 (d, call.2)).1.trans (ih _)

end

/-! ## Filing for constructors -/

variable {r : Resolver} {p : Project} {c : ClassInfo} {m : MethodInfo} {attempt : Nat} {cache : Cache}
  {st : Dossier × Cache} {name : String} {wanted : Names} {entry : Entry}

theorem holdsNeed_fileOwn {d : Dossier} (fresh : d.hasDependency name = false) (source : String) :
    (fileOwn .constructor d name source).HoldsNeed name entry ↔ entry = .own source := by
  have hexternal := (Dossier.hasDependency_eq_false.1 fresh).2.1
  cases entry with
  | own => simp [Dossier.HoldsNeed, fileOwn, eq_comm]
  | external => simp [Dossier.HoldsNeed, fileOwn, Dict.get?_eq_none_of_contains hexternal]

theorem holdsNeed_fileExternal {d : Dossier} (fresh : d.hasDependency name = false) (source : String) :
    (fileExternal .constructor d name source).HoldsNeed name entry ↔ entry = .external source := by
  have hown := (Dossier.hasDependency_eq_false.1 fresh).1
  cases entry with
  | own =>
    simp [Dossier.HoldsNeed, fileExternal, Dossier.activate, Dict.get?_eq_none_of_contains hown]
  | external => simp [Dossier.HoldsNeed, fileExternal, eq_comm]

/-- A class that is filed for constructors is filed as the resolver gives it. -/
theorem holdsNeed_filed (hcache : st.2.Coherent r) {res : Option Calls × (Dossier × Cache)}
    (h : Filed p (r.resolve p) .constructor name wanted st res)
    (fresh : st.1.hasDependency name = false) :
    res.2.1.HoldsNeed name entry ↔ r.Gives p name wanted entry := by
  have hanswer := (Resolver.resolve_of_coherent p name (normalizeSignatures wanted) hcache).1
  rw [Resolver.answer_normalizeSignatures] at hanswer
  cases h with
  | present known => simp [known] at fresh
  | unresolved _ foreign resolved lost =>
    rw [resolved] at hanswer
    refine iff_of_false (Dossier.not_holdsNeed fresh) ?_
    rintro (own | @⟨reconstruction, pruned, -, found, fits⟩)
    · cases foreign.symm.trans own
    · exact lost _ _ (hanswer.trans (Resolver.answer_eq_found foreign found fits))
  | own _ own => exact (holdsNeed_fileOwn fresh _).trans (Resolver.gives_iff_own own).symm
  | external _ foreign resolved =>
    rw [resolved] at hanswer
    obtain ⟨found, fits⟩ := Resolver.of_answer_eq_found hanswer.symm
    exact (holdsNeed_fileExternal fresh _).trans (Resolver.gives_iff_external foreign found fits).symm

theorem sameEntry_fileConstructorNeed {e : String × Names} (hne : e.1 ≠ name) :
    Dossier.SameEntry name st.1 (fileConstructorNeed p (r.resolve p) m st e).1 := by
  unfold fileConstructorNeed
  split
  · exact .refl
  · exact sameEntry_filed (fileDependency_filed rfl) hne

theorem sameEntry_needs {l : List (String × Names)} (h : ∀ e ∈ l, e.1 ≠ name) :
    Dossier.SameEntry name st.1 (l.foldl (fileConstructorNeed p (r.resolve p) m) st).1 := by
  induction l generalizing st with
  | nil => exact .refl
  | cons e l ih =>
    exact (sameEntry_fileConstructorNeed (h e List.mem_cons_self)).trans
      (ih fun e' he' => h e' (List.mem_cons_of_mem e he'))

/-- Before the calls, the maps for constructors hold what the edges of the constructors ask for. -/
theorem holdsNeed_beforeCalls (hcache : cache.Coherent r) :
    (beforeCalls p (r.resolve p) c m attempt cache).1.HoldsNeed name entry ↔
      ∃ wanted, c.constructorCalls.get? name = some wanted ∧ c.isNamed name = false ∧
        m.calls.contains name = false ∧ r.Gives p name wanted entry := by
  have fresh : (Dossier.start c m attempt).hasDependency name = false := by
    simp [Dossier.start, Dossier.hasDependency]
  unfold beforeCalls
  cases hneed : c.constructorCalls.get? name with
  | none =>
    have hothers : ∀ e ∈ c.constructorCalls.edges, e.1 ≠ name := by
      rintro e he rfl
      cases hneed.symm.trans (Dict.mem_entries.1 he)
    rw [(sameEntry_needs hothers).holdsNeed_iff]
    simp [Dossier.not_holdsNeed fresh]
  | some wanted =>
    -- The edges in front of and behind that of `name` leave its entries as they are.
    obtain ⟨front, back, hsplit, hothers⟩ := Dict.exists_entries_eq hneed
    obtain ⟨hfront, hback⟩ := List.forall_mem_append.1 hothers
    rw [Calls.edges, hsplit, List.foldl_append, List.foldl_cons, (sameEntry_needs hback).holdsNeed_iff]
    generalize hst : front.foldl (fileConstructorNeed p (r.resolve p) m)
      (Dossier.start c m attempt, cache) = st
    have hfilings : Filings p (r.resolve p) (Dossier.start c m attempt, cache) st :=
      hst ▸ filings_foldl (fun _ e _ => filings_fileConstructorNeed e) front rfl
    have hsame : Dossier.SameEntry name (Dossier.start c m attempt, cache).1 st.1 :=
      hst ▸ sameEntry_needs hfront
    have htarget : st.1.isTarget name = c.isNamed name :=
      (Dossier.isTarget_of_core (core_filings hfilings) name).trans
        (Dossier.isTarget_start c m attempt name)
    have hfresh : st.1.hasDependency name = false := hsame.hasDependency_eq.trans fresh
    simp only [Option.some.injEq, exists_eq_left', fileConstructorNeed, htarget]
    cases hcalled : m.calls.contains name with
    | true => simp [Dossier.not_holdsNeed hfresh]
    | false =>
      cases hnamed : c.isNamed name with
      | true => simp [Dossier.not_holdsNeed hfresh]
      | false =>
        simp only [Bool.or_self, Bool.false_eq_true, if_false, true_and]
        exact holdsNeed_filed (coherent_filings hcache hfilings) (fileDependency_filed rfl) hfresh

theorem holdsNeed_assemble_iff (p : Project) (r : Resolver) (depth : Nat) (c : ClassInfo) (m : MethodInfo)
    (attempt : Nat) (cache : Cache) (calls : List (Names × Cache)) (name : String) (entry : Entry) :
    (enrichAll p (r.resolve p) (assemble p (r.resolve p) depth c m attempt cache).1 calls).HoldsNeed
        name entry ↔
      (beforeCalls p (r.resolve p) c m attempt cache).1.HoldsNeed name entry := by
  have hdescribe (d : Dossier) : (describe c m d).HoldsNeed name entry ↔ d.HoldsNeed name entry := by
    cases entry <;> rfl
  rw [(extends_enrichAll _ calls).holdsNeed_iff]
  exact (hdescribe _).trans (extends_foldl (extends_fileCall depth c) m.calls.edges _).holdsNeed_iff

/-- **Constructors.** However deep the calls are followed and however often the dossier is enriched, its
maps for constructors hold the classes that constructors need, that are not the target, that the method
does not call, and that can be looked up or else reconstructed and pruned. Each is held as its own edge
asks for. -/
theorem constructorDeps_account (r : Resolver) (p : Project) (depth : Nat) (c : ClassInfo)
    (m : MethodInfo) (attempt : Nat) {cache : Cache} (hcache : cache.Coherent r)
    (calls : List (Names × Cache)) :
    let d := enrichAll p (r.resolve p) (assemble p (r.resolve p) depth c m attempt cache).1 calls
    (∀ name, d.constructorDeps.contains name = true ∨ d.externalConstructorDeps.contains name = true ↔
      ∃ wanted, c.constructorCalls.get? name = some wanted ∧ c.isNamed name = false ∧
        m.calls.contains name = false ∧ ((p.class? name).isSome = true ∨
          ∃ reconstruction, r.scan name = some reconstruction ∧
            (Resolver.prune? reconstruction wanted).isSome = true)) ∧
    (∀ name entry, d.HoldsNeed name entry → ∃ wanted,
      c.constructorCalls.get? name = some wanted ∧ r.Gives p name wanted entry) ∧
    ∀ name, m.calls.contains name = true →
      d.constructorDeps.contains name = false ∧ d.externalConstructorDeps.contains name = false := by
  intro d
  have hholds (name : String) (entry : Entry) : d.HoldsNeed name entry ↔
      ∃ wanted, c.constructorCalls.get? name = some wanted ∧ c.isNamed name = false ∧
        m.calls.contains name = false ∧ r.Gives p name wanted entry :=
    (holdsNeed_assemble_iff p r depth c m attempt cache calls name entry).trans
      (holdsNeed_beforeCalls hcache)
  refine ⟨fun name => ?_, fun name entry h => ?_, fun name hcalled => ?_⟩
  · simp only [← Dossier.exists_holdsNeed_iff, hholds, ← Resolver.exists_gives_iff]
    constructor
    · rintro ⟨entry, wanted, hneed, hother, huncalled, hgives⟩
      exact ⟨wanted, hneed, hother, huncalled, entry, hgives⟩
    · rintro ⟨wanted, hneed, hother, huncalled, entry, hgives⟩
      exact ⟨entry, wanted, hneed, hother, huncalled, hgives⟩
  · obtain ⟨wanted, hneed, -, -, hgives⟩ := (hholds name entry).1 h
    exact ⟨wanted, hneed, hgives⟩
  · rw [← Bool.not_eq_true, ← Bool.not_eq_true, ← not_or, ← Dossier.exists_holdsNeed_iff]
    rintro ⟨entry, hentry⟩
    obtain ⟨_, _, _, huncalled, _⟩ := (hholds name entry).1 hentry
    cases hcalled.symm.trans huncalled

namespace Shop

/-- The constructor of the cart opens the log, asks a zone for its area, and needs a class that is
nowhere. -/
def opening : ClassInfo where
  __ := cart
  constructorCalls := .ofList
    [("Audit", .ofList ["open()"]), ("Ghost", .ofList ["haunt()"]), ("Zone", .ofList ["area()"])]

/-- The tax, which the total of the cart calls, looks for another method of the zone. -/
def fair : Project := .ofList
  [opening, interface "Audit" [method "log" []],
    interface "Tax" [method "rate" [("Zone", ["find()"])]],
    interface "Zone" [method "area" [], method "find" []]]

def fairDossier : Dossier :=
  enrichAll fair (Resolver.resolve {} fair)
    (assemble fair (Resolver.resolve {} fair) 1 opening total 0 {}).1 [(.ofList ["Zone"], {})]

end Shop

open Shop in
/-- The zone is filed for its area. The log is a call, and the third class is nowhere. -/
theorem constructorDeps_account_fair :
    (∃ entry, fairDossier.HoldsNeed "Zone" entry ∧
      Resolver.Gives {} fair "Zone" (.ofList ["area()"]) entry) ∧
    fairDossier.constructorDeps.contains "Audit" = false ∧
    fairDossier.constructorDeps.contains "Ghost" = false := by
  obtain ⟨hkeys, hgives, hcalls⟩ := constructorDeps_account {} fair 1 opening total 0
    (Resolver.coherent_empty {}) [(.ofList ["Zone"], {})]
  have hzone : opening.constructorCalls.get? "Zone" = some (.ofList ["area()"]) := by decide
  refine ⟨?_, (hcalls "Audit" (by decide)).1, ?_⟩
  · obtain ⟨entry, hentry⟩ := Dossier.exists_holdsNeed_iff.2 ((hkeys "Zone").2
      ⟨_, hzone, by decide, by decide, .inl (by decide)⟩)
    obtain ⟨wanted, hwanted, hentry'⟩ := hgives "Zone" entry hentry
    cases hzone.symm.trans hwanted
    exact ⟨entry, hentry, hentry'⟩
  · rw [← Bool.not_eq_true]
    intro hghost
    obtain ⟨_, _, _, _, hclass | ⟨_, hscan, _⟩⟩ := (hkeys "Ghost").1 (.inl hghost)
    · exact absurd hclass (by decide)
    · cases hscan

end Assembly

end Testwright
