import Testwright.Proofs.Attempt.Dependencies
import Testwright.Proofs.Library.Cache

/-!
# What enriching adds

Enriching a dossier by a set of names is like a union of sets. As long as the resolver gives the same
answer to the same question (`Steady`), what a class would be filed as does not depend on the dossier
(`entryOf`), so every name is merely offered to it (`enrich_eq_offer`). Offers commute, and the second of
two equal ones changes nothing (`offer_comm`, `foldl_offer_absorb`); hence the order and the grouping of
names do not matter (`foldl_offer_congr`).

`Enriches` says what one name can come to with any resolver. By it enriching adds to the maps for calls,
leaves all else as it is (`Dossier.Extends`) and counts what it adds (`enrich_extends`).
-/

namespace Testwright

namespace Dossier

/-- The maps for calls hold at least what they held, and with them the reconstructed classes; all else is
the same. -/
structure Extends (d e : Dossier) : Prop where
  rest : e = { d with
    methodDeps := e.methodDeps, externalMethodDeps := e.externalMethodDeps
    reconstructed := e.reconstructed }
  methodDeps : d.methodDeps.Within e.methodDeps
  externalMethodDeps : d.externalMethodDeps.Within e.externalMethodDeps
  reconstructed : d.reconstructed.Within e.reconstructed

variable {d e f : Dossier}

theorem Extends.refl : d.Extends d := ⟨rfl, .refl, .refl, .refl⟩

theorem Extends.trans (h : d.Extends e) (h' : e.Extends f) : d.Extends f := by
  refine ⟨?_, h.2.trans h'.2, h.3.trans h'.3, h.4.trans h'.4⟩
  rw [h'.rest, h.rest]

/-- The number of classes in the maps for calls. -/
def called (d : Dossier) : Nat := d.methodDeps.size + d.externalMethodDeps.size

end Dossier

/-- What a class is filed as. -/
inductive Entry where
  | own (source : String)
  | external (source : String)

namespace Assembly

/-! ## Offers -/

def put (d : Dossier) (name : String) : Entry → Dossier
  | .own source => fileOwn .call d name source
  | .external source => fileExternal .call d name source

/-- The entry that a dossier takes for a class: none for the target and for classes that it holds. -/
def taken? (entries : String → Option Entry) (d : Dossier) (name : String) : Option Entry :=
  if d.isTarget name || d.hasDependency name then none else entries name

/-- File a class for calls if the dossier takes an entry for it. -/
def offer (entries : String → Option Entry) (d : Dossier) (name : String) : Dossier :=
  (taken? entries d name).elim d (put d name)

section
variable {entries : String → Option Entry} {d : Dossier} {j k : String} {l l' : List String}

theorem hasDependency_put (entry : Entry) :
    (put d j entry).hasDependency k = (decide (j = k) || d.hasDependency k) := by
  cases entry with
  | own source => exact hasDependency_fileOwn
  | external source => exact hasDependency_fileExternal

theorem isTarget_put (entry : Entry) : (put d j entry).isTarget k = d.isTarget k := by
  cases entry <;> rfl

theorem put_comm (h : j ≠ k) (x y : Entry) : put (put d j x) k y = put (put d k y) j x := by
  cases x <;> cases y <;>
    simp only [put, fileOwn, fileExternal, Dossier.activate, Names.insert, Dict.insert_comm h]

theorem taken?_put_self (entry : Entry) : taken? entries (put d k entry) k = none := by
  simp [taken?, hasDependency_put]

theorem taken?_put (h : j ≠ k) (entry : Entry) :
    taken? entries (put d j entry) k = taken? entries d k := by
  simp [taken?, hasDependency_put, isTarget_put, h]

theorem taken?_offer (h : j ≠ k) : taken? entries (offer entries d j) k = taken? entries d k := by
  unfold offer
  cases taken? entries d j with
  | none => rfl
  | some entry => exact taken?_put h entry

theorem taken?_offer_self : taken? entries (offer entries d k) k = none := by
  unfold offer
  cases htaken : taken? entries d k with
  | none => exact htaken
  | some entry => exact taken?_put_self entry

theorem taken?_offer_of_none (h : taken? entries d k = none) :
    taken? entries (offer entries d j) k = none := by
  by_cases hjk : j = k
  · subst hjk
    exact taken?_offer_self
  · rw [taken?_offer hjk, h]

theorem offer_of_none (h : taken? entries d k = none) : offer entries d k = d := by
  rw [offer, h]
  rfl

theorem offer_comm : offer entries (offer entries d j) k = offer entries (offer entries d k) j := by
  by_cases hjk : j = k
  · rw [hjk]
  · rw [offer, taken?_offer hjk, offer.eq_1 entries (offer entries d k),
      taken?_offer (Ne.symm hjk), offer, offer]
    cases taken? entries d j with
    | none => rfl
    | some x =>
      cases taken? entries d k with
      | none => rfl
      | some y => exact put_comm hjk x y

/-! ## Offers in a row -/

theorem taken?_foldl_of_none (h : taken? entries d k = none) :
    taken? entries (l.foldl (offer entries) d) k = none := by
  induction l generalizing d with
  | nil => exact h
  | cons j l ih => exact ih (taken?_offer_of_none h)

theorem taken?_foldl_of_mem (h : k ∈ l) : taken? entries (l.foldl (offer entries) d) k = none := by
  induction l generalizing d with
  | nil => cases h
  | cons j l ih =>
    rw [List.foldl_cons]
    rcases List.mem_cons.1 h with rfl | h
    · exact taken?_foldl_of_none taken?_offer_self
    · exact ih h

theorem foldl_offer_of_none (h : ∀ k ∈ l, taken? entries d k = none) :
    l.foldl (offer entries) d = d := by
  induction l with
  | nil => rfl
  | cons j l ih =>
    rw [List.foldl_cons, offer_of_none (h j List.mem_cons_self)]
    exact ih fun k hk => h k (List.mem_cons_of_mem j hk)

theorem foldl_offer_absorb (h : ∀ k ∈ l', k ∈ l) :
    (l ++ l').foldl (offer entries) d = l.foldl (offer entries) d := by
  rw [List.foldl_append]
  apply foldl_offer_of_none
  intro k hk
  exact taken?_foldl_of_mem (h k hk)

/-- What offers come to depends on nothing but which names are offered. -/
theorem foldl_offer_congr (h : ∀ k, k ∈ l ↔ k ∈ l') :
    l.foldl (offer entries) d = l'.foldl (offer entries) d := by
  calc l.foldl (offer entries) d
    _ = (l ++ l').foldl (offer entries) d := (foldl_offer_absorb fun k hk => (h k).2 hk).symm
    _ = (l' ++ l).foldl (offer entries) d :=
      List.perm_append_comm.foldl_eq' (fun _ _ _ _ _ => offer_comm) d
    _ = l'.foldl (offer entries) d := foldl_offer_absorb fun k hk => (h k).1 hk

end

/-! ## Enriching as offers -/

variable {σ : Type} {I : σ → Prop} {answer : String → Names → Resolution} {p : Project}
  {resolve : Resolve σ} {d : Dossier} {s : σ} {name : String}

/-- In certain states the answer of a resolver depends on the question alone, and the state after it is
such a state again. -/
def Steady (I : σ → Prop) (answer : String → Names → Resolution) (resolve : Resolve σ) : Prop :=
  ∀ name wanted s, I s → (resolve name wanted s).1 = answer name wanted ∧ I (resolve name wanted s).2

/-- What enriching files a class as. -/
def entryOf (p : Project) (answer : String → Names → Resolution) (name : String) : Option Entry :=
  match p.class? name with
  | some c => some (.own (c.excerpt (normalizeSignatures ∅)))
  | none =>
    match answer name (normalizeSignatures ∅) with
    | .found _ pruned => some (.external (.ofList pruned.source))
    | _ => none

theorem steady_resolve (r : Resolver) (p : Project) :
    Steady (Cache.Coherent r) (r.answer p) (r.resolve p) := by
  intro name wanted cache h
  exact Resolver.resolve_of_coherent p name wanted h

/-- What enriching by one name can come to. -/
inductive Enriches (p : Project) (resolve : Resolve σ) (name : String) :
    Nat × (Dossier × σ) → Nat × (Dossier × σ) → Prop
  | passed {n d s} (known : (d.isTarget name || d.hasDependency name) = true) :
    Enriches p resolve name (n, d, s) (n, d, s)
  | unresolved {n d s s' resolution} (new : (d.isTarget name || d.hasDependency name) = false)
    (foreign : p.class? name = none)
    (resolved : resolve name (normalizeSignatures ∅) s = (resolution, s'))
    (lost : ∀ reconstruction pruned, resolution ≠ .found reconstruction pruned) :
    Enriches p resolve name (n, d, s) (n, d, s')
  | own {n d s c} (new : (d.isTarget name || d.hasDependency name) = false)
    (own : p.class? name = some c) :
    Enriches p resolve name (n, d, s)
      (n + 1, put d name (.own (c.excerpt (normalizeSignatures ∅))), s)
  | external {n d s s' reconstruction pruned}
    (new : (d.isTarget name || d.hasDependency name) = false) (foreign : p.class? name = none)
    (resolved : resolve name (normalizeSignatures ∅) s = (.found reconstruction pruned, s')) :
    Enriches p resolve name (n, d, s) (n + 1, put d name (.external (.ofList pruned.source)), s')

theorem enriches_enrichStep (r : Nat × (Dossier × σ)) (name : String) :
    Enriches p resolve name r (enrichStep p resolve r name) := by
  obtain ⟨n, d, s⟩ := r
  unfold enrichStep
  cases hknown : d.isTarget name || d.hasDependency name with
  | true => exact .passed hknown
  | false =>
    simp only [Bool.false_eq_true, if_false]
    generalize hres : fileDependency p resolve .call name ∅ (d, s) = res
    cases fileDependency_filed hres with
    | present known => simp [known] at hknown
    | unresolved fresh foreign resolved lost => exact .unresolved hknown foreign resolved lost
    | own fresh own => exact .own hknown own
    | external fresh foreign resolved => exact .external hknown foreign resolved

/-- With a steady resolver a name is offered. -/
theorem enrichStep_steady (h : Steady I answer resolve) {r : Nat × (Dossier × σ)} (name : String)
    (hs : I r.2.2) :
    (enrichStep p resolve r name).2.1 = offer (entryOf p answer) r.2.1 name ∧
      I (enrichStep p resolve r name).2.2 := by
  obtain ⟨hanswer, hnext⟩ := h name (normalizeSignatures ∅) r.2.2 hs
  have hstep : Enriches p resolve name r _ := enriches_enrichStep r name
  generalize enrichStep p resolve r name = r' at *
  unfold offer taken?
  cases hstep with
  | passed known =>
    rw [if_pos known]
    exact ⟨rfl, hs⟩
  | unresolved new foreign resolved lost =>
    rw [resolved] at hanswer hnext
    -- the answer is none of those with a source
    have hnone : entryOf p answer name = none := by simp only [entryOf, foreign, ← hanswer]
    rw [new, hnone]
    exact ⟨rfl, hnext⟩
  | own new own =>
    simp only [new, entryOf, own]
    exact ⟨rfl, hs⟩
  | external new foreign resolved =>
    rw [resolved] at hanswer hnext
    simp only [new, entryOf, foreign, ← hanswer]
    exact ⟨rfl, hnext⟩

theorem enrich_eq_offer (h : Steady I answer resolve) (names : Names) (d : Dossier) (hs : I s) :
    (enrich p resolve names (d, s)).2.1 = names.toList.foldl (offer (entryOf p answer)) d ∧
      I (enrich p resolve names (d, s)).2.2 := by
  rw [enrich_eq_foldl]
  generalize (0 : Nat) = added
  -- the states on the way are again those in which the resolver is steady
  induction names.toList generalizing added d s with
  | nil => exact ⟨rfl, hs⟩
  | cons name l ih =>
    obtain ⟨hoffer, hnext⟩ := enrichStep_steady (p := p) h (r := (added, d, s)) name hs
    rw [List.foldl_cons, List.foldl_cons, ← hoffer]
    exact ih (enrichStep p resolve (added, d, s) name).2.1 hnext _

/-! ## What enriching leaves as it is -/

theorem extends_put (h : d.hasDependency name = false) (entry : Entry) :
    d.Extends (put d name entry) := by
  obtain ⟨-, -, hown, hexternal⟩ := Dossier.hasDependency_eq_false.1 h
  cases entry with
  | own source => exact ⟨rfl, Dict.within_insert hown, .refl, .refl⟩
  | external source =>
    refine ⟨rfl, .refl, Dict.within_insert hexternal, ?_⟩
    intro k v hk
    simp only [put, fileExternal, Dossier.activate, Names.insert, Dict.get?_insert]
    split
    · rfl
    · exact hk

theorem called_put (h : d.hasDependency name = false) (entry : Entry) :
    (put d name entry).called = d.called + 1 := by
  obtain ⟨-, -, hown, hexternal⟩ := Dossier.hasDependency_eq_false.1 h
  cases entry with
  | own source =>
    simp only [put, fileOwn, Dossier.called, Dict.size_insert, hown]
    exact Nat.add_right_comm _ 1 _
  | external source =>
    simp only [put, fileExternal, Dossier.activate, Dossier.called, Dict.size_insert, hexternal]
    rfl

/-- Enriching adds classes to the maps for calls, and counts them. -/
theorem enrich_extends (p : Project) (resolve : Resolve σ) (names : Names) (st : Dossier × σ) :
    st.1.Extends (enrich p resolve names st).2.1 ∧
      (enrich p resolve names st).2.1.called = st.1.called + (enrich p resolve names st).1 := by
  suffices hfold : ∀ (l : List String) (r : Nat × (Dossier × σ)),
      r.2.1.Extends (l.foldl (enrichStep p resolve) r).2.1 ∧
        (l.foldl (enrichStep p resolve) r).2.1.called + r.1 =
          r.2.1.called + (l.foldl (enrichStep p resolve) r).1 from hfold names.toList (0, st)
  intro l
  induction l with
  | nil => exact fun r => ⟨.refl, rfl⟩
  | cons name l ih =>
    intro r
    have hstep : Enriches p resolve name r _ := enriches_enrichStep r name
    rw [List.foldl_cons]
    generalize enrichStep p resolve r name = r' at *
    obtain ⟨hextends, hcalled⟩ := ih r'
    cases hstep with
    | passed | unresolved => exact ⟨hextends, hcalled⟩
    | own new | external new =>
      dsimp only at hextends hcalled ⊢
      have hfresh := (Bool.or_eq_false_iff.1 new).2
      refine ⟨(extends_put hfresh _).trans hextends, ?_⟩
      rw [called_put hfresh] at hcalled
      omega

end Assembly

end Testwright
