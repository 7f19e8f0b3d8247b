import Testwright.Proofs.Attempt.DirectCalls

/-!
# Chains of calls

A class is filed for calls because the method under test calls it, or because a class does that is
filed for calls already. `Dossier.Chain` says how far away from the method a call is, along classes that
the dossier holds; each of them calls the next one in the methods it was filed for (`Dossier.Holds`).

A dossier is `Grounded` if every class in its two maps for calls stands at the end of such a chain.
Filing a class at the end of a chain keeps this and lengthens the chain by one (`grounded_visit`), so a
walk keeps it as long as its steps do not run out (`grounded_follow`), and `filed_iff_chain` says which
classes an assembled dossier can hold, whatever cycles the calls form.
-/

namespace Testwright

/-! ## Calls of several methods -/

namespace Calls

variable {calls : Calls} {name target : String} {signature : String} {signatures : Names}

/-- The calls ask for a method of a class. -/
def Asks (calls : Calls) (name signature : String) : Prop :=
  ∃ asked, calls.get? name = some asked ∧ asked.contains signature = true

theorem contains_add : (calls.add target signatures).contains name = true ↔
    target = name ∨ calls.contains name = true := by
  rw [Calls.add, Dict.alter, Dict.contains_insert, Bool.or_eq_true, decide_eq_true_eq]

theorem asks_add : (calls.add target signatures).Asks name signature ↔
    target = name ∧ signatures.contains signature = true ∨ calls.Asks name signature := by
  rw [Asks, Calls.add, Dict.alter, Dict.get?_insert]
  by_cases htarget : target = name
  · subst htarget
    cases hold : calls.get? target with
    | none => simp [Asks, hold, Names.contains_union]
    | some asked => simp [Asks, hold, Names.contains_union, or_comm]
  · simp [Asks, htarget]

theorem contains_foldl_add {l : List (String × Names)} :
    (l.foldl (fun calls e => calls.add e.1 e.2) calls).contains name = true ↔
      (∃ e ∈ l, e.1 = name) ∨ calls.contains name = true := by
  induction l generalizing calls with
  | nil => simp
  | cons e l ih =>
    rw [List.foldl_cons, ih, contains_add]
    simp [or_left_comm, or_assoc]

theorem asks_foldl_add {l : List (String × Names)} :
    (l.foldl (fun calls e => calls.add e.1 e.2) calls).Asks name signature ↔
      (∃ e ∈ l, e.1 = name ∧ e.2.contains signature = true) ∨ calls.Asks name signature := by
  induction l generalizing calls with
  | nil => simp
  | cons e l ih =>
    rw [List.foldl_cons, ih, asks_add]
    simp [or_left_comm, or_assoc]

theorem exists_edge_iff : (∃ e ∈ calls.edges, e.1 = name) ↔ calls.contains name = true := by
  rw [← Dict.mem_keys]
  exact List.mem_map.symm

theorem asks_iff_edge : (∃ e ∈ calls.edges, e.1 = name ∧ e.2.contains signature = true) ↔
    calls.Asks name signature := by
  constructor
  · rintro ⟨⟨_, asked⟩, hedge, rfl, hasked⟩
    exact ⟨asked, Dict.mem_entries.1 hedge, hasked⟩
  · rintro ⟨asked, hget, hasked⟩
    exact ⟨(name, asked), Dict.mem_entries.2 hget, rfl, hasked⟩

end Calls

/-- Some methods of a class call another class, and this is what they want of it together. -/
structure ClassInfo.CallsFor (c : ClassInfo) (methods : Names) (name : String) (wanted : Names) :
    Prop where
  caller : ∃ signature m, methods.contains signature = true ∧ c.method? signature = some m ∧
    m.calls.contains name = true
  wanted : ∀ s, wanted.contains s = true ↔ ∃ signature m, methods.contains signature = true ∧
    c.method? signature = some m ∧ m.calls.Asks name s

namespace Assembly

section
variable {c : ClassInfo} {methods wanted : Names} {name : String}

/-- The edges of all the calls that some methods make. -/
def edgesOf (c : ClassInfo) (methods : Names) : List (String × Names) :=
  (methods.toList.filterMap c.method?).flatMap fun m => m.calls.edges

theorem callsOf_eq : callsOf c methods =
    (edgesOf c methods).foldl (fun calls e => calls.add e.1 e.2) ∅ := by
  rw [edgesOf, List.foldl_flatMap]
  rfl

theorem mem_edgesOf {e : String × Names} : e ∈ edgesOf c methods ↔
    ∃ signature m, methods.contains signature = true ∧ c.method? signature = some m ∧
      e ∈ m.calls.edges := by
  simp only [edgesOf, List.mem_flatMap, List.mem_filterMap, Names.mem_toList]
  grind

theorem callsFor_of_get? (h : (callsOf c methods).get? name = some wanted) :
    c.CallsFor methods name wanted := by
  constructor
  · have hcalled := Dict.contains_of_get? h
    rw [callsOf_eq, Calls.contains_foldl_add] at hcalled
    obtain ⟨e, hedge, hname⟩ := hcalled.resolve_right (by simp)
    obtain ⟨signature, m, hmethods, hm, hedge⟩ := mem_edgesOf.1 hedge
    exact ⟨signature, m, hmethods, hm, Calls.exists_edge_iff.1 ⟨e, hedge, hname⟩⟩
  · intro s
    have hasks : wanted.contains s = true ↔ (callsOf c methods).Asks name s := by
      simp [Calls.Asks, h]
    have hnone : ¬Calls.Asks ∅ name s := by simp [Calls.Asks]
    rw [hasks, callsOf_eq, Calls.asks_foldl_add, or_iff_left hnone]
    constructor
    · rintro ⟨e, hedge, hname, hs⟩
      obtain ⟨signature, m, hmethods, hm, hedge⟩ := mem_edgesOf.1 hedge
      exact ⟨signature, m, hmethods, hm, Calls.asks_iff_edge.1 ⟨e, hedge, hname, hs⟩⟩
    · rintro ⟨signature, m, hmethods, hm, hasks⟩
      obtain ⟨e, hedge, hname, hs⟩ := Calls.asks_iff_edge.2 hasks
      exact ⟨e, mem_edgesOf.2 ⟨signature, m, hmethods, hm, hedge⟩, hname, hs⟩

/-- The class of a reconstructed source that has the full name, or else the simple name. -/
def reconstructedClass? (className source : String) : Option ClassInfo :=
  (Java.indexSource? source.toList).bind fun classes =>
    (classes.find? fun c => c.fullName == className).or
      (classes.find? fun c => c.name == simpleName className)

theorem reconstructedCalls_eq (className source : String) (methods : Names) :
    reconstructedCalls className source methods =
      ((reconstructedClass? className source).map fun c => callsOf c methods).getD ∅ := by
  unfold reconstructedCalls reconstructedClass?
  cases Java.indexSource? source.toList with
  | none => rfl
  | some classes =>
    simp only [Option.bind_some]
    cases classes.find? fun c => c.fullName == className with
    | some c => rfl
    | none =>
      cases classes.find? fun c => c.name == simpleName className with
      | some c => rfl
      | none => rfl

end

end Assembly

/-! ## Chains -/

section
variable {σ : Type}

/-- A class is filed for what is wanted of it. Its calls are those that the class of the project makes
in these methods, or the reconstructed class in the methods that pruning kept. -/
inductive Dossier.Holds (p : Project) (resolve : Resolve σ) (d : Dossier) (name : String)
    (wanted : Names) : Option ClassInfo → Names → Prop
  | own {c} (own : p.class? name = some c)
    (entry : d.methodDeps.get? name = some (c.excerpt (normalizeSignatures wanted))) :
    Holds p resolve d name wanted (some c) (normalizeSignatures wanted)
  | external {s s' reconstruction pruned} (foreign : p.class? name = none)
    (resolved : resolve name (normalizeSignatures wanted) s = (.found reconstruction pruned, s'))
    (entry : d.externalMethodDeps.get? name = some (.ofList pruned.source)) :
    Holds p resolve d name wanted (Assembly.reconstructedClass? name reconstruction.source)
      pruned.kept

/-- A chain of `n` filed classes leads from a method to a call of a class, for what is wanted of it. -/
inductive Dossier.Chain (p : Project) (resolve : Resolve σ) (d : Dossier) (m : MethodInfo) :
    Nat → String → Names → Prop
  | direct {name wanted} (call : m.calls.get? name = some wanted) : Chain p resolve d m 0 name wanted
  | hop {n via viaWanted c methods name wanted} (chain : Chain p resolve d m n via viaWanted)
    (holds : d.Holds p resolve via viaWanted (some c) methods)
    (call : c.CallsFor methods name wanted) : Chain p resolve d m (n + 1) name wanted

/-- A class is filed at the end of a chain of at most `n` classes. -/
def Dossier.HoldsWithin (p : Project) (resolve : Resolve σ) (d : Dossier) (m : MethodInfo) (n : Nat)
    (name : String) : Prop :=
  ∃ k wanted c methods, k ≤ n ∧ d.Chain p resolve m k name wanted ∧
    d.Holds p resolve name wanted c methods

/-- One of the two maps for calls holds a class. -/
def Dossier.isCalled (d : Dossier) (name : String) : Bool :=
  d.methodDeps.contains name || d.externalMethodDeps.contains name

/-- All classes in the maps for calls are filed at the end of a chain. -/
def Dossier.Grounded (p : Project) (resolve : Resolve σ) (m : MethodInfo) (n : Nat) (d : Dossier) :
    Prop :=
  ∀ name, d.isCalled name = true → d.HoldsWithin p resolve m n name

variable {p : Project} {resolve : Resolve σ} {d e : Dossier} {m : MethodInfo} {n k : Nat}
  {name : String} {wanted : Names} {c : Option ClassInfo} {methods : Names}

theorem Dossier.Holds.isCalled (h : d.Holds p resolve name wanted c methods) :
    d.isCalled name = true := by
  cases h with
  | own _ entry => simp [Dossier.isCalled, Dict.contains_of_get? entry]
  | external _ _ entry => simp [Dossier.isCalled, Dict.contains_of_get? entry]

theorem Dossier.hasDependency_of_isCalled (h : d.isCalled name = true) :
    d.hasDependency name = true := by
  rw [Dossier.isCalled, Bool.or_eq_true] at h
  rcases h with h | h <;> simp [Dossier.hasDependency, h]

/-- The entries of a dossier stay in another one. -/
def Dossier.Keeps (d e : Dossier) : Prop :=
  ∀ name, d.hasDependency name = true → Dossier.SameEntry name d e

theorem Dossier.Holds.of_keeps (h : d.Holds p resolve name wanted c methods) (hkeeps : d.Keeps e) :
    e.Holds p resolve name wanted c methods := by
  have hsame := hkeeps name (Dossier.hasDependency_of_isCalled h.isCalled)
  cases h with
  | own own entry => exact .own own (hsame.methodDeps.trans entry)
  | external foreign resolved entry =>
    exact .external foreign resolved (hsame.externalMethodDeps.trans entry)

theorem Dossier.Chain.of_keeps (h : d.Chain p resolve m n name wanted) (hkeeps : d.Keeps e) :
    e.Chain p resolve m n name wanted := by
  induction h with
  | direct call => exact .direct call
  | hop _ holds call ih => exact .hop ih (holds.of_keeps hkeeps) call

theorem Dossier.HoldsWithin.of_keeps (h : d.HoldsWithin p resolve m n name) (hkeeps : d.Keeps e) :
    e.HoldsWithin p resolve m n name := by
  obtain ⟨k, wanted, c, methods, hk, hchain, hholds⟩ := h
  exact ⟨k, wanted, c, methods, hk, hchain.of_keeps hkeeps, hholds.of_keeps hkeeps⟩

end

namespace Assembly

variable {σ : Type} {p : Project} {resolve : Resolve σ} {m : MethodInfo} {depth n k : Nat}
  {st st' : Dossier × σ}

theorem keeps_of_filings (h : Filings p resolve st st') : st.1.Keeps st'.1 := by
  intro name hknown
  exact sameEntry_filings h hknown

/-! ## Walks -/

theorem grounded_of_new {d e : Dossier} {name : String} (hgrounded : d.Grounded p resolve m depth)
    (hkeeps : d.Keeps e) (hnew : e.HoldsWithin p resolve m depth name)
    (hcalled : ∀ other, e.isCalled other = (decide (name = other) || d.isCalled other)) :
    e.Grounded p resolve m depth := by
  intro other hother
  rw [hcalled, Bool.or_eq_true, decide_eq_true_eq] at hother
  rcases hother with rfl | hold
  · exact hnew
  · exact (hgrounded other hold).of_keeps hkeeps

theorem isCalled_fileOwn {d : Dossier} {name source other : String} :
    (fileOwn .call d name source).isCalled other = (decide (name = other) || d.isCalled other) := by
  simp only [fileOwn, Dossier.isCalled, Dict.contains_insert, Bool.or_assoc]

theorem isCalled_fileExternal {d : Dossier} {name source other : String} :
    (fileExternal .call d name source).isCalled other =
      (decide (name = other) || d.isCalled other) := by
  simp only [fileExternal, Dossier.activate, Dossier.isCalled, Dict.contains_insert,
    Bool.or_left_comm]

/-- What a class calls that is filed at the end of a chain is one hop further. -/
theorem grounded_filed {name : String} {wanted : Names} {res : Option Calls × (Dossier × σ)}
    (h : Filed p resolve .call name wanted st res) (hkeeps : st.1.Keeps res.2.1) (hk : k ≤ depth)
    (hchain : st.1.Chain p resolve m k name wanted) (hgrounded : st.1.Grounded p resolve m depth) :
    res.2.1.Grounded p resolve m depth ∧ ∀ next, res.1 = some next →
      ∀ e ∈ next.edges, res.2.1.Chain p resolve m (k + 1) e.1 e.2 := by
  cases h with
  | present | unresolved => exact ⟨hgrounded, nofun⟩
  | @own d s c fresh own =>
    have hholds : (fileOwn .call d name (c.excerpt (normalizeSignatures wanted))).Holds p resolve
        name wanted (some c) (normalizeSignatures wanted) := .own own (by simp [fileOwn])
    have hchain := hchain.of_keeps hkeeps
    constructor
    · exact grounded_of_new hgrounded hkeeps ⟨k, wanted, _, _, hk, hchain, hholds⟩
        fun _ => isCalled_fileOwn
    · intro next hnext e hedge
      cases hnext
      exact .hop hchain hholds (callsFor_of_get? (Dict.mem_entries.1 hedge))
  | @external d s s' reconstruction pruned fresh foreign resolved =>
    have hholds : (fileExternal .call d name (.ofList pruned.source)).Holds p resolve name wanted
        (reconstructedClass? name reconstruction.source) pruned.kept :=
      .external foreign resolved (by simp [fileExternal])
    have hchain := hchain.of_keeps hkeeps
    constructor
    · exact grounded_of_new hgrounded hkeeps ⟨k, wanted, _, _, hk, hchain, hholds⟩
        fun _ => isCalled_fileExternal
    · intro next hnext e hedge
      cases hnext
      rw [reconstructedCalls_eq] at hedge
      cases hclass : reconstructedClass? name reconstruction.source with
      | none =>
        rw [hclass] at hedge
        exact absurd hedge List.not_mem_nil
      | some c =>
        simp only [hclass, Option.map_some, Option.getD_some] at hedge
        rw [hclass] at hholds
        exact .hop hchain hholds (callsFor_of_get? (Dict.mem_entries.1 hedge))

/-- A fold keeps dossiers grounded if its steps do so for calls at the end of a chain. -/
theorem grounded_foldl {core : Dossier} {f : Dossier × σ → String × Names → Dossier × σ}
    (hf : ∀ st e, st.1.core = core → Filings p resolve st (f st e))
    (hgrounded : ∀ st e, st.1.core = core → st.1.Chain p resolve m k e.1 e.2 →
      st.1.Grounded p resolve m depth → (f st e).1.Grounded p resolve m depth)
    {l : List (String × Names)} (hcore : st.1.core = core)
    (hl : ∀ e ∈ l, st.1.Chain p resolve m k e.1 e.2) (h : st.1.Grounded p resolve m depth) :
    (l.foldl f st).1.Grounded p resolve m depth := by
  induction l generalizing st with
  | nil => exact h
  | cons e l ih =>
    have hstep := hf st e hcore
    -- the calls to come stay at the ends of their chains, since no entry is lost
    apply ih ((core_filings hstep).trans hcore)
    · intro e' he'
      exact (hl e' (List.mem_cons_of_mem e he')).of_keeps (keeps_of_filings hstep)
    · exact hgrounded st e hcore (hl e List.mem_cons_self) h

theorem grounded_visit {e : String × Names}
    (hfollow : ∀ {calls} {st : Dossier × σ},
      (∀ e ∈ calls.edges, st.1.Chain p resolve m (k + 1) e.1 e.2) →
      st.1.Grounded p resolve m depth → (follow p resolve n calls st).1.Grounded p resolve m depth)
    (hother : st.1.isTarget e.1 = false) (hk : k ≤ depth)
    (hchain : st.1.Chain p resolve m k e.1 e.2) (hgrounded : st.1.Grounded p resolve m depth) :
    (visit p resolve n st e).1.Grounded p resolve m depth := by
  have hstep : Filings p resolve st _ := filings_fileDependency .call e.2 hother
  unfold visit
  generalize hres : fileDependency p resolve .call e.1 e.2 st = res at hstep
  obtain ⟨hres, hnext⟩ := grounded_filed (fileDependency_filed hres) (keeps_of_filings hstep) hk
    hchain hgrounded
  match res with
  | (none, _) => exact hres
  | (some next, _) => exact hfollow (hnext next rfl) hres

/-- A walk keeps dossiers grounded as long as it ends within the hops that are allowed. -/
theorem grounded_follow {calls : Calls} (hn : k + n ≤ depth + 1)
    (hcalls : ∀ e ∈ calls.edges, st.1.Chain p resolve m k e.1 e.2)
    (hgrounded : st.1.Grounded p resolve m depth) :
    (follow p resolve n calls st).1.Grounded p resolve m depth := by
  -- the steps that are left and the length of the chains add up to the same
  induction n generalizing k calls st with
  | zero => exact hgrounded
  | succ n ih =>
    rw [follow_succ]
    apply grounded_foldl (fun _ e _ => filings_followStep (filings_follow n) e) _ rfl hcalls hgrounded
    intro st e _ hchain hgrounded
    unfold followStep
    split
    · exact hgrounded
    · next hskip =>
      simp only [Bool.or_eq_true, not_or, Bool.not_eq_true] at hskip
      exact grounded_visit (ih (by omega)) hskip.1 (by omega) hchain hgrounded

/-! ## Dossiers -/

variable {c : ClassInfo} {attempt : Nat}

/-- Constructors add nothing to the maps for calls. -/
theorem isCalled_beforeCalls (s : σ) (name : String) :
    (beforeCalls p resolve c m attempt s).1.isCalled name = false := by
  have keep (l : List (String × Names)) (st : Dossier × σ) :
      (l.foldl (fileConstructorNeed p resolve m) st).1.isCalled name = st.1.isCalled name := by
    induction l generalizing st with
    | nil => rfl
    | cons e l ih =>
      rw [List.foldl_cons, ih, fileConstructorNeed]
      split
      · rfl
      · generalize hres : fileDependency p resolve .constructor e.1 e.2 st = res
        cases fileDependency_filed hres with
        | present | unresolved | own | external => rfl
  exact keep _ _

theorem grounded_assemble (p : Project) (resolve : Resolve σ) (depth : Nat) (c : ClassInfo)
    (m : MethodInfo) (attempt : Nat) (s : σ) :
    (assemble p resolve depth c m attempt s).1.Grounded p resolve m depth := by
  have hbefore : (beforeCalls p resolve c m attempt s).1.Grounded p resolve m depth := by
    intro name hcalled
    rw [isCalled_beforeCalls] at hcalled
    cases hcalled
  have hcalls : (m.calls.edges.foldl (fileCall p resolve depth c)
      (beforeCalls p resolve c m attempt s)).1.Grounded p resolve m depth := by
    apply grounded_foldl (k := 0) (fun _ e hcore => filings_fileCall hcore e) _
      (core_filings (filings_beforeCalls s)) _ hbefore
    · intro st e hcore hchain hgrounded
      rw [fileCall_eq]
      split
      · exact hgrounded
      · next hnamed =>
        apply grounded_visit (grounded_follow (by omega)) _ (Nat.zero_le depth) hchain hgrounded
        rw [Dossier.isTarget_of_core hcore, Dossier.isTarget_start]
        simpa using hnamed
    · intro e hedge
      exact .direct (Dict.mem_entries.1 hedge)
  intro name hcalled
  exact (hcalls name hcalled).of_keeps fun _ _ => ⟨rfl, rfl, rfl, rfl⟩

/-- **Chains of calls.** The maps for calls of an assembled dossier hold a class if and only if it is
filed at the end of a chain of at most `depth` classes that are filed there as well. Without further
hops the method calls it itself. -/
theorem filed_iff_chain (p : Project) (resolve : Resolve σ) (depth : Nat) (c : ClassInfo)
    (m : MethodInfo) (attempt : Nat) (s : σ) (name : String) :
    let d := (assemble p resolve depth c m attempt s).1
    (d.methodDeps.contains name = true ∨ d.externalMethodDeps.contains name = true ↔
      ∃ k wanted c methods, k ≤ depth ∧ d.Chain p resolve m k name wanted ∧
        d.Holds p resolve name wanted c methods) ∧
    (depth = 0 → d.methodDeps.contains name = true ∨ d.externalMethodDeps.contains name = true →
      m.calls.contains name = true) := by
  intro d
  have hcalled : d.methodDeps.contains name = true ∨ d.externalMethodDeps.contains name = true ↔
      d.isCalled name = true := (Bool.or_eq_true _ _).symm.to_iff
  rw [hcalled]
  constructor
  · constructor
    · exact grounded_assemble p resolve depth c m attempt s name
    · rintro ⟨_, _, _, _, _, _, hholds⟩
      exact hholds.isCalled
  · intro hdepth hname
    obtain ⟨k, wanted, _, _, hk, hchain, _⟩ :=
      grounded_assemble p resolve depth c m attempt s name hname
    cases hchain with
    | direct call => exact Dict.contains_of_get? call
    | hop => omega

namespace Shop

/-- The log and the tax call each other, and the tax a zone, which calls the cart again. -/
def ring : Project := .ofList
  [cart, interface "Audit" [method "log" [("Tax", ["base()"])]],
    interface "Tax" [method "base" [("Audit", ["log()"]), ("Zone", ["find()"])], method "rate" []],
    interface "Zone" [method "find" [("Cart", ["total()"])]]]

def ringDossier (depth : Nat) : Dossier :=
  (assemble ring (Resolver.resolve {} ring) depth cart total 0 {}).1

end Shop

open Shop in
/-- The zone is two hops away, and without hops there is the tax. -/
theorem filed_iff_chain_ring :
    ((ringDossier 2).methodDeps.contains "Zone" = true ∧ ∃ k wanted c methods, k ≤ 2 ∧
      (ringDossier 2).Chain ring (Resolver.resolve {} ring) total k "Zone" wanted ∧
      (ringDossier 2).Holds ring (Resolver.resolve {} ring) "Zone" wanted c methods) ∧
    (ringDossier 0).methodDeps.contains "Tax" = true ∧ total.calls.contains "Tax" = true := by
  have hzone : (ringDossier 2).methodDeps.contains "Zone" = true := by decide
  have htax : (ringDossier 0).methodDeps.contains "Tax" = true := by decide
  refine ⟨⟨hzone, ?_⟩, htax, ?_⟩
  · exact (filed_iff_chain ring (Resolver.resolve {} ring) 2 cart total 0 {} "Zone").1.1 (.inl hzone)
  · exact (filed_iff_chain ring (Resolver.resolve {} ring) 0 cart total 0 {} "Tax").2 rfl (.inl htax)

end Assembly

end Testwright
