import Mathlib.Data.List.TakeWhile
import Testwright.Proofs.Attempt.Dependencies
import Testwright.Proofs.Library.Cache

/-!
# Direct calls and the walks before them

The calls of the method under test are filed in the order of the called classes, and from each
class on its own calls are followed before the next one has its turn. A class that both the method
and an earlier class call is therefore filed for what the earlier class wants of it, and its own
turn changes nothing.

`Dossier.Serves` says that a dossier holds what a call edge asks for. `serves_assemble_iff` says
exactly when a direct edge is served: if no walk has filed the class before, or if what a walk
filed happens to hold all that the edge wants. `overtaken_not_served` is a project where it does
not.
-/

namespace Testwright

/-- The entry of a class is the one made for the wanted methods. -/
def Dossier.EntryFor (r : Resolver) (p : Project) (d : Dossier) (name : String)
    (wanted : Names) : Prop :=
  match p.class? name with
  | some c => d.methodDeps.get? name = some (c.excerpt (normalizeSignatures wanted))
  | none => ∃ reconstruction pruned, r.answer p name wanted = .found reconstruction pruned ∧
      d.externalMethodDeps.get? name = some (.ofList pruned.source)

/-- A dossier holds what a call edge asks for: the source of every wanted method of a class of the
project, and a class that can be reconstructed as it is pruned to the wanted methods. -/
def Dossier.Serves (r : Resolver) (p : Project) (d : Dossier) (name : String)
    (wanted : Names) : Prop :=
  match p.class? name with
  | some c => ∃ text, d.methodDeps.get? name = some text ∧
      ∀ signature, wanted.contains signature = true → ∀ m, c.method? signature = some m →
        m.source.toList <:+: text.toList
  | none => ∀ reconstruction pruned, r.scan name = some reconstruction →
      Resolver.prune? reconstruction wanted = some pruned →
        d.externalMethodDeps.get? name = some (.ofList pruned.source)

section
variable {r : Resolver} {p : Project} {d e : Dossier} {name : String} {wanted : Names}

theorem Dossier.EntryFor.of_sameEntry (h : d.EntryFor r p name wanted)
    (same : Dossier.SameEntry name d e) : e.EntryFor r p name wanted := by
  unfold EntryFor at *
  rwa [same.methodDeps, same.externalMethodDeps]

theorem Dossier.SameEntry.serves_iff (same : Dossier.SameEntry name d e) :
    e.Serves r p name wanted ↔ d.Serves r p name wanted := by
  unfold Serves
  rw [same.methodDeps, same.externalMethodDeps]

/-- The answer for a class that is not of the project, by its reconstruction. -/
theorem Resolver.answer_eq_found (foreign : p.class? name = none) {reconstruction pruned}
    (hscan : r.scan name = some reconstruction)
    (hprune : Resolver.prune? reconstruction wanted = some pruned) :
    r.answer p name wanted = .found reconstruction pruned := by
  simp [Resolver.answer, foreign, hscan, Resolver.conclude, hprune]

/-- An entry serves the edge it was made for. -/
theorem Dossier.EntryFor.serves (h : d.EntryFor r p name wanted) : d.Serves r p name wanted := by
  unfold EntryFor at h
  unfold Serves
  split at h
  · next c _ =>
    refine ⟨_, h, fun signature hs m hm => ?_⟩
    have hkept : (normalizeSignatures wanted).contains (normalizeSignature signature) = true :=
      contains_normalizeSignatures.2 ⟨signature, hs, rfl⟩
    exact ClassInfo.source_infix_excerpt hkept (by simpa using hm)
  · next foreign =>
    obtain ⟨_, _, hanswer, hentry⟩ := h
    intro reconstruction pruned hscan hprune
    rw [Resolver.answer_eq_found foreign hscan hprune] at hanswer
    cases hanswer
    exact hentry

end

namespace Assembly

variable {r : Resolver} {p : Project} {need : Need} {name : String} {wanted : Names}
  {st st' : Dossier × Cache}

/-! ## Walks -/

/-- The calls of the wanted methods of a class, whether it is of the project or reconstructed. -/
def nextCalls? (r : Resolver) (p : Project) (name : String) (wanted : Names) : Option Calls :=
  match p.class? name with
  | some c => some (callsOf c (normalizeSignatures wanted))
  | none =>
    match r.answer p name wanted with
    | .found reconstruction pruned =>
      some (reconstructedCalls name reconstruction.source pruned.kept)
    | _ => none

/-- Some methods of a class are called at the end of a walk of at most `n` calls that begins with
one of the given calls. -/
inductive Walk (r : Resolver) (p : Project) : Nat → Calls → String → Names → Prop
  | edge {n calls name wanted} (mem : (name, wanted) ∈ calls.edges) :
    Walk r p (n + 1) calls name wanted
  | step {n calls via viaWanted next name wanted} (mem : (via, viaWanted) ∈ calls.edges)
    (next? : nextCalls? r p via viaWanted = some next) (walk : Walk r p n next name wanted) :
    Walk r p (n + 1) calls name wanted

/-! ## What one filing adds -/

section
variable {res : Option Calls × (Dossier × Cache)}

theorem coherent_filed (hcache : st.2.Coherent r)
    (h : Filed p (r.resolve p) need name wanted st res) : res.2.2.Coherent r := by
  cases h with
  | present | own => exact hcache
  | unresolved _ _ resolved | external _ _ resolved =>
    have := (Resolver.resolve_of_coherent p name (normalizeSignatures wanted) hcache).2
    rwa [resolved] at this

theorem nextCalls?_of_filed (hcache : st.2.Coherent r)
    (h : Filed p (r.resolve p) need name wanted st res) {next : Calls} (hnext : res.1 = some next) :
    nextCalls? r p name wanted = some next := by
  cases h with
  | present | unresolved => cases hnext
  | own _ own =>
    cases hnext
    simp only [nextCalls?, own]
  | external _ foreign resolved =>
    cases hnext
    have := (Resolver.resolve_of_coherent p name (normalizeSignatures wanted) hcache).1
    rw [resolved, Resolver.answer_normalizeSignatures] at this
    simp only [nextCalls?, foreign, ← this]

/-- The class that a call files has the entry for what the call wants. -/
theorem entryFor_of_filed (hcache : st.2.Coherent r)
    (h : Filed p (r.resolve p) .call name wanted st res) (fresh : st.1.hasDependency name = false)
    (known : res.2.1.hasDependency name = true) : res.2.1.EntryFor r p name wanted := by
  cases h with
  | present | unresolved => simp [known] at fresh
  | own _ own => simp [Dossier.EntryFor, own, fileOwn]
  | @external d s s' reconstruction pruned _ foreign resolved =>
    have := (Resolver.resolve_of_coherent p name (normalizeSignatures wanted) hcache).1
    rw [resolved, Resolver.answer_normalizeSignatures] at this
    simp only [Dossier.EntryFor, foreign]
    exact ⟨reconstruction, pruned, this.symm, by simp [fileExternal]⟩

/-- A class that can be had is known once it is filed. -/
theorem known_of_filed (hcache : st.2.Coherent r)
    (h : Filed p (r.resolve p) need name wanted st res)
    (had : (nextCalls? r p name wanted).isSome = true) : res.2.1.hasDependency name = true := by
  cases h with
  | present known => exact known
  | unresolved _ foreign resolved lost =>
    have := (Resolver.resolve_of_coherent p name (normalizeSignatures wanted) hcache).1
    rw [resolved, Resolver.answer_normalizeSignatures] at this
    simp only [nextCalls?, foreign, ← this] at had
    cases had
  | own => simp [hasDependency_fileOwn]
  | external => simp [hasDependency_fileExternal]

end

theorem coherent_filings (hcache : st.2.Coherent r) (h : Filings p (r.resolve p) st st') :
    st'.2.Coherent r := by
  induction h with
  | refl => exact hcache
  | tail _ h ih =>
    obtain ⟨need, name, wanted, _, rfl⟩ := h
    exact coherent_filed ih (fileDependency_filed rfl)

/-- A class that a fold files for the first time is filed by one of its steps, and keeps the entry
it has got there. -/
theorem exists_step_of_new {α : Type} {core : Dossier} {f : Dossier × Cache → α → Dossier × Cache}
    (hf : ∀ st a, st.1.core = core → Filings p (r.resolve p) st (f st a)) :
    ∀ (l : List α) {st : Dossier × Cache}, st.1.core = core → st.2.Coherent r →
      st.1.hasDependency name = false → (l.foldl f st).1.hasDependency name = true →
      ∃ a ∈ l, ∃ mid : Dossier × Cache, mid.1.core = core ∧ mid.2.Coherent r ∧
        mid.1.hasDependency name = false ∧ (f mid a).1.hasDependency name = true ∧
        Dossier.SameEntry name (f mid a).1 (l.foldl f st).1
  | [], _, _, _, fresh, known => by simp [fresh] at known
  | a :: l, st, hcore, hcache, fresh, known => by
    have step := hf st a hcore
    have hcore' := (core_filings step).trans hcore
    cases hnew : (f st a).1.hasDependency name with
    | true =>
      exact ⟨a, List.mem_cons_self, st, hcore, hcache, fresh, hnew,
        sameEntry_filings (filings_foldl hf l hcore') hnew⟩
    | false =>
      obtain ⟨b, hb, mid, h⟩ :=
        exists_step_of_new hf l hcore' (coherent_filings hcache step) hnew known
      exact ⟨b, List.mem_cons_of_mem a hb, mid, h⟩

/-- A class that a visit files for the first time is the visited one or lies on a walk from there;
its entry is the one for the wanted methods of the last call. -/
theorem walk_of_visit {n : Nat} {e : String × Names}
    (hfollow : ∀ {calls} {st : Dossier × Cache}, st.2.Coherent r →
      st.1.hasDependency name = false →
      (follow p (r.resolve p) n calls st).1.hasDependency name = true →
      ∃ wanted, Walk r p n calls name wanted ∧
        (follow p (r.resolve p) n calls st).1.EntryFor r p name wanted)
    (hcache : st.2.Coherent r) (fresh : st.1.hasDependency name = false)
    (known : (visit p (r.resolve p) n st e).1.hasDependency name = true) :
    (e.1 = name ∧ (visit p (r.resolve p) n st e).1.EntryFor r p name e.2) ∨
      ∃ next wanted, nextCalls? r p e.1 e.2 = some next ∧ Walk r p n next name wanted ∧
        (visit p (r.resolve p) n st e).1.EntryFor r p name wanted := by
  unfold visit at *
  generalize hres : fileDependency p (r.resolve p) .call e.1 e.2 st = res at *
  have filed := fileDependency_filed hres
  -- either this call itself files the class, or the walk from it does
  cases hnew : res.2.1.hasDependency name with
  | true =>
    have heq : e.1 = name := by
      refine Decidable.byContradiction fun hne => ?_
      rw [(sameEntry_filed filed hne).hasDependency_eq, fresh] at hnew
      cases hnew
    subst heq
    have entry := entryFor_of_filed hcache filed fresh hnew
    refine .inl ⟨rfl, ?_⟩
    match res with
    | (none, _) => exact entry
    | (some next, st') => exact entry.of_sameEntry (sameEntry_filings (filings_follow n next st') hnew)
  | false =>
    match res with
    | (none, _) => exact absurd known (by simp [hnew])
    | (some next, st') =>
      obtain ⟨wanted, walk, entry⟩ := hfollow (coherent_filed hcache filed) hnew known
      exact .inr ⟨next, wanted, nextCalls?_of_filed hcache filed rfl, walk, entry⟩

theorem walk_of_follow {n : Nat} {calls : Calls} (hcache : st.2.Coherent r)
    (fresh : st.1.hasDependency name = false)
    (known : (follow p (r.resolve p) n calls st).1.hasDependency name = true) :
    ∃ wanted, Walk r p n calls name wanted ∧
      (follow p (r.resolve p) n calls st).1.EntryFor r p name wanted := by
  induction n generalizing calls st with
  | zero => simp [follow, fresh] at known
  | succ n ih =>
    rw [follow_succ] at *
    obtain ⟨⟨via, viaWanted⟩, hmem, mid, -, hmid, hfresh, hknown, same⟩ :=
      exists_step_of_new (fun _ e _ => filings_followStep (filings_follow n) e) calls.edges rfl
        hcache fresh known
    unfold followStep at hknown same
    split at hknown
    · simp [hfresh] at hknown
    · next hskip =>
      rw [if_neg hskip] at same
      rcases walk_of_visit ih hmid hfresh hknown with
        ⟨rfl, entry⟩ | ⟨next, wanted, hnext, walk, entry⟩
      · exact ⟨viaWanted, .edge hmem, entry.of_sameEntry same⟩
      · exact ⟨wanted, .step hmem hnext walk, entry.of_sameEntry same⟩

/-! ## Direct calls -/

variable {c : ClassInfo} {m : MethodInfo} {attempt depth : Nat}

/-- The direct calls that are filed before a class has its turn. -/
def callsBefore (m : MethodInfo) (name : String) : List (String × Names) :=
  m.calls.edges.takeWhile fun e => e.1 != name

/-- The dossier when a class that the method calls has its turn. -/
def atTurn (r : Resolver) (p : Project) (depth : Nat) (c : ClassInfo) (m : MethodInfo)
    (attempt : Nat) (cache : Cache) (name : String) : Dossier × Cache :=
  (callsBefore m name).foldl (fileCall p (r.resolve p) depth c)
    (beforeCalls p (r.resolve p) c m attempt cache)

/-- The calls of a method split at the one of a class. -/
theorem exists_edges_eq (hcall : m.calls.get? name = some wanted) :
    ∃ after, m.calls.edges = callsBefore m name ++ (name, wanted) :: after := by
  have hmem : (name, wanted) ∈ m.calls.edges := Dict.mem_entries.2 hcall
  have hdrop : m.calls.edges.dropWhile (fun e => e.1 != name) ≠ [] := by
    intro hnil
    simpa using List.dropWhile_eq_nil_iff.1 hnil _ hmem
  obtain ⟨⟨name', wanted'⟩, after, hcons⟩ := List.exists_cons_of_ne_nil hdrop
  have hhead : name' = name := by
    simpa [hcons] using List.head_dropWhile_not (fun e : String × Names => e.1 != name) hdrop
  subst hhead
  have hsplit : m.calls.edges = callsBefore m name' ++ (name', wanted') :: after := by
    rw [← hcons]
    exact List.takeWhile_append_dropWhile.symm
  have hget : m.calls.get? name' = some wanted' :=
    Dict.mem_entries.1 (show _ ∈ m.calls.edges by simp [hsplit])
  rw [hcall, Option.some.injEq] at hget
  exact ⟨after, hget ▸ hsplit⟩

/-- A class that the method calls is not filed for a constructor. -/
theorem fresh_beforeCalls {σ : Type} {resolve : Resolve σ} {s : σ}
    (hcall : m.calls.contains name = true) :
    (beforeCalls p resolve c m attempt s).1.hasDependency name = false := by
  have keep : ∀ (l : List (String × Names)) (st : Dossier × σ),
      st.1.hasDependency name = false →
        (l.foldl (fileConstructorNeed p resolve m) st).1.hasDependency name = false := by
    intro l
    induction l with
    | nil => exact fun _ h => h
    | cons e l ih =>
      intro st h
      refine ih _ ?_
      unfold fileConstructorNeed
      split
      · exact h
      · next hskip =>
        have hne : e.1 ≠ name := fun heq => by simp [heq, hcall] at hskip
        rw [(sameEntry_filed (fileDependency_filed rfl) hne).hasDependency_eq, h]
  exact keep _ _ (by simp [Dossier.start, Dossier.hasDependency])

theorem coherent_beforeCalls {cache : Cache} (hcache : cache.Coherent r) :
    (beforeCalls p (r.resolve p) c m attempt cache).2.Coherent r :=
  coherent_filings (show (Dossier.start c m attempt, cache).2.Coherent r from hcache)
    (filings_beforeCalls cache)

theorem core_beforeCalls {cache : Cache} : (beforeCalls p (r.resolve p) c m attempt cache).1.core =
    (Dossier.start c m attempt).core :=
  core_filings (filings_beforeCalls cache)

theorem coherent_atTurn {cache : Cache} (hcache : cache.Coherent r) :
    (atTurn r p depth c m attempt cache name).2.Coherent r :=
  coherent_filings (coherent_beforeCalls hcache) (filings_fileCalls core_beforeCalls _)

theorem core_atTurn {cache : Cache} : (atTurn r p depth c m attempt cache name).1.core =
    (Dossier.start c m attempt).core :=
  (core_filings (filings_fileCalls core_beforeCalls _)).trans core_beforeCalls

/-- After the turn of a class, assembling is a further chain of filings. -/
theorem exists_filings_after_turn (r : Resolver) (p : Project) (depth attempt : Nat) (cache : Cache)
    (hcall : m.calls.get? name = some wanted) (hother : c.isNamed name = false) : ∃ st,
      Filings p (r.resolve p)
        (visit p (r.resolve p) depth (atTurn r p depth c m attempt cache name) (name, wanted)) st ∧
      assemble p (r.resolve p) depth c m attempt cache = (describe c m st.1, st.2) := by
  obtain ⟨after, hsplit⟩ := exists_edges_eq hcall
  have hturn : fileCall p (r.resolve p) depth c (atTurn r p depth c m attempt cache name)
      (name, wanted) =
        visit p (r.resolve p) depth (atTurn r p depth c m attempt cache name) (name, wanted) := by
    rw [fileCall_eq, hother]
    rfl
  have hcore : (visit p (r.resolve p) depth (atTurn r p depth c m attempt cache name)
      (name, wanted)).1.core = (Dossier.start c m attempt).core := by
    rw [← hturn]
    exact (core_filings (filings_fileCall core_atTurn _)).trans core_atTurn
  have hfold : m.calls.edges.foldl (fileCall p (r.resolve p) depth c)
      (beforeCalls p (r.resolve p) c m attempt cache) =
        after.foldl (fileCall p (r.resolve p) depth c)
          (visit p (r.resolve p) depth (atTurn r p depth c m attempt cache name)
            (name, wanted)) := by
    rw [hsplit, List.foldl_append, List.foldl_cons]
    exact congrArg (after.foldl _) hturn
  refine ⟨after.foldl (fileCall p (r.resolve p) depth c) _, filings_fileCalls hcore after, ?_⟩
  rw [← hfold]
  rfl

/-- A class that no walk has filed before its turn is served. -/
theorem serves_of_visit {n : Nat} (hcache : st.2.Coherent r)
    (fresh : st.1.hasDependency name = false)
    (h : Filings p (r.resolve p) (visit p (r.resolve p) n st (name, wanted)) st') :
    st'.1.Serves r p name wanted := by
  generalize hres : fileDependency p (r.resolve p) .call name wanted st = res at *
  have filed := fileDependency_filed hres
  cases hhad : nextCalls? r p name wanted with
  | some next =>
    have known := known_of_filed hcache filed (by simp [hhad])
    have entry := entryFor_of_filed hcache filed fresh known
    have rest : Filings p (r.resolve p) res.2 st' := by
      unfold visit at h
      rw [hres] at h
      match res with
      | (none, _) => exact h
      | (some _, _) => exact (filings_follow _ _ _).trans h
    exact (entry.of_sameEntry (sameEntry_filings rest known)).serves
  | none =>
    -- the class can neither be looked up nor reconstructed, so the edge asks for nothing
    unfold Dossier.Serves
    unfold nextCalls? at hhad
    split at hhad
    · cases hhad
    · next foreign =>
      intro reconstruction pruned hscan hprune
      rw [Resolver.answer_eq_found foreign hscan hprune] at hhad
      cases hhad

/-- **Direct calls.** A class that the method calls is served if and only if no walk has filed it
before its turn, or what was filed holds all that the method wants. A class that is known at its
turn lies on a walk from a class that the method calls earlier, and is filed for the wanted methods
of the last call of that walk. -/
theorem serves_assemble_iff (r : Resolver) (p : Project) (depth : Nat) (c : ClassInfo)
    (m : MethodInfo) (attempt : Nat) {cache : Cache} (hcache : cache.Coherent r)
    (hcall : m.calls.get? name = some wanted) (hother : c.isNamed name = false) :
    let d := (assemble p (r.resolve p) depth c m attempt cache).1
    let before := (atTurn r p depth c m attempt cache name).1
    (d.Serves r p name wanted ↔
      before.hasDependency name = false ∨ before.Serves r p name wanted) ∧
    (before.hasDependency name = true → ∃ e ∈ callsBefore m name, c.isNamed e.1 = false ∧
      ∃ next walked, nextCalls? r p e.1 e.2 = some next ∧ Walk r p depth next name walked ∧
        d.EntryFor r p name walked) := by
  intro d before
  obtain ⟨st, rest, hassemble⟩ := exists_filings_after_turn r p depth attempt cache hcall hother
  have hd : Dossier.SameEntry name st.1 d := by
    change Dossier.SameEntry name st.1 (assemble p (r.resolve p) depth c m attempt cache).1
    rw [hassemble]
    exact ⟨rfl, rfl, rfl, rfl⟩
  have hkept (known : before.hasDependency name = true) : Dossier.SameEntry name before d := by
    refine .trans (sameEntry_filings (.trans (filings_visit (filings_follow depth) ?_) rest) known)
      hd
    rw [Dossier.isTarget_of_core core_atTurn, Dossier.isTarget_start]
    exact hother
  constructor
  · cases known : before.hasDependency name with
    | false =>
      simp only [true_or, iff_true]
      exact hd.serves_iff.2 (serves_of_visit (coherent_atTurn hcache) known rest)
    | true => simp [(hkept known).serves_iff]
  · intro known
    -- the first of the earlier calls after which the class is known has filed it
    obtain ⟨e, hmem, mid, hcore, hmid, hfresh, hknown, same⟩ :=
      exists_step_of_new (fun _ e h => filings_fileCall h e) (callsBefore m name) core_beforeCalls
        (coherent_beforeCalls hcache)
        (fresh_beforeCalls (Dict.contains_of_get? hcall)) known
    rw [fileCall_eq] at hknown same
    split at hknown
    · simp [hfresh] at hknown
    · next hnamed =>
      rw [if_neg hnamed] at same
      have hne : e.1 ≠ name := by simpa using List.mem_takeWhile_imp hmem
      rcases walk_of_visit walk_of_follow hmid hfresh hknown with
        ⟨heq, -⟩ | ⟨next, walked, hnext, walk, entry⟩
      · exact absurd heq hne
      · exact ⟨e, hmem, by simpa using hnamed, next, walked, hnext, walk,
          entry.of_sameEntry (same.trans (hkept known))⟩

/-! ## A class that is reached twice -/

namespace Shop

/-- A method without parameters that makes some calls. -/
def method (name : String) (calls : List (String × List String)) : MethodInfo where
  name
  signature := name ++ "()"
  source := "int " ++ name ++ "();"
  calls := .ofList (calls.map fun e => (e.1, .ofList e.2))

def interface (name : String) (methods : List MethodInfo) : ClassInfo :=
  methods.foldl ClassInfo.insertMethod { fullName := name, name, header := "interface " ++ name }

/-- The total of a cart is logged and taxed. -/
def total : MethodInfo := method "total" [("Audit", ["log()"]), ("Tax", ["rate()"])]

def cart : ClassInfo := interface "Cart" [total]

/-- The log asks for another method of the tax than the cart does. -/
def shop : Project := .ofList
  [cart, interface "Audit" [method "log" [("Tax", ["base()"])]],
    interface "Tax" [method "base" [], method "rate" []]]

def dossier (depth : Nat) : Dossier :=
  (assemble shop (Resolver.resolve {} shop) depth cart total 0 {}).1

end Shop

open Shop in
/-- Without further steps the cart gets the rate of the tax. -/
theorem serves_tax_of_depth_zero : (dossier 0).Serves {} shop "Tax" (.ofList ["rate()"]) := by
  have hcall : total.calls.get? "Tax" = some (.ofList ["rate()"]) := by decide +kernel
  have hother : cart.isNamed "Tax" = false := by decide +kernel
  refine (serves_assemble_iff {} shop 0 cart total 0 (Resolver.coherent_empty {}) hcall hother).1.2 ?_
  exact .inl (by decide +kernel)

open Shop in
/-- With one step the log is followed first: the tax is filed for its base, and the rate that the
cart calls is nowhere. -/
theorem overtaken_not_served : total.calls.get? "Tax" = some (.ofList ["rate()"]) ∧
    cart.isNamed "Tax" = false ∧ ¬(dossier 1).Serves {} shop "Tax" (.ofList ["rate()"]) := by
  refine ⟨by decide +kernel, by decide +kernel, fun h => ?_⟩
  have hclass : shop.class? "Tax" = some (interface "Tax" [method "base" [], method "rate" []]) := by
    decide +kernel
  have hfiled : (dossier 1).methodDeps.get? "Tax" =
      some "interface Tax \x7b\n\nint base();\n\x7d" := by
    decide +kernel
  unfold Dossier.Serves at h
  rw [hclass, hfiled] at h
  obtain ⟨_, heq, hsource⟩ := h
  cases heq
  have hrate := hsource "rate()" (by decide +kernel) (method "rate" []) (by decide +kernel)
  exact absurd hrate (by decide +kernel)

end Assembly

end Testwright
