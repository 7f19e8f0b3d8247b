import Testwright.Proofs.Library.Cache

/-!
# Look-ups that race

Look-ups of a caching resolver may run at the same time. Each of them reads the cache, searches if
nothing is stored, and stores what it found unless another look-up came first (`Lookup.advance`);
between two of these steps the others go on, and what a search finds may differ from what the one
before found.

`Race.Sound` ties the cache and every look-up to the searches that were made. Each step keeps it and
leaves what is stored as it is (`Sound.turn`, `extends_turn`), so look-ups of one class that are
over have the same answer, found by one of the searches for that class (`race_agreed`). A look-up
that no other one interrupts is `Resolver.reconstruct` (`run_alone`).
-/

namespace Testwright

/-- How far a look-up has come. -/
inductive Phase where
  | begun
  /-- Nothing was stored when the cache was read. -/
  | missed
  /-- What the search found is not stored yet. -/
  | searched (found : Option Reconstruction)
  | answered (found : Option Reconstruction)
  deriving DecidableEq

structure Lookup where
  name : String
  phase : Phase := .begun
  deriving DecidableEq

/-- The next step of a look-up, with what it finds if it searches now. -/
def Lookup.advance (l : Lookup) (found : Option Reconstruction) (c : Cache) : Lookup × Cache :=
  match l.phase with
  | .begun =>
    match c.read l.name with
    | some stored => ({ l with phase := .answered stored }, c)
    | none => ({ l with phase := .missed }, c)
  | .missed => ({ l with phase := .searched found }, c.note l.name)
  | .searched result =>
    let (stored, c) := c.store l.name result
    ({ l with phase := .answered stored }, c)
  | .answered _ => (l, c)

/-- A search for a class and what it found. -/
abbrev Search := String × Option Reconstruction

/-- Look-ups with the cache that they share, and the searches so far, the latest first. -/
structure Race where
  cache : Cache := {}
  lookups : List Lookup := []
  searches : List Search := []
  deriving DecidableEq

namespace Race

/-- What happens next in a race. -/
inductive Turn where
  | begin (name : String)
  /-- A look-up takes its next step; if it searches, this is what it finds. -/
  | step (index : Nat) (found : Option Reconstruction)

/-- The search that the next step of a look-up makes. -/
def searchOf (l : Lookup) (found : Option Reconstruction) : List Search :=
  if l.phase = .missed then [(l.name, found)] else []

def turn (q : Race) : Turn → Race
  | .begin name => { q with lookups := q.lookups ++ [{ name }] }
  | .step index found =>
    match q.lookups[index]? with
    | none => q
    | some l =>
      let (l', cache) := l.advance found q.cache
      ⟨cache, q.lookups.set index l', searchOf l found ++ q.searches⟩

def run (q : Race) (turns : List Turn) : Race := turns.foldl turn q

/-! ## What a step keeps -/

/-- What a look-up has got was found by a search for its class, and what it answered is stored. -/
inductive LookupSound (cache : Cache) (searches : List Search) : Lookup → Prop
  | begun {name} : LookupSound cache searches ⟨name, .begun⟩
  | missed {name} : LookupSound cache searches ⟨name, .missed⟩
  | searched {name found} (mem : (name, found) ∈ searches) :
    LookupSound cache searches ⟨name, .searched found⟩
  | answered {name found} (read_eq : cache.read name = some found) :
    LookupSound cache searches ⟨name, .answered found⟩

/-- Everything stored was found by a search for its class, and look-ups are sound. -/
structure Sound (q : Race) : Prop where
  stored : ∀ name found, q.cache.read name = some found → (name, found) ∈ q.searches
  lookups : ∀ l ∈ q.lookups, LookupSound q.cache q.searches l

variable {cache : Cache} {searches : List Search} {l : Lookup} {q q' q'' : Race}

theorem read_advance (l : Lookup) (found : Option Reconstruction) {name : String}
    {result : Option Reconstruction} (h : cache.read name = some result) :
    (l.advance found cache).2.read name = some result := by
  unfold Lookup.advance
  split
  · split <;> exact h
  · exact h
  · exact Cache.read_store_of_read h
  · exact h

theorem LookupSound.more (h : LookupSound cache searches l) (next : Lookup)
    (found : Option Reconstruction) :
    LookupSound (next.advance found cache).2 (searchOf next found ++ searches) l := by
  cases h with
  | begun => exact .begun
  | missed => exact .missed
  | searched mem => exact .searched (List.mem_append_right _ mem)
  | answered read_eq => exact .answered (read_advance next found read_eq)

theorem lookupSound_advance (h : LookupSound cache searches l) (found : Option Reconstruction) :
    LookupSound (l.advance found cache).2 (searchOf l found ++ searches)
      (l.advance found cache).1 := by
  cases h with
  | @begun name =>
    simp only [Lookup.advance]
    cases hread : cache.read name with
    | none => exact .missed
    | some stored => exact .answered hread
  | missed => exact .searched (List.mem_append_left _ List.mem_cons_self)
  | searched => exact .answered Cache.read_store_self
  | answered read_eq => exact .answered read_eq

/-- What is stored after a step was stored before or has been found by a search. -/
theorem stored_advance
    (hstored : ∀ name found, cache.read name = some found → (name, found) ∈ searches)
    (h : LookupSound cache searches l) (found : Option Reconstruction) (name : String)
    (result : Option Reconstruction) (hread : (l.advance found cache).2.read name = some result) :
    (name, result) ∈ searchOf l found ++ searches := by
  -- only what an earlier step found is stored, never what this one finds
  refine List.mem_append_right _ ?_
  cases h with
  | @begun own =>
    simp only [Lookup.advance] at hread
    cases hown : cache.read own <;> rw [hown] at hread <;> exact hstored name result hread
  | missed | answered => exact hstored name result hread
  | searched mem =>
    rcases Cache.of_read_store hread with hread | ⟨rfl, rfl⟩
    · exact hstored name result hread
    · exact mem

theorem Sound.turn (h : q.Sound) (t : Turn) : (q.turn t).Sound := by
  cases t with
  | begin name =>
    refine ⟨h.stored, fun l hl => ?_⟩
    rcases List.mem_append.1 hl with hl | hl
    · exact h.lookups l hl
    · rw [List.mem_singleton.1 hl]
      exact .begun
  | step index found =>
    cases hindex : q.lookups[index]? with
    | none => simpa [Race.turn, hindex] using h
    | some l =>
      have hl := h.lookups l (List.mem_of_getElem? hindex)
      simp only [Race.turn, hindex]
      refine ⟨stored_advance h.stored hl found, fun k hk => ?_⟩
      rcases List.mem_or_eq_of_mem_set hk with hk | rfl
      · exact (h.lookups k hk).more l found
      · exact lookupSound_advance hl found

theorem Sound.run (h : q.Sound) (turns : List Turn) : (q.run turns).Sound := by
  induction turns generalizing q with
  | nil => exact h
  | cons t turns ih => exact ih (h.turn t)

/-- A look-up of a class is over and has given this. -/
def Answers (q : Race) (index : Nat) (name : String) (found : Option Reconstruction) : Prop :=
  q.lookups[index]? = some ⟨name, .answered found⟩

theorem Sound.read_eq {index : Nat} {name : String} {found : Option Reconstruction} (h : q.Sound)
    (ha : q.Answers index name found) : q.cache.read name = some found := by
  cases h.lookups _ (List.mem_of_getElem? ha) with
  | answered read_eq => exact read_eq

/-- What is stored, and what look-ups answered, stays. -/
structure Extends (q q' : Race) : Prop where
  stored : ∀ name found, q.cache.read name = some found → q'.cache.read name = some found
  answered : ∀ index name found, q.Answers index name found → q'.Answers index name found

theorem Extends.refl : Extends q q := ⟨fun _ _ h => h, fun _ _ _ h => h⟩

theorem Extends.trans (h : Extends q q') (h' : Extends q' q'') : Extends q q'' :=
  ⟨fun _ _ hread => h'.stored _ _ (h.stored _ _ hread),
    fun _ _ _ ha => h'.answered _ _ _ (h.answered _ _ _ ha)⟩

theorem extends_turn (q : Race) (t : Turn) : Extends q (q.turn t) := by
  cases t with
  | begin name =>
    refine ⟨fun _ _ h => h, fun index _ _ h => ?_⟩
    obtain ⟨hlt, -⟩ := List.getElem?_eq_some_iff.1 h
    exact (List.getElem?_append_left hlt).trans h
  | step index found =>
    cases hindex : q.lookups[index]? with
    | none =>
      rw [show q.turn (.step index found) = q by simp only [turn, hindex]]
      exact .refl
    | some l =>
      simp only [turn, hindex]
      refine ⟨fun _ _ => read_advance l found, fun k name result hk => ?_⟩
      by_cases heq : index = k
      · subst heq
        obtain rfl := Option.some.inj (hindex.symm.trans hk)
        obtain ⟨hlt, -⟩ := List.getElem?_eq_some_iff.1 hindex
        exact List.getElem?_set_self hlt
      · exact (List.getElem?_set_ne heq).trans hk

theorem extends_run (q : Race) (turns : List Turn) : Extends q (q.run turns) := by
  induction turns generalizing q with
  | nil => exact .refl
  | cons t turns ih => exact (extends_turn q t).trans (ih (q.turn t))

/-! ## Runs -/

theorem run_append (q : Race) (turns turns' : List Turn) :
    q.run (turns ++ turns') = (q.run turns).run turns' :=
  List.foldl_append

theorem sound_empty : Sound {} where
  stored name found h := by simp [Cache.read] at h
  lookups l hl := by simp at hl

section Alone

variable {index : Nat} {name : String}

theorem turn_step (h : q.lookups[index]? = some l) (found : Option Reconstruction) :
    (q.turn (.step index found)).lookups[index]? = some (l.advance found q.cache).1 ∧
      (q.turn (.step index found)).cache = (l.advance found q.cache).2 := by
  obtain ⟨hlt, -⟩ := List.getElem?_eq_some_iff.1 h
  simp only [turn, h]
  exact ⟨List.getElem?_set_self hlt, trivial⟩

/-- Three steps of one look-up in a row are a call of `Resolver.reconstruct`. -/
theorem run_alone {r : Resolver} (hr : r.caching = true)
    (h : q.lookups[index]? = some ⟨name, .begun⟩) :
    let q' := q.run (List.replicate 3 (.step index (r.scan name)))
    q'.Answers index name (r.reconstruct name q.cache).1 ∧
      q'.cache = (r.reconstruct name q.cache).2 := by
  intro q'
  obtain ⟨h₁, hc₁⟩ := turn_step h (r.scan name)
  obtain ⟨h₂, hc₂⟩ := turn_step h₁ (r.scan name)
  obtain ⟨h₃, hc₃⟩ := turn_step h₂ (r.scan name)
  change q'.lookups[index]? = _ at h₃
  change q'.cache = _ at hc₃
  rw [hc₂, hc₁] at h₃ hc₃
  unfold Answers
  rw [h₃, hc₃]
  -- What is stored now decides whether the look-up searches.
  cases hread : q.cache.read name with
  | some stored => simp [Lookup.advance, Resolver.reconstruct, hr, hread]
  | none => simp [Lookup.advance, Resolver.reconstruct, hr, hread]

end Alone

/-- What holds once a race has come about, whatever its searches find. -/
structure Agreed (turns : List Turn) : Prop where
  /-- What is stored, and what look-ups answered, stays. -/
  extended : ∀ turns', Extends (run {} turns) (run {} (turns ++ turns'))
  /-- Look-ups of one class that are over gave the same. -/
  same : ∀ i j name found found', Answers (run {} turns) i name found →
    Answers (run {} turns) j name found' → found = found'
  /-- They gave what one of the searches for the class found. -/
  searched : ∀ index name found, Answers (run {} turns) index name found →
    (name, found) ∈ (run {} turns).searches
  /-- A look-up that no other one interrupts is a call of a caching resolver. -/
  alone : ∀ (r : Resolver) index name, r.caching = true →
    (run {} turns).lookups[index]? = some ⟨name, .begun⟩ →
    let found := r.reconstruct name (run {} turns).cache
    let q := run {} (turns ++ List.replicate 3 (.step index (r.scan name)))
    q.Answers index name found.1 ∧ q.cache = found.2

/-- Look-ups that race agree, however they interleave. -/
theorem race_agreed (turns : List Turn) : Agreed turns where
  extended turns' := by
    rw [run_append]
    exact extends_run _ turns'
  same i j name found found' hi hj := by
    have hsound := sound_empty.run turns
    exact Option.some.inj ((hsound.read_eq hi).symm.trans (hsound.read_eq hj))
  searched index name found ha := by
    have hsound := sound_empty.run turns
    exact hsound.stored name found (hsound.read_eq ha)
  alone r index name hr hbegun := by
    rw [run_append]
    exact run_alone hr hbegun

-- Both look-ups read the cache before one of them searches; the one that stores first decides.
example :
    let found : Reconstruction := { className := "a.B", origin := "lib", source := "class B { }" }
    let q := run {} [.begin "a.B", .begin "a.B", .step 0 none, .step 1 none, .step 0 none,
      .step 1 (some found), .step 1 none, .step 0 none]
    q.Answers 0 "a.B" (some found) ∧ q.Answers 1 "a.B" (some found) ∧
      q.searches = [("a.B", some found), ("a.B", none)] := by
  unfold Answers
  decide

end Race

end Testwright
