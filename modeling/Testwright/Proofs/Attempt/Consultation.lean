import Testwright.Proofs.Attempt.Likeness
import Testwright.Proofs.Library.Cache

/-!
# Resolving with and without a cache

A client asks a resolver, and the assembler on top of it, one thing after another and may choose
each request by what it got before (`Resolver.consult`). Every response is the one that a search
for every question would give (`Resolver.reply`), whatever was asked before, because the cache of a
sound resolver holds nothing but results of searches (`serve_of_sound`). So a cache changes no
response; all it does is that no class is searched for twice (`consult_faithful`).
-/

namespace Testwright

/-- No class was searched for twice, and what a search gave is stored. -/
structure Cache.Thrifty (cache : Cache) : Prop where
  once : cache.scanned.Nodup
  stored : ∀ name ∈ cache.scanned, (cache.read name).isSome = true

@[simp] theorem Cache.scanned_store (cache : Cache) (name : String)
    (found : Option Reconstruction) : (cache.store name found).2.scanned = cache.scanned := by
  unfold store
  cases cache.read name <;> rfl

/-- A question to a resolver or to the assembler. -/
inductive Request where
  | resolve (p : Project) (name : String) (wanted : Names)
  | reconstruct (name : String)
  | assemble (p : Project) (depth : Nat) (c : ClassInfo) (m : MethodInfo) (attempt : Nat)
  | enrich (p : Project) (names : Names) (d : Dossier)

inductive Response where
  | resolution (resolution : Resolution)
  | reconstruction (found : Option Reconstruction)
  | dossier (d : Dossier)
  | enriched (added : Nat) (d : Dossier)
  deriving DecidableEq

abbrev Transcript := List (Request × Response)

namespace Resolver

def serve (r : Resolver) (request : Request) (cache : Cache) : Response × Cache :=
  match request with
  | .resolve p name wanted =>
    let (resolution, cache) := r.resolve p name wanted cache
    (.resolution resolution, cache)
  | .reconstruct name =>
    let (found, cache) := r.reconstruct name cache
    (.reconstruction found, cache)
  | .assemble p depth c m attempt =>
    let (d, cache) := Assembly.assemble p (r.resolve p) depth c m attempt cache
    (.dossier d, cache)
  | .enrich p names d =>
    let (added, d, cache) := Assembly.enrich p (r.resolve p) names (d, cache)
    (.enriched added d, cache)

/-- The first requests of a client, with the responses, and the cache after them. The client
chooses each request by the ones before. -/
def consult (r : Resolver) (client : Transcript → Request) : Nat → Transcript × Cache
  | 0 => ([], {})
  | n + 1 =>
    let (past, cache) := r.consult client n
    let (response, cache) := r.serve (client past) cache
    (past ++ [(client past, response)], cache)

/-- Resolving that keeps nothing in mind. -/
def resolveAfresh (r : Resolver) (p : Project) : Resolve Unit :=
  fun name wanted s => (r.answer p name wanted, s)

/-- The response to a request by itself. -/
def reply (r : Resolver) : Request → Response
  | .resolve p name wanted => .resolution (r.answer p name wanted)
  | .reconstruct name => .reconstruction (r.scan name)
  | .assemble p depth c m attempt =>
    .dossier (Assembly.assemble p (r.resolveAfresh p) depth c m attempt ()).1
  | .enrich p names d =>
    let (added, d, _) := Assembly.enrich p (r.resolveAfresh p) names (d, ())
    .enriched added d

/-- The same resolver with or without a cache. -/
def withCache (r : Resolver) (caching : Bool) : Resolver := { r with caching }

theorem reply_withCache (r : Resolver) (caching : Bool) :
    (r.withCache caching).reply = r.reply := by
  funext request
  cases request <;> rfl

/-- A conversation in which each response is the one to its request. -/
def converse (reply : Request → Response) (client : Transcript → Request) : Nat → Transcript
  | 0 => []
  | n + 1 =>
    let past := converse reply client n
    past ++ [(client past, reply (client past))]

/-! ## Soundness -/

/-- The cache holds results of searches, and with caching all of them. -/
structure Sound (r : Resolver) (cache : Cache) : Prop where
  coherent : cache.Coherent r
  thrifty : r.caching = true → cache.Thrifty

variable {r : Resolver} {p : Project} {cache : Cache} {name : String} {wanted : Names}

theorem sound_empty (r : Resolver) : r.Sound {} where
  coherent := coherent_empty r
  thrifty _ := ⟨List.nodup_nil, fun _ h => absurd h List.not_mem_nil⟩

theorem thrifty_reconstruct (hr : r.caching = true) (h : cache.Thrifty) :
    (r.reconstruct name cache).2.Thrifty := by
  unfold reconstruct
  rw [if_pos hr]
  cases hread : cache.read name with
  | some found => exact h
  | none =>
    have fresh : name ∉ cache.scanned := by
      intro hmem
      have := h.stored name hmem
      simp [hread] at this
    refine ⟨?_, fun k hk => ?_⟩
    · simpa [Cache.note] using ⟨fresh, h.once⟩
    · simp only [Cache.scanned_store, Cache.note, List.mem_cons] at hk
      rcases hk with rfl | hk
      · exact Option.isSome_iff_exists.2 ⟨_, Cache.read_store_self⟩
      · obtain ⟨found, hfound⟩ := Option.isSome_iff_exists.1 (h.stored k hk)
        exact Option.isSome_iff_exists.2 ⟨found, Cache.read_store_of_read hfound⟩

theorem sound_reconstruct (name : String) (h : r.Sound cache) :
    r.Sound (r.reconstruct name cache).2 where
  coherent := (reconstruct_of_coherent name h.coherent).2
  thrifty hr := thrifty_reconstruct hr (h.thrifty hr)

theorem sound_resolve (p : Project) (name : String) (wanted : Names) (h : r.Sound cache) :
    r.Sound (r.resolve p name wanted cache).2 := by
  unfold resolve
  split
  · exact h
  · exact sound_reconstruct name h

theorem agree_resolveAfresh (r : Resolver) (p : Project) :
    Assembly.Agree (fun cache (_ : Unit) => r.Sound cache) (r.resolve p) (r.resolveAfresh p) := by
  intro name wanted cache s h
  have hanswer := (resolve_of_coherent p name wanted h.coherent).1
  exact ⟨_, _, s, Prod.ext hanswer rfl, rfl, sound_resolve p name wanted h⟩

theorem serve_of_sound (request : Request) (h : r.Sound cache) :
    (r.serve request cache).1 = r.reply request ∧ r.Sound (r.serve request cache).2 := by
  cases request with
  | resolve p name wanted =>
    exact ⟨congrArg Response.resolution (resolve_of_coherent p name wanted h.coherent).1,
      sound_resolve p name wanted h⟩
  | reconstruct name =>
    exact ⟨congrArg Response.reconstruction (reconstruct_of_coherent name h.coherent).1,
      sound_reconstruct name h⟩
  | assemble p depth c m attempt =>
    have hmatch : Assembly.Match (fun cache _ => r.Sound cache)
        (Assembly.assemble p (r.resolve p) depth c m attempt cache)
        (Assembly.assemble p (r.resolveAfresh p) depth c m attempt ()) :=
      Assembly.match_assemble (agree_resolveAfresh r p) h attempt attempt
    refine ⟨congrArg Response.dossier (hmatch.alike.eq ?_).symm, hmatch.related⟩
    rw [Assembly.attempt_assemble, Assembly.attempt_assemble]
  | enrich p names d =>
    have hstart : Assembly.Match (fun cache (_ : Unit) => r.Sound cache) (d, cache) (d, ()) :=
      ⟨.refl, h⟩
    obtain ⟨hadded, hmatch⟩ :=
      Assembly.match_enrich (p := p) (agree_resolveAfresh r p) hstart names
    refine ⟨congrArg₂ Response.enriched hadded (hmatch.alike.eq ?_).symm, hmatch.related⟩
    rw [Assembly.attempt_enrich, Assembly.attempt_enrich]

theorem consult_spec (r : Resolver) (client : Transcript → Request) (n : Nat) :
    (r.consult client n).1 = converse r.reply client n ∧ r.Sound (r.consult client n).2 := by
  induction n with
  | zero => exact ⟨rfl, sound_empty r⟩
  | succ n ih =>
    obtain ⟨hpast, hsound⟩ := ih
    obtain ⟨hresponse, hnext⟩ := serve_of_sound (client (r.consult client n).1) hsound
    refine ⟨?_, hnext⟩
    rw [hpast] at hresponse
    simp only [consult, converse, hpast, hresponse]

theorem reply_of_mem_converse {reply : Request → Response} {client : Transcript → Request} {n : Nat}
    {x : Request × Response} (h : x ∈ converse reply client n) : x.2 = reply x.1 := by
  induction n with
  | zero => cases h
  | succ n ih =>
    rcases List.mem_append.1 h with h | h
    · exact ih h
    · rw [List.mem_singleton.1 h]

/-- The responses to assembling for two attempts differ in the attempt alone. -/
theorem reply_attempts {depth i j : Nat} {c : ClassInfo} {m : MethodInfo} {d e : Dossier}
    (hd : r.reply (.assemble p depth c m i) = .dossier d)
    (he : r.reply (.assemble p depth c m j) = .dossier e) :
    d.attempt = i ∧ e = { d with attempt := j } := by
  have hagree : Assembly.Agree (fun (_ _ : Unit) => True) (r.resolveAfresh p)
      (r.resolveAfresh p) := fun _ _ _ _ _ => ⟨_, _, _, rfl, rfl, trivial⟩
  have hmatch : Assembly.Match (fun _ _ => True)
      (Assembly.assemble p (r.resolveAfresh p) depth c m i ())
      (Assembly.assemble p (r.resolveAfresh p) depth c m j ()) :=
    Assembly.match_assemble hagree trivial i j
  cases hd
  cases he
  exact ⟨Assembly.attempt_assemble .., hmatch.alike.eq_of_attempt (Assembly.attempt_assemble ..)⟩

/-! ## Consultations -/

/-- What a client sees of a resolver with a cache and of one without. -/
structure Faithful (r : Resolver) (client : Transcript → Request) (n : Nat) : Prop where
  same : ((r.withCache true).consult client n).1 = ((r.withCache false).consult client n).1
  /-- A response depends on its request only. -/
  replied : ∀ x ∈ ((r.withCache true).consult client n).1, x.2 = r.reply x.1
  /-- The dossiers of two attempts at one method differ in the attempt alone. -/
  attempts : ∀ p depth c m i j d e,
    (.assemble p depth c m i, .dossier d) ∈ ((r.withCache true).consult client n).1 →
      (.assemble p depth c m j, .dossier e) ∈ ((r.withCache true).consult client n).1 →
      d.attempt = i ∧ e = { d with attempt := j }
  /-- With a cache no class is searched for twice. -/
  once : ((r.withCache true).consult client n).2.scanned.Nodup

theorem consult_faithful (r : Resolver) (client : Transcript → Request) (n : Nat) :
    r.Faithful client n := by
  obtain ⟨hcached, hsound⟩ := consult_spec (r.withCache true) client n
  obtain ⟨hplain, -⟩ := consult_spec (r.withCache false) client n
  rw [reply_withCache] at hcached hplain
  have replied : ∀ x ∈ ((r.withCache true).consult client n).1, x.2 = r.reply x.1 := by
    intro x hx
    rw [hcached] at hx
    exact reply_of_mem_converse hx
  constructor
  case same => exact hcached.trans hplain.symm
  case replied => exact replied
  case attempts =>
    intro p depth c m i j d e hd he
    exact reply_attempts (replied _ hd).symm (replied _ he).symm
  case once => exact (hsound.thrifty rfl).once

-- A class that is not found is searched for once with a cache and each time without.
example :
    let client := fun _ => Request.reconstruct "a.B"
    ((withCache {} true).consult client 2).2.scanned = ["a.B"] ∧
      ((withCache {} false).consult client 2).2.scanned = ["a.B", "a.B"] := by
  decide

end Resolver

end Testwright
