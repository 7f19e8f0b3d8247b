import Testwright.Proofs.Project.Reconciling

/-!
# Declared signatures that stand in for a call

A call is sought among declared signatures in passes: as it is written, by the exact types of its
arguments, by widened types, and by its name and number of arguments alone. The first pass that finds
anything decides. `distance` is the pass in which a declared signature is found, so those that stand in
for a call are the ones at the least distance (`mem_standIns`), whatever their order and however often
they are listed.

`reconcileWanted_laws` follows from this: reconciling works on each wanted signature alone, a signature
that stands in for another one stands for itself, and where the index replaces a call by the only
signature that fits, the same one stands in for it.
-/

namespace Testwright

namespace Overload

variable {declared declared' : List String} {call d : String} {wanted : Names}

/-! ## How close a declared signature is -/

/-- Two signatures have one name and one number of parameters. -/
def SameShape (call d : String) : Prop := ∃ name args params,
  splitSignature? call = some (name, args) ∧ splitSignature? d = some (name, params) ∧
    args.length = params.length

theorem sameShape_iff : sameShape call d = true ↔ SameShape call d := by
  unfold sameShape SameShape
  constructor
  · intro h
    split at h
    · next name args name' params hcall hd =>
      simp only [Bool.and_eq_true, beq_iff_eq] at h
      obtain ⟨rfl, hlength⟩ := h
      exact ⟨_, _, _, hcall, hd, hlength⟩
    · cases h
  · rintro ⟨name, args, params, hcall, hd, hlength⟩
    simp [hcall, hd, hlength]

/-- What fits exactly fits with widening. -/
theorem fits_widen {p a : String} (h : fits false p a = true) : fits true p a = true := by
  unfold fits at *
  split at h
  · next hexact => rw [if_pos hexact]
  · next hexact =>
    rw [if_neg hexact]
    simp only [Bool.false_and, Bool.or_false] at h
    simp only [h, Bool.true_or]

theorem binds_iff {widen : Bool} : binds widen call d = true ↔ ∃ name args params,
    splitSignature? call = some (name, args) ∧ splitSignature? d = some (name, params) ∧
      args.length = params.length ∧ ∀ e ∈ params.zip args, fits widen e.1 e.2 = true := by
  unfold binds
  constructor
  · intro h
    split at h
    · next name args name' params hcall hd =>
      simp only [Bool.and_eq_true, beq_iff_eq, List.all_eq_true] at h
      obtain ⟨⟨rfl, hlength⟩, hfits⟩ := h
      exact ⟨_, _, _, hcall, hd, hlength, hfits⟩
    · cases h
  · rintro ⟨name, args, params, hcall, hd, hlength, hfits⟩
    simp only [hcall, hd, hlength, beq_self_eq_true, Bool.true_and, List.all_eq_true]
    exact hfits

theorem binds_widen (h : binds false call d = true) : binds true call d = true := by
  obtain ⟨name, args, params, hcall, hd, hlength, hfits⟩ := binds_iff.1 h
  exact binds_iff.2 ⟨name, args, params, hcall, hd, hlength, fun e he => fits_widen (hfits e he)⟩

/-- The pass in which a declared signature is found for a call: 0 as it is written, 1 by exact types, 2 by
widened types, 3 by its name and number of parameters; 4 stands for no pass. -/
def distance (call d : String) : Nat :=
  if d = call then 0
  else if binds false call d then 1
  else if binds true call d then 2
  else if sameShape call d then 3
  else 4

theorem distance_self : distance call call = 0 := if_pos rfl

theorem distance_eq_zero : distance call d = 0 ↔ d = call := by
  unfold distance
  grind

theorem distance_le_one : distance call d ≤ 1 ↔ d = call ∨ binds false call d = true := by
  unfold distance
  grind

theorem distance_le_two : distance call d ≤ 2 ↔ d = call ∨ binds true call d = true := by
  have := @binds_widen call d
  unfold distance
  grind

theorem distance_le_three : distance call d ≤ 3 ↔ d = call ∨ sameShape call d = true := by
  have := @sameShape_of_binds call d
  unfold distance
  grind

theorem distance_le_four (call d : String) : distance call d ≤ 4 := by
  unfold distance
  grind

/-! ## The closest ones -/

/-- A declared signature is found for a call in the first pass that finds any. -/
structure Closest (declared : List String) (call d : String) : Prop where
  mem : d ∈ declared
  found : distance call d ≤ 3
  least : ∀ e ∈ declared, distance call d ≤ distance call e

/-- No declared signature is found for a call in the first `n` passes. -/
def Far (n : Nat) (declared : List String) (call : String) : Prop :=
  ∀ e ∈ declared, n < distance call e

theorem Closest.not_far (h : Closest declared call d) : ¬Far 3 declared call := by
  intro hfar
  have := hfar d h.mem
  have := h.found
  omega

theorem Far.mono {m n : Nat} (hmn : n ≤ m) (h : Far m declared call) : Far n declared call :=
  fun e he => Nat.lt_of_le_of_lt hmn (h e he)

/-- A pass decides if it finds anything, and leaves it to the passes behind it otherwise. -/
theorem mem_pass {p : String → Bool} {rest : List String} {n : Nat} {q : Prop}
    (hcall : call ∉ declared) (hp : ∀ e, distance call e ≤ n + 1 ↔ e = call ∨ p e = true)
    (hfar : Far n declared call)
    (hn : n + 1 ≤ 3) (hq : q → Far (n + 1) declared call)
    (hrest : Far (n + 1) declared call → (d ∈ rest ↔ Closest declared call d ∨ q)) :
    (d ∈ if declared.filter p = [] then rest else declared.filter p) ↔
      Closest declared call d ∨ q := by
  have hp {e : String} (he : e ∈ declared) : p e = true ↔ distance call e ≤ n + 1 := by
    rw [hp e, or_iff_right]
    rintro rfl
    exact hcall he
  by_cases hempty : declared.filter p = []
  · rw [if_pos hempty]
    refine hrest fun e he => ?_
    rw [← Nat.not_le, ← hp he]
    exact List.filter_eq_nil_iff.1 hempty e he
  · obtain ⟨e, he⟩ := List.exists_mem_of_ne_nil _ hempty
    obtain ⟨he, hfound⟩ := List.mem_filter.1 he
    have hnot : ¬Far (n + 1) declared call := fun h => Nat.not_le.2 (h e he) ((hp he).1 hfound)
    rw [if_neg hempty, or_iff_left fun h => hnot (hq h), List.mem_filter]
    constructor
    · rintro ⟨hmem, hd⟩
      have hd := (hp hmem).1 hd
      exact ⟨hmem, Nat.le_trans hd hn, fun e he => Nat.le_trans hd (hfar e he)⟩
    · intro h
      exact ⟨h.mem, (hp h.mem).2 (Nat.le_trans (h.least e he) ((hp he).1 hfound))⟩

theorem standIns_of_mem (h : call ∈ declared) : standIns declared call = [call] := by
  rw [standIns, if_pos (List.contains_iff_mem.2 h)]

theorem standIns_eq (h : call ∉ declared) : standIns declared call =
    let exact := declared.filter (binds false call)
    let widened := declared.filter (binds true call)
    let shaped := declared.filter (sameShape call)
    if exact = [] then if widened = [] then if shaped = [] then [call] else shaped else widened
    else exact := by
  rw [standIns, if_neg fun hcontains => h (List.contains_iff_mem.1 hcontains), matching]
  cases declared.filter (binds false call) with
  | cons e es => rfl
  | nil =>
    cases declared.filter (binds true call) with
    | cons e es => rfl
    | nil => cases declared.filter (sameShape call) <;> rfl

/-- The closest declared signatures stand in for a call, or the call itself if there is none. -/
theorem mem_standIns : d ∈ standIns declared call ↔
    Closest declared call d ∨ Far 3 declared call ∧ d = call := by
  by_cases hcall : call ∈ declared
  · have hnot : ¬Far 3 declared call := fun h => absurd (h call hcall) (by simp [distance_self])
    rw [standIns_of_mem hcall, List.mem_singleton, or_iff_left fun h => hnot h.1]
    constructor
    · rintro rfl
      exact ⟨hcall, by simp [distance_self], fun e _ => by simp [distance_self]⟩
    · intro h
      have hzero := h.least call hcall
      rwa [distance_self, Nat.le_zero, distance_eq_zero] at hzero
  · have hfar : Far 0 declared call := by
      intro e he
      refine Nat.pos_of_ne_zero fun hzero => hcall ?_
      rwa [← distance_eq_zero.1 hzero]
    have hq {n : Nat} (hn : n ≤ 3) (h : Far 3 declared call ∧ d = call) : Far n declared call :=
      h.1.mono hn
    -- One pass after the other; the last one leaves the call.
    rw [standIns_eq hcall]
    refine mem_pass hcall (fun _ => distance_le_one) hfar (by omega) (hq (by omega)) fun hfar => ?_
    refine mem_pass hcall (fun _ => distance_le_two) hfar (by omega) (hq (by omega)) fun hfar => ?_
    refine mem_pass hcall (fun _ => distance_le_three) hfar (by omega) (hq (by omega)) fun hfar => ?_
    rw [List.mem_singleton, or_iff_right fun h => h.not_far hfar, and_iff_right hfar]

/-- A declared signature stands in for a call if it is a closest one. -/
theorem mem_standIns_of_mem (hmem : d ∈ declared) :
    d ∈ standIns declared call ↔ Closest declared call d := by
  rw [mem_standIns, or_iff_left]
  rintro ⟨hfar, rfl⟩
  exact absurd (hfar d hmem) (by simp [distance_self])

theorem Closest.of_subset (h : Closest declared call d) (hmem : d ∈ declared')
    (hsubset : ∀ e ∈ declared', e ∈ declared) : Closest declared' call d :=
  ⟨hmem, h.found, fun e he => h.least e (hsubset e he)⟩

/-- The order of declared signatures does not matter, nor how often they are listed. -/
theorem mem_standIns_congr (h : ∀ e, e ∈ declared ↔ e ∈ declared') :
    d ∈ standIns declared call ↔ d ∈ standIns declared' call := by
  rw [mem_standIns, mem_standIns]
  refine or_congr ⟨fun hd => ?_, fun hd => ?_⟩ (and_congr_left fun _ => forall_congr' fun e => ?_)
  · exact hd.of_subset ((h d).1 hd.mem) fun e => (h e).2
  · exact hd.of_subset ((h d).2 hd.mem) fun e => (h e).1
  · rw [h e]

/-- What stands in for a call stands for itself alone. -/
theorem standIns_of_mem_standIns (h : d ∈ standIns declared call) : standIns declared d = [d] := by
  rcases mem_standIns.1 h with hd | ⟨hfar, rfl⟩
  · exact standIns_of_mem hd.mem
  · have hnil {p : String → Bool} {n : Nat} (hn : n ≤ 3)
        (hp : ∀ e, distance d e ≤ n ↔ e = d ∨ p e = true) : declared.filter p = [] := by
      refine List.filter_eq_nil_iff.2 fun e he hfound => ?_
      have := hfar e he
      have := (hp e).2 (.inr hfound)
      omega
    have hmem : d ∉ declared := by
      intro hmem
      have := hfar d hmem
      rw [distance_self] at this
      omega
    simp only [standIns_eq hmem, hnil (by omega) fun _ => distance_le_one,
      hnil (by omega) fun _ => distance_le_two, hnil (by omega) fun _ => distance_le_three, if_true]

/-! ## Sets of calls -/

theorem contains_reconcileWanted : (reconcileWanted wanted declared).contains d = true ↔
    ∃ call, wanted.contains call = true ∧ d ∈ standIns declared call := by
  simp only [reconcileWanted, Names.contains_ofList, List.mem_flatMap, Names.mem_toList]

theorem contains_reconcileWanted_singleton :
    (reconcileWanted (.ofList [call]) declared).contains d = true ↔ d ∈ standIns declared call := by
  simp [contains_reconcileWanted, Names.contains_ofList]

/-- Reconciling gives wanted or declared signatures. -/
theorem contains_or_mem_of_reconcileWanted (h : (reconcileWanted wanted declared).contains d = true) :
    wanted.contains d = true ∨ d ∈ declared := by
  obtain ⟨call, hcall, hd⟩ := contains_reconcileWanted.1 h
  rcases mem_standIns.1 hd with hd | ⟨-, rfl⟩
  · exact .inr hd.mem
  · exact .inl hcall

theorem reconcileWanted_reconcileWanted (wanted : Names) (declared : List String) :
    reconcileWanted (reconcileWanted wanted declared) declared = reconcileWanted wanted declared := by
  refine Names.ext_contains fun k => ?_
  rw [contains_reconcileWanted]
  constructor
  · rintro ⟨d, hd, hk⟩
    obtain ⟨call, -, hstands⟩ := contains_reconcileWanted.1 hd
    rw [standIns_of_mem_standIns hstands, List.mem_singleton] at hk
    exact hk ▸ hd
  · intro hk
    obtain ⟨call, -, hstands⟩ := contains_reconcileWanted.1 hk
    exact ⟨k, hk, by simp [standIns_of_mem_standIns hstands]⟩

theorem reconcileWanted_union (wanted wanted' : Names) (declared : List String) :
    reconcileWanted (wanted.union wanted') declared =
      (reconcileWanted wanted declared).union (reconcileWanted wanted' declared) := by
  refine Names.ext_contains fun k => ?_
  simp only [contains_reconcileWanted, Names.contains_union]
  constructor
  · rintro ⟨call, hcall | hcall, hk⟩
    · exact .inl ⟨call, hcall, hk⟩
    · exact .inr ⟨call, hcall, hk⟩
  · rintro (⟨call, hcall, hk⟩ | ⟨call, hcall, hk⟩)
    · exact ⟨call, .inl hcall, hk⟩
    · exact ⟨call, .inr hcall, hk⟩

theorem reconcileWanted_congr (wanted : Names) (h : ∀ d, d ∈ declared ↔ d ∈ declared') :
    reconcileWanted wanted declared = reconcileWanted wanted declared' := by
  refine Names.ext_contains fun k => ?_
  simp only [contains_reconcileWanted, mem_standIns_congr h]

/-! ## One call -/

/-- What one wanted signature becomes: it stays if it is declared, gives way to declared signatures of its
name and number of parameters, and stays if there are none. -/
structure Becomes (declared : List String) (call : String) (found : Names) : Prop where
  verbatim : call ∈ declared → found = .ofList [call]
  replaced : call ∉ declared → (∃ d ∈ declared, SameShape call d) →
    (∃ d, found.contains d = true) ∧ ∀ d, found.contains d = true → d ∈ declared ∧ SameShape call d
  unmatched : (∀ d ∈ declared, ¬SameShape call d) → found = .ofList [call]

theorem reconcileWanted_eq_singleton (h : standIns declared call = [d]) :
    reconcileWanted (.ofList [call]) declared = .ofList [d] := by
  refine Names.ext_contains fun k => ?_
  rw [contains_reconcileWanted_singleton, h, Names.contains_ofList]

theorem standIns_ne_nil : standIns declared call ≠ [] := by
  by_cases hcall : call ∈ declared
  · rw [standIns_of_mem hcall]
    exact List.cons_ne_nil _ _
  · rw [standIns_eq hcall]
    grind

theorem becomes_reconcileWanted (declared : List String) (call : String) :
    Becomes declared call (reconcileWanted (.ofList [call]) declared) := by
  refine ⟨fun h => reconcileWanted_eq_singleton (standIns_of_mem h), fun hcall hshape => ?_,
    fun hnone => ?_⟩
  · obtain ⟨e, he, hshape⟩ := hshape
    simp only [contains_reconcileWanted_singleton]
    refine ⟨List.exists_mem_of_ne_nil _ standIns_ne_nil, fun d hd => ?_⟩
    rcases mem_standIns.1 hd with hd | ⟨hfar, -⟩
    · refine ⟨hd.mem, sameShape_iff.1 ((distance_le_three.1 hd.found).resolve_left ?_)⟩
      rintro rfl
      exact hcall hd.mem
    · exact absurd (hfar e he) (Nat.not_lt.2 (distance_le_three.2 (.inr (sameShape_iff.2 hshape))))
  · by_cases hcall : call ∈ declared
    · exact reconcileWanted_eq_singleton (standIns_of_mem hcall)
    · have hself : call ∈ standIns declared call := mem_standIns.2 (.inr ⟨?_, rfl⟩)
      · exact reconcileWanted_eq_singleton (standIns_of_mem_standIns hself)
      intro e he
      rw [← Nat.not_le, distance_le_three, not_or, sameShape_iff]
      exact ⟨fun heq => hcall (heq ▸ he), hnone e he⟩

/-- The only declared signature that a call may bind to stands in for it. -/
theorem standIns_of_declaredFor? (h : declaredFor? call declared = some d) :
    standIns declared call = [d] := by
  unfold declaredFor? at h
  split at h
  · cases h
  · next hcontains =>
    rw [standIns, if_neg hcontains]
    split at h
    · next only hmatching =>
      cases h
      rw [hmatching]
    · cases h

/-- A call that the index replaces is replaced by a declared signature that alone fits. -/
theorem declaredFor?_of_reconcileCalls {catalogue : String → Option (List String)} {target : String}
    (hdeclared : catalogue target = some declared) (hne : d ≠ call)
    (h : reconcileCalls catalogue (.ofList [(target, .ofList [call])]) =
      .ofList [(target, .ofList [d])]) : declaredFor? call declared = some d := by
  have hget (s : String) :
      (Dict.ofList [(target, Names.ofList [s])]).get? target = some (.ofList [s]) := by
    simp [Dict.ofList]
  have hentry : some (settleAll declared (.ofList [call])) = some (.ofList [d]) := by
    rw [← hget d, ← h, get?_reconcileCalls, hget call, hdeclared]
    rfl
  have hmem : (settleAll declared (.ofList [call])).contains d = true := by
    rw [Option.some.inj hentry, Names.contains_ofList]
    exact List.mem_singleton_self d
  obtain ⟨_, hcall, hsettle⟩ := contains_settleAll.1 hmem
  rw [Names.contains_ofList, List.mem_singleton] at hcall
  subst hcall
  unfold settle at hsettle
  cases hfor : declaredFor? _ declared with
  | none =>
    rw [hfor] at hsettle
    exact absurd hsettle.symm hne
  | some only =>
    rw [hfor] at hsettle
    exact congrArg some hsettle

/-- **Wanted signatures.** Reconciling gives wanted or declared signatures. Doing it twice is doing it once,
it works on each wanted signature alone, and it does not depend on the order in which signatures are
declared, nor on how often. A signature that is replaced in the calls of indexed classes is replaced by the
same one here. -/
theorem reconcileWanted_laws (declared : List String) :
    (∀ wanted k, (reconcileWanted wanted declared).contains k = true →
      wanted.contains k = true ∨ k ∈ declared) ∧
    (∀ wanted, reconcileWanted (reconcileWanted wanted declared) declared =
      reconcileWanted wanted declared) ∧
    (∀ wanted wanted', reconcileWanted (wanted.union wanted') declared =
      (reconcileWanted wanted declared).union (reconcileWanted wanted' declared)) ∧
    (∀ wanted declared', (∀ d, d ∈ declared ↔ d ∈ declared') →
      reconcileWanted wanted declared = reconcileWanted wanted declared') ∧
    (∀ call, Becomes declared call (reconcileWanted (.ofList [call]) declared)) ∧
    ∀ catalogue target call d, catalogue target = some declared → d ≠ call →
      reconcileCalls catalogue (.ofList [(target, .ofList [call])]) =
        .ofList [(target, .ofList [d])] →
      reconcileWanted (.ofList [call]) declared = .ofList [d] := by
  refine ⟨fun _ _ => contains_or_mem_of_reconcileWanted,
    fun wanted => reconcileWanted_reconcileWanted wanted declared,
    fun wanted wanted' => reconcileWanted_union wanted wanted' declared,
    fun wanted _ h => reconcileWanted_congr wanted h, becomes_reconcileWanted declared,
    fun catalogue target call d hdeclared hne hcalls => ?_⟩
  exact reconcileWanted_eq_singleton
    (standIns_of_declaredFor? (declaredFor?_of_reconcileCalls hdeclared hne hcalls))

/-- A call with an unknown argument is replaced here as it is in the calls of indexed classes, and of two
logs either is kept. -/
theorem reconcileWanted_laws_cents :
    let declared := ["cents(int)", "log(String)", "log(int)"]
    reconcileWanted (.ofList ["cents(?)"]) declared = .ofList ["cents(int)"] ∧
    reconcileWanted (.ofList ["cents(?)"]) declared =
      reconcileWanted (.ofList ["cents(?)"]) ["log(int)", "cents(int)", "log(String)", "log(int)"] ∧
    ∀ d, (reconcileWanted (.ofList ["log(?)"]) declared).contains d = true →
      d ∈ declared ∧ SameShape "log(?)" d := by
  intro declared
  obtain ⟨-, -, -, horder, hbecomes, hindex⟩ := reconcileWanted_laws declared
  have hlog : ∃ d ∈ declared, SameShape "log(?)" d :=
    ⟨"log(int)", by decide, sameShape_iff.1 (by decide)⟩
  refine ⟨?_, horder _ _ fun d => ?_, ((hbecomes "log(?)").replaced (by decide) hlog).2⟩
  · exact hindex (fun _ => some declared) "Prices" "cents(?)" "cents(int)" rfl (by decide)
      (by decide)
  · simp only [declared, List.mem_cons]
    grind

end Overload

end Testwright
