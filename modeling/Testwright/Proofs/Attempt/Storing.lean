import Testwright.Attempt.Report
import Testwright.Proofs.Json.Reading
import Testwright.Proofs.Time.Stamping

/-!
# Stored reports are read back

The text of a stored report is read as the report, whatever its status and coverage are and whichever of its
optional parts are there. An object is read as a report by its known names alone: other names do not matter,
and an optional part whose name is missing is absent (`Report.ofJson?_stored`).
-/

namespace Testwright

variable {ms : List (String × Json)} {k : String} {v : Json}

/-! ## Names that stand once -/

namespace Json

theorem get?_obj (ms : List (String × Json)) (k : String) :
    (obj ms).get? k = (ms.filter fun m => m.1 == k).getLast?.map (·.2) := by
  rw [get?, members, ← List.head?_filter, List.filter_reverse, List.head?_reverse]

theorem filter_key_of_not_mem (h : k ∉ ms.map Prod.fst) : (ms.filter fun m => m.1 == k) = [] := by
  rw [List.filter_eq_nil_iff]
  intro m hm heq
  exact h (beq_iff_eq.1 heq ▸ List.mem_map_of_mem hm)

theorem filter_key_of_mem (hnodup : (ms.map Prod.fst).Nodup) (h : (k, v) ∈ ms) :
    (ms.filter fun m => m.1 == k) = [(k, v)] := by
  induction ms with
  | nil => cases h
  | cons m ms ih =>
    rw [List.map_cons, List.nodup_cons] at hnodup
    rw [List.filter_cons]
    rcases List.mem_cons.1 h with rfl | h
    · rw [if_pos (beq_self_eq_true k), filter_key_of_not_mem hnodup.1]
    · rw [if_neg, ih hnodup.2 h]
      intro heq
      exact hnodup.1 (beq_iff_eq.1 heq ▸ List.mem_map_of_mem h)

theorem length_filter_key_le (hnodup : (ms.map Prod.fst).Nodup) (k : String) :
    (ms.filter fun m => m.1 == k).length ≤ 1 := by
  by_cases h : k ∈ ms.map Prod.fst
  · obtain ⟨⟨k, v⟩, hm, rfl⟩ := List.mem_map.1 h
    rw [filter_key_of_mem hnodup hm, List.length_singleton]
  · rw [filter_key_of_not_mem h]
    exact Nat.zero_le 1

theorem get?_eq_some_iff (hnodup : (ms.map Prod.fst).Nodup) :
    (obj ms).get? k = some v ↔ (k, v) ∈ ms := by
  constructor
  · intro h
    by_cases hk : k ∈ ms.map Prod.fst
    · obtain ⟨⟨k, w⟩, hm, rfl⟩ := List.mem_map.1 hk
      rw [get?_obj, filter_key_of_mem hnodup hm] at h
      cases h
      exact hm
    · rw [get?_obj, filter_key_of_not_mem hk] at h
      cases h
  · intro h
    rw [get?_obj, filter_key_of_mem hnodup h]
    rfl

theorem record?_obj {known : List String} (h : ∀ k ∈ known, (ms.filter fun m => m.1 == k).length ≤ 1) :
    (obj ms).record? known = some (.obj ms) := by
  refine if_pos (List.all_eq_true.2 fun k hk => ?_)
  rw [decide_eq_true_eq]
  exact h k hk

end Json

/-- A number that is neither an infinity nor no number. -/
def Binary64.isFinite : Binary64 → Bool
  | .finite .. => true
  | _ => false

namespace Report

variable {r : Report}

/-- The counts of the report fit into 64 bits, and its date is one. -/
structure InRange (r : Report) : Prop where
  attempt : r.attempt < 0x10000000000000000
  round : r.round < 0x10000000000000000
  recordedAt : r.recordedAt.isValid = true

/-- The floating-point numbers of a report. -/
def numbers (r : Report) : List Binary64 :=
  r.elapsedSeconds :: match r.coverage with
    | some (.percent x) => [x]
    | _ => []

/-- The names of the parts that a report may lack. -/
def optionalParts : List String := ["coverage", "skip_reason", "test_class", "test_source"]

/-- The report without the optional parts of some names. -/
def without (r : Report) (omitted : List String) : Report :=
  { r with
    coverage := if "coverage" ∈ omitted then none else r.coverage
    skipReason := if "skip_reason" ∈ omitted then none else r.skipReason
    testClass := if "test_class" ∈ omitted then none else r.testClass
    testSource := if "test_source" ∈ omitted then none else r.testSource }

/-! ## The members of a stored report -/

theorem keys_toJson (r : Report) : (r.toJson.members.map Prod.fst).Sublist parts := by
  have hoption {α : Type} (o : Option α) (k : String) (f : α → Json) :
      ((o.toList.map fun a => (k, f a)).map Prod.fst).Sublist [k] := by
    cases o with
    | none => exact List.nil_sublist _
    | some a => exact List.Sublist.refl _
  simp only [toJson, Json.members, List.map_append]
  exact (((((List.Sublist.refl _).append (hoption ..)).append (hoption ..)).append (hoption ..)).append
    (hoption ..)).append (List.Sublist.refl _)

theorem nodup_keys_toJson (r : Report) : (r.toJson.members.map Prod.fst).Nodup :=
  (keys_toJson r).nodup (by decide)

/-- A report without optional parts is stored as the report but for the members of these parts. -/
theorem members_without {omitted : List String} (h : omitted ⊆ optionalParts) :
    (r.without omitted).toJson.members = r.toJson.members.filter fun m => m.1 ∉ omitted := by
  have hoption {α : Type} (o : Option α) (k : String) (f : α → Json) :
      ((if k ∈ omitted then none else o).toList.map fun a => (k, f a)) =
        (o.toList.map fun a => (k, f a)).filter fun m => m.1 ∉ omitted := by
    cases o <;> by_cases hk : k ∈ omitted <;> simp [hk]
  have hrequired (ms : List (String × Json)) (hms : ∀ m ∈ ms, m.1 ∉ optionalParts) :
      (ms.filter fun m => m.1 ∉ omitted) = ms := by
    rw [List.filter_eq_self]
    intro m hm
    exact decide_eq_true fun hmem => hms m hm (h hmem)
  simp only [toJson, Json.members, List.filter_append, without, hoption]
  rw [hrequired [_, _, _, _, _, _, _], hrequired [_]] <;> simp [optionalParts]

/-! ## Reading -/

section
variable (hget : ∀ k ∈ parts, (Json.obj ms).get? k = r.toJson.get? k)
include hget

theorem required?_eq {α : Type} {read : Json → Option α} {a : α} (hk : (k, v) ∈ r.toJson.members)
    (hread : read v = some a) : (Json.obj ms).required? k read = some a := by
  have hpart : k ∈ parts := (keys_toJson r).subset (List.mem_map_of_mem hk)
  have hvalue : r.toJson.get? k = some v := (Json.get?_eq_some_iff (nodup_keys_toJson r)).2 hk
  rw [Json.required?, hget k hpart, hvalue, Option.bind_some, hread]

theorem optional?_eq {α : Type} {o : Option α} {f : α → Json} {read : Json → Option α} (hpart : k ∈ parts)
    (hk : ∀ v, (k, v) ∈ r.toJson.members ↔ ∃ a, o = some a ∧ f a = v)
    (hread : ∀ a, Json.nullable? read (f a) = some (some a)) :
    (Json.obj ms).optional? k none (Json.nullable? read) = some o := by
  have hvalue : r.toJson.get? k = o.map f := by
    refine Option.ext fun v => ?_
    rw [Option.map_eq_some_iff, ← hk]
    exact Json.get?_eq_some_iff (nodup_keys_toJson r)
  rw [Json.optional?, hget k hpart, hvalue]
  cases o with
  | none => rfl
  | some a => exact hread a

/-- An object that tells for the known names what a stored report tells is read as the report. -/
theorem ofJson?_of_get? (hrange : r.InRange) (hrecord : (Json.obj ms).record? parts = some (.obj ms)) :
    ofJson? (.obj ms) = some r := by
  have step {α β : Type} {x : Option α} {a : α} {f : α → Option β} {b : Option β} (hx : x = some a)
      (hf : f a = b) : (x >>= f) = b := by
    rw [hx]
    exact hf
  have hnat {n : Nat} (hn : n < 0x10000000000000000) : (Json.ofNat n).nat? = some n := by
    rw [Json.ofNat, Json.nat?, if_pos ⟨Int.natCast_nonneg n, Int.ofNat_lt.2 hn⟩, Int.toNat_natCast]
  have hstatus : statusOfJson? (.str (statusText r.status)) = some r.status := by
    cases r.status <;> rfl
  have hcoverage (c : Coverage) : Json.nullable? coverageOfJson? (coverageJson c) = some (some c) := by
    cases c <;> rfl
  have hrecordedAt : (Json.str r.recordedAt.text).str?.bind Timestamp.parse? = some r.recordedAt := by
    rw [Json.str?, Option.bind_some, Timestamp.parse?_text hrange.recordedAt]
  rw [ofJson?]
  refine step hrecord ?_
  refine step (required?_eq hget (v := .str r.className) (by simp [toJson, Json.members]) rfl) ?_
  refine step (required?_eq hget (v := .str r.methodSignature) (by simp [toJson, Json.members]) rfl) ?_
  refine step (required?_eq hget (by simp [toJson, Json.members]) (hnat hrange.attempt)) ?_
  refine step (required?_eq hget (by simp [toJson, Json.members]) (hnat hrange.round)) ?_
  refine step (required?_eq hget (by simp [toJson, Json.members]) hstatus) ?_
  refine step (required?_eq hget (v := .bool r.passed) (by simp [toJson, Json.members]) rfl) ?_
  refine step (required?_eq hget (v := .float r.elapsedSeconds) (by simp [toJson, Json.members]) rfl) ?_
  refine step (optional?_eq hget (o := r.coverage) (by decide) (by simp [toJson, Json.members]) hcoverage) ?_
  refine step (optional?_eq hget (o := r.skipReason) (f := .str) (by decide)
    (by simp [toJson, Json.members]) fun _ => rfl) ?_
  refine step (optional?_eq hget (o := r.testClass) (f := .str) (by decide)
    (by simp [toJson, Json.members]) fun _ => rfl) ?_
  refine step (optional?_eq hget (o := r.testSource) (f := .str) (by decide)
    (by simp [toJson, Json.members]) fun _ => rfl) ?_
  refine step (required?_eq hget (v := .str r.recordedAt.text) (by simp [toJson, Json.members])
    hrecordedAt) ?_
  rfl

end

/-- The text of a stored report can be read. -/
theorem legible_toJson (hrange : r.InRange)
    (hnumbers : ∀ x ∈ r.numbers, Json.parse? x.shortest = some (.float x)) :
    Json.Legible 127 r.toJson := by
  have hnat {n : Nat} (hn : n < 0x10000000000000000) : Json.Legible 126 (Json.ofNat n) :=
    .int (by omega) (by omega)
  have hcoverage (c : Coverage) (hc : r.coverage = some c) : Json.Legible 126 (coverageJson c) := by
    cases c with
    | percent x =>
      have hx : x ∈ r.numbers := by simp [numbers, hc]
      exact .obj (List.forall_mem_singleton.2 (.float (hnumbers x hx)))
    | error message => exact .obj (List.forall_mem_singleton.2 (.str message))
  have hoption {α : Type} {o : Option α} {k : String} {f : α → Json}
      (h : ∀ a, o = some a → Json.Legible 126 (f a)) :
      ∀ m ∈ o.toList.map fun a => (k, f a), Json.Legible 126 m.2 := by
    intro m hm
    obtain ⟨a, ha, rfl⟩ := List.mem_map.1 hm
    exact h a (Option.mem_toList.1 ha)
  refine .obj ?_
  simp only [List.forall_mem_append, List.forall_mem_cons]
  exact ⟨⟨⟨⟨⟨⟨.str _, .str _, hnat hrange.attempt, hnat hrange.round, .str _, .bool _,
    .float (hnumbers _ List.mem_cons_self), nofun⟩, hoption hcoverage⟩, hoption fun s _ => .str s⟩,
    hoption fun s _ => .str s⟩, hoption fun s _ => .str s⟩, .str _, nofun⟩

/-- A stored report is read back from its text, as far as its finite numbers are. An object with the known
members of a stored report, in any order, less some optional ones, and with members of any other names, is
read as the report without the parts left out. -/
theorem ofJson?_stored (hrange : r.InRange) (hfinite : ∀ x ∈ r.numbers, x.isFinite = true)
    (hnumbers : ∀ x ∈ r.numbers, x.isFinite = true → Json.parse? x.shortest = some (.float x)) :
    (Json.parse? r.toJson.pretty).bind ofJson? = some r ∧
      ∀ (ms : List (String × Json)) (omitted : List String), omitted ⊆ optionalParts →
        (ms.filter fun m => m.1 ∈ parts).Perm (r.toJson.members.filter fun m => m.1 ∉ omitted) →
          ofJson? (.obj ms) = some (r.without omitted) := by
  constructor
  · rw [Json.parse?_pretty (legible_toJson hrange fun x hx => hnumbers x hx (hfinite x hx)), Option.bind_some]
    exact ofJson?_of_get? (fun k hk => rfl) hrange
      (Json.record?_obj fun k _ => Json.length_filter_key_le (nodup_keys_toJson r) k)
  · intro ms omitted homitted hknown
    rw [← members_without homitted] at hknown
    have hlength := Json.length_filter_key_le (nodup_keys_toJson (r.without omitted))
    have hfilter (k : String) (hk : k ∈ parts) :
        (ms.filter fun m => m.1 == k) = (r.without omitted).toJson.members.filter fun m => m.1 == k := by
      have hall : ((ms.filter fun m => m.1 ∈ parts).filter fun m => m.1 == k) =
          ms.filter fun m => m.1 == k := by
        rw [List.filter_filter]
        refine List.filter_congr fun m _ => ?_
        by_cases hm : m.1 = k <;> simp [hm, hk]
      have hperm := hknown.filter fun m => m.1 == k
      rw [hall] at hperm
      have hle := hlength k
      generalize ((r.without omitted).toJson.members.filter fun m => m.1 == k) = found at hperm hle
      match found with
      | [] => exact List.perm_nil.1 hperm
      | [m] => exact List.perm_singleton.1 hperm
    refine ofJson?_of_get? (fun k hk => ?_) ⟨hrange.attempt, hrange.round, hrange.recordedAt⟩
      (Json.record?_obj fun k hk => ?_)
    · rw [Json.get?_obj, hfilter k hk]
      exact (Json.get?_obj _ k).symm
    · rw [hfilter k hk]
      exact hlength k

/-- A report with a coverage. -/
def cart : Report where
  className := "acme.Cart"
  methodSignature := "total(int)"
  attempt := 1
  round := 2
  status := .succeeded
  passed := true
  elapsedSeconds := .finite false 0x18000000000000 (-52)
  coverage := some (.percent (.finite false 0x12C00000000000 (-46)))
  testClass := some "acme.CartTest"
  testSource := some "class CartTest \x7b\n\x7d"
  recordedAt :=
    { year := 2024, month := 5, day := 6, hour := 7, minute := 8, second := 9, nanos := 500000000 }

theorem ofJson?_stored_cart :
    (Json.parse? cart.toJson.pretty).bind ofJson? = some cart ∧
      ofJson? (.obj (("host", .str "ci") :: cart.toJson.members.filter fun m => m.1 ∉ ["test_source"])) =
        some (cart.without ["test_source"]) := by
  have h := ofJson?_stored (r := cart) ⟨by decide, by decide, by decide⟩ (by decide)
    (List.forall_mem_cons.2 ⟨fun _ => rfl, List.forall_mem_singleton.2 fun _ => rfl⟩)
  exact ⟨h.1, h.2 _ ["test_source"] (by decide) (.of_eq rfl)⟩

end Report

end Testwright
