import Testwright.Data.Dict

/-!
# Membership and size of maps and sets of names

What `Dict.insert` does to membership and size, the entries of a map as the pairs that a lookup
finds, and the members of the sets built by `Names.insert`, `Names.ofList` and `Dict.filter`. Of the
values inserted under a name the last one counts (`IsLast`, `Dict.get?_foldl_insert_iff`).
-/

namespace Testwright

/-! ## The last of a kind -/

section
variable {β : Type} {p : β → Prop} {l : List β} {x y : β}

/-- The last member of a list that satisfies a condition. -/
def IsLast (p : β → Prop) (l : List β) (x : β) : Prop :=
  ∃ front back, l = front ++ x :: back ∧ p x ∧ ∀ y ∈ back, ¬p y

theorem IsLast.mem (h : IsLast p l x) : x ∈ l := by
  obtain ⟨front, back, rfl, -⟩ := h
  exact List.mem_append_right front List.mem_cons_self

theorem IsLast.holds (h : IsLast p l x) : p x := by
  obtain ⟨_, _, -, hx, -⟩ := h
  exact hx

theorem isLast_cons : IsLast p (y :: l) x ↔ IsLast p l x ∨ x = y ∧ p y ∧ ∀ z ∈ l, ¬p z := by
  constructor
  · rintro ⟨front, back, hl, hx, hback⟩
    cases front with
    | nil =>
      cases hl
      exact .inr ⟨rfl, hx, hback⟩
    | cons z front =>
      cases hl
      exact .inl ⟨front, back, rfl, hx, hback⟩
  · rintro (⟨front, back, rfl, hx, hback⟩ | ⟨rfl, hx, hback⟩)
    · exact ⟨y :: front, back, rfl, hx, hback⟩
    · exact ⟨[], l, rfl, hx, hback⟩

theorem isLast_append {l' : List β} : IsLast p (l ++ l') x ↔ IsLast p l' x ∨ IsLast p l x ∧ ∀ y ∈ l', ¬p y := by
  induction l with
  | nil => simp [IsLast]
  | cons y l ih =>
    simp only [List.cons_append, isLast_cons, ih, List.forall_mem_append]
    grind

/-- A member is not the last one if a later one satisfies the condition as well. -/
theorem isLast_append_cons {l' : List β} (h : p y → ∃ z ∈ l', p z) :
    IsLast p (l ++ y :: l') x ↔ IsLast p (l ++ l') x := by
  have hcons : IsLast p (y :: l') x ↔ IsLast p l' x := by
    rw [isLast_cons, or_iff_left]
    rintro ⟨-, hy, hnone⟩
    obtain ⟨z, hz, hpz⟩ := h hy
    exact hnone z hz hpz
  have hforall : (∀ z ∈ y :: l', ¬p z) ↔ ∀ z ∈ l', ¬p z := by
    rw [List.forall_mem_cons, and_iff_right_of_imp]
    intro hnone hy
    obtain ⟨z, hz, hpz⟩ := h hy
    exact hnone z hz hpz
  rw [isLast_append, isLast_append, hcons, hforall]

theorem exists_isLast (p : β → Prop) (h : ∃ x ∈ l, p x) : ∃ x, IsLast p l x := by
  classical
  induction l with
  | nil =>
    obtain ⟨x, hx, -⟩ := h
    cases hx
  | cons y l ih =>
    by_cases hl : ∃ x ∈ l, p x
    · obtain ⟨x, hx⟩ := ih hl
      exact ⟨x, isLast_cons.2 (.inl hx)⟩
    · obtain ⟨x, hmem, hx⟩ := h
      rcases List.mem_cons.1 hmem with rfl | hmem
      · exact ⟨x, isLast_cons.2 (.inr ⟨rfl, hx, fun z hz hpz => hl ⟨z, hz, hpz⟩⟩)⟩
      · exact absurd ⟨x, hmem, hx⟩ hl

/-- If no two members have one name, the last one of a name is the only one. -/
theorem isLast_iff_of_nodup {key : β → String} {k : String} (h : (l.map key).Nodup) :
    IsLast (fun y => key y = k) l x ↔ x ∈ l ∧ key x = k := by
  refine ⟨fun hx => ⟨hx.mem, hx.holds⟩, fun ⟨hx, hk⟩ => ?_⟩
  obtain ⟨front, back, rfl⟩ := List.append_of_mem hx
  refine ⟨front, back, rfl, hk, fun y hy hyk => ?_⟩
  rw [List.map_append, List.map_cons, List.nodup_append, List.nodup_cons] at h
  exact h.2.1.1 (hk.trans hyk.symm ▸ List.mem_map_of_mem hy)

end

namespace Dict

variable {α : Type} {d : Dict α} {k k' : String} {v : α}

theorem contains_eq_isSome_get? : d.contains k = (d.get? k).isSome := rfl

@[simp] theorem get?_emptyCollection : (∅ : Dict α).get? k = none := rfl

@[simp] theorem contains_empty : (∅ : Dict α).contains k = false := rfl

@[simp] theorem contains_insert : (d.insert k v).contains k' = (decide (k = k') || d.contains k') := by
  simp only [contains, get?_insert]
  split <;> simp_all

theorem contains_of_get? (h : d.get? k = some v) : d.contains k = true := by
  simp [contains, h]

theorem get?_eq_none_of_contains (h : d.contains k = false) : d.get? k = none := by
  simpa [contains] using h

/-! ## Size -/

theorem length_insertEntry {l : List (String × α)} (hl : l.Pairwise (·.1 < ·.1)) :
    (insertEntry k v l).length = if (findEntry k l).isSome then l.length else l.length + 1 := by
  induction l with
  | nil => simp [insertEntry, findEntry]
  | cons e l ih =>
    have hl' := List.pairwise_cons.1 hl
    unfold insertEntry
    split
    · next hlt =>
      have hnone : findEntry k (e :: l) = none := findEntry_eq_none_of_lt fun x hx => by
        rcases List.mem_cons.1 hx with rfl | hx
        · exact hlt
        · exact String.lt_trans hlt (hl'.1 x hx)
      simp [hnone]
    · split
      · next heq => simp [findEntry, heq]
      · next hne =>
        simp only [List.length_cons, ih hl'.2, findEntry, if_neg (Ne.symm hne)]
        split <;> rfl

/-- An insertion adds an entry unless the name has one. -/
theorem size_insert : (d.insert k v).size = if d.contains k then d.size else d.size + 1 :=
  length_insertEntry d.sorted

@[simp] theorem size_empty : (∅ : Dict α).size = 0 := rfl

/-! ## Entries -/

theorem mem_of_findEntry {l : List (String × α)} (h : findEntry k l = some v) : (k, v) ∈ l := by
  induction l with
  | nil => simp [findEntry] at h
  | cons e l ih =>
    unfold findEntry at h
    split at h
    · next heq =>
      cases h
      exact heq ▸ List.mem_cons_self
    · exact List.mem_cons_of_mem _ (ih h)

theorem findEntry_of_mem {l : List (String × α)} (hl : l.Pairwise (·.1 < ·.1))
    (h : (k, v) ∈ l) : findEntry k l = some v := by
  induction l with
  | nil => simp at h
  | cons e l ih =>
    have hl' := List.pairwise_cons.1 hl
    rcases List.mem_cons.1 h with rfl | h
    · simp [findEntry]
    · have hlt : e.1 < k := hl'.1 (k, v) h
      have hne : e.1 ≠ k := fun he => String.lt_irrefl k (he ▸ hlt)
      simp [findEntry, hne, ih hl'.2 h]

/-- The entries of a map are the pairs that a lookup finds. -/
theorem mem_entries : (k, v) ∈ d.entries ↔ d.get? k = some v :=
  ⟨findEntry_of_mem d.sorted, mem_of_findEntry⟩

/-- The entries in front of and behind the entry of a name. -/
theorem exists_entries_eq (h : d.get? k = some v) :
    ∃ front back, d.entries = front ++ (k, v) :: back ∧ ∀ e ∈ front ++ back, e.1 ≠ k := by
  obtain ⟨front, back, hsplit⟩ := List.append_of_mem (mem_entries.2 h)
  refine ⟨front, back, hsplit, fun e he => ?_⟩
  have hsorted := d.sorted
  rw [hsplit, List.pairwise_append, List.pairwise_cons] at hsorted
  rcases List.mem_append.1 he with he | he
  · exact Std.ne_of_lt (hsorted.2.2 e he (k, v) List.mem_cons_self)
  · exact (Std.ne_of_lt (hsorted.2.1.1 e he)).symm

theorem nodup_keys (d : Dict α) : d.keys.Nodup :=
  List.pairwise_map.2 (d.sorted.imp fun h => Std.ne_of_lt h)

theorem mem_keys : k ∈ d.keys ↔ d.contains k = true := by
  constructor
  · intro h
    obtain ⟨⟨_, v⟩, he, rfl⟩ := List.mem_map.1 h
    exact contains_of_get? (mem_entries.1 he)
  · intro h
    obtain ⟨v, hv⟩ := Option.isSome_iff_exists.1 h
    exact List.mem_map.2 ⟨(k, v), mem_entries.2 hv, rfl⟩

theorem mem_values : v ∈ d.values ↔ ∃ k, d.get? k = some v := by
  simp only [values, List.mem_map, Prod.exists, ← mem_entries]
  exact ⟨fun ⟨k, _, h, heq⟩ => ⟨k, heq ▸ h⟩, fun ⟨k, h⟩ => ⟨k, v, h, rfl⟩⟩

/-- A lookup after a filter finds the old value if that satisfies the condition. -/
theorem get?_filter {p : String → α → Bool} : (d.filter p).get? k = (d.get? k).filter (p k) := by
  refine Option.ext fun v => ?_
  rw [← mem_entries, Option.filter_eq_some_iff, ← mem_entries]
  exact List.mem_filter

/-! ## Maps and unions -/

section
variable {β : Type}

theorem findEntry_map {f : String → α → β} {l : List (String × α)} :
    findEntry k (l.map fun e => (e.1, f e.1 e.2)) = (findEntry k l).map (f k) := by
  induction l with
  | nil => rfl
  | cons e l ih =>
    by_cases h : e.1 = k
    · simp [findEntry, h]
    · simp [findEntry, h, ih]

@[simp] theorem get?_mapWithKey {f : String → α → β} :
    (d.mapWithKey f).get? k = (d.get? k).map (f k) := findEntry_map

@[simp] theorem get?_map {f : α → β} : (d.map f).get? k = (d.get? k).map f := get?_mapWithKey

theorem map_insert {f : α → β} : (d.insert k v).map f = (d.map f).insert k (f v) := by
  refine ext_get? fun k' => ?_
  simp only [get?_map, get?_insert]
  split <;> rfl

@[simp] theorem keys_mapWithKey {f : String → α → β} : (d.mapWithKey f).keys = d.keys := by
  simp [keys, mapWithKey]

@[simp] theorem keys_map {f : α → β} : (d.map f).keys = d.keys := keys_mapWithKey

end

theorem get?_foldl_insert {l : List (String × α)} (hl : l.Pairwise (·.1 < ·.1)) :
    (l.foldl (fun d e => d.insert e.1 e.2) d).get? k = (findEntry k l).or (d.get? k) := by
  induction l generalizing d with
  | nil => rfl
  | cons e l ih =>
    obtain ⟨hlt, hl⟩ := List.pairwise_cons.1 hl
    rw [List.foldl_cons, ih hl, get?_insert]
    by_cases h : e.1 = k
    · subst h
      simp [findEntry, findEntry_eq_none_of_lt hlt]
    · simp [findEntry, h]

section
variable {β : Type} {key : β → String} {value : β → α} {l : List β}

/-- Of the values inserted under a name the last one is found. -/
theorem get?_foldl_insert_iff :
    (l.foldl (fun d x => d.insert (key x) (value x)) d).get? k = some v ↔
      (∃ x, IsLast (fun y => key y = k) l x ∧ value x = v) ∨
        (∀ x ∈ l, key x ≠ k) ∧ d.get? k = some v := by
  induction l generalizing d with
  | nil =>
    have hnone (x : β) : ¬IsLast (fun y => key y = k) [] x := fun hx => List.not_mem_nil hx.mem
    simp [hnone]
  | cons y l ih =>
    rw [List.foldl_cons, ih, get?_insert]
    simp only [isLast_cons, List.forall_mem_cons]
    by_cases hy : key y = k <;> grind

/-- Values inserted under different names are all found. -/
theorem get?_foldl_insert_of_nodup (h : (l.map key).Nodup) :
    (l.foldl (fun d x => d.insert (key x) (value x)) d).get? k = some v ↔
      (∃ x ∈ l, key x = k ∧ value x = v) ∨ k ∉ l.map key ∧ d.get? k = some v := by
  simp only [get?_foldl_insert_iff, isLast_iff_of_nodup h, and_assoc, List.mem_map, not_exists, not_and]

end

theorem insert_comm {k' : String} {w : α} (h : k ≠ k') :
    (d.insert k v).insert k' w = (d.insert k' w).insert k v := by
  apply ext_get?
  intro j
  simp only [get?_insert]
  split
  · next hj => rw [if_neg fun hk => h (hk.trans hj.symm)]
  · rfl

/-- In a union the second map comes first. -/
theorem get?_union {d e : Dict α} : (d.union e).get? k = (e.get? k).or (d.get? k) :=
  get?_foldl_insert e.sorted

/-! ## Growing maps -/

section
variable {e f : Dict α}

/-- Every entry of a map is in another one. -/
def Within (d e : Dict α) : Prop := ∀ k v, d.get? k = some v → e.get? k = some v

theorem Within.refl : d.Within d := fun _ _ h => h

theorem Within.trans (h : d.Within e) (h' : e.Within f) : d.Within f := by
  intro k v hk
  exact h' k v (h k v hk)

theorem within_insert (h : d.contains k = false) : d.Within (d.insert k v) := by
  intro k' v' hk'
  have hne : k ≠ k' := by
    rintro rfl
    rw [get?_eq_none_of_contains h] at hk'
    cases hk'
  rw [get?_insert, if_neg hne, hk']

end

end Dict

namespace Names

variable {s : Names} {k k' : String}

@[simp] theorem contains_insert :
    (s.insert k).contains k' = (decide (k = k') || s.contains k') := Dict.contains_insert

theorem mem_toList : k ∈ s.toList ↔ s.contains k = true := Dict.mem_keys

theorem contains_foldl_insert {l : List String} :
    (l.foldl Names.insert s).contains k = true ↔ k ∈ l ∨ s.contains k = true := by
  induction l generalizing s with
  | nil => simp
  | cons n l ih =>
    rw [List.foldl_cons, ih]
    simp only [contains_insert, Bool.or_eq_true, decide_eq_true_eq, List.mem_cons]
    grind

/-- The members of the set of a list are those of the list. -/
theorem contains_ofList {l : List String} : (Names.ofList l).contains k = true ↔ k ∈ l := by
  simp [Names.ofList, contains_foldl_insert]

theorem contains_union {t : Names} :
    (s.union t).contains k = true ↔ s.contains k = true ∨ t.contains k = true := by
  rw [Names.union, contains_foldl_insert, mem_toList, or_comm]

/-- Sets with the same members are equal. -/
theorem ext_contains {s t : Names} (h : ∀ k, s.contains k = true ↔ t.contains k = true) : s = t :=
  Dict.ext_get? fun k => by
    have hk := h k
    simp only [Dict.contains_eq_isSome_get?] at hk
    cases hs : s.get? k <;> cases ht : t.get? k <;> simp [hs, ht] at hk ⊢

theorem contains_filter {p : String → Bool} :
    (s.filter fun k _ => p k).contains k = true ↔ s.contains k = true ∧ p k = true := by
  rw [Dict.contains_eq_isSome_get?, Dict.contains_eq_isSome_get?, Dict.get?_filter]
  cases s.get? k <;> simp

end Names

end Testwright
