/-!
# Finite maps and sets over names

`Dict α` maps names to values and is kept in the order of its names, so two maps with the
same entries are equal. `Names` is the set of names.

* `Dict.get?_insert`: a lookup after an insertion sees the new entry and the old others;
* `Dict.ext_get?`: a map is determined by its lookups.
-/

namespace Testwright

/-- A finite map from names to values, listed in strictly increasing order of the names. -/
structure Dict (α : Type) where
  entries : List (String × α)
  sorted : entries.Pairwise (·.1 < ·.1)

namespace Dict

variable {α β : Type}

@[ext] theorem ext {d e : Dict α} (h : d.entries = e.entries) : d = e := by
  cases d; cases e; cases h; rfl

instance [DecidableEq α] : DecidableEq (Dict α) := fun d e =>
  decidable_of_iff (d.entries = e.entries) ⟨Dict.ext, fun h => h ▸ rfl⟩

instance [Repr α] : Repr (Dict α) := ⟨fun d n => reprPrec d.entries n⟩

/-- The map without entries. -/
def empty : Dict α := ⟨[], .nil⟩

instance : EmptyCollection (Dict α) := ⟨empty⟩

instance : Inhabited (Dict α) := ⟨empty⟩

/-- Put a value under a name into a sorted list of entries, replacing the entry of that name. -/
def insertEntry (k : String) (v : α) : List (String × α) → List (String × α)
  | [] => [(k, v)]
  | (k', v') :: rest =>
    if k < k' then (k, v) :: (k', v') :: rest
    else if k = k' then (k, v) :: rest
    else (k', v') :: insertEntry k v rest

theorem mem_insertEntry {k : String} {v : α} {e : String × α} {l : List (String × α)}
    (h : e ∈ insertEntry k v l) : e = (k, v) ∨ e ∈ l := by
  induction l with
  | nil => simpa [insertEntry] using h
  | cons hd tl ih =>
    unfold insertEntry at h
    split at h
    · simpa using h
    · split at h
      · simp only [List.mem_cons] at h ⊢
        exact h.imp_right .inr
      · rcases List.mem_cons.1 h with h | h
        · exact .inr (h ▸ List.mem_cons_self)
        · exact (ih h).imp_right (List.mem_cons_of_mem _)

theorem sorted_insertEntry (k : String) (v : α) {l : List (String × α)}
    (h : l.Pairwise (·.1 < ·.1)) : (insertEntry k v l).Pairwise (·.1 < ·.1) := by
  induction l with
  | nil => simp [insertEntry]
  | cons hd tl ih =>
    have hd_lt := (List.pairwise_cons.1 h).1
    unfold insertEntry
    split
    · next hlt =>
      refine List.pairwise_cons.2 ⟨fun e he => ?_, h⟩
      rcases List.mem_cons.1 he with rfl | he
      · exact hlt
      · exact String.lt_trans hlt (hd_lt e he)
    · next hnlt =>
      split
      · next heq =>
        exact List.pairwise_cons.2 ⟨fun e he => heq ▸ hd_lt e he, (List.pairwise_cons.1 h).2⟩
      · next hne =>
        refine List.pairwise_cons.2 ⟨fun e he => ?_, ih (List.pairwise_cons.1 h).2⟩
        rcases mem_insertEntry he with rfl | he
        · exact Std.lt_of_le_of_ne (String.not_lt.1 hnlt) (Ne.symm hne)
        · exact hd_lt e he

/-- Put a value under a name, replacing the value it had. -/
def insert (d : Dict α) (k : String) (v : α) : Dict α :=
  ⟨insertEntry k v d.entries, sorted_insertEntry k v d.sorted⟩

/-- The value of a name in a list of entries. -/
def findEntry (k : String) : List (String × α) → Option α
  | [] => none
  | (k', v) :: rest => if k' = k then some v else findEntry k rest

/-- The value of a name. -/
def get? (d : Dict α) (k : String) : Option α := findEntry k d.entries

/-- Whether a name has a value. -/
def contains (d : Dict α) (k : String) : Bool := (d.get? k).isSome

instance : Membership String (Dict α) := ⟨fun d k => d.contains k = true⟩

instance (k : String) (d : Dict α) : Decidable (k ∈ d) :=
  inferInstanceAs (Decidable (d.contains k = true))

/-- The names, in increasing order. -/
def keys (d : Dict α) : List String := d.entries.map (·.1)

/-- The values, in the order of their names. -/
def values (d : Dict α) : List α := d.entries.map (·.2)

/-- The number of entries. -/
def size (d : Dict α) : Nat := d.entries.length

/-- Whether there are no entries. -/
def isEmpty (d : Dict α) : Bool := d.entries.isEmpty

/-- The map of a list of entries; of two entries with one name the later counts. -/
def ofList (l : List (String × α)) : Dict α := l.foldl (fun d e => d.insert e.1 e.2) empty

/-- Replace the value of a name by a function of the value it has, if any. -/
def alter (d : Dict α) (k : String) (f : Option α → α) : Dict α := d.insert k (f (d.get? k))

/-- Apply a function of name and value to every value. -/
def mapWithKey (f : String → α → β) (d : Dict α) : Dict β :=
  ⟨d.entries.map fun e => (e.1, f e.1 e.2),
    List.pairwise_map.2 (d.sorted.imp fun h => h)⟩

/-- Apply a function to every value. -/
def map (f : α → β) (d : Dict α) : Dict β := d.mapWithKey fun _ => f

/-- Keep the entries that satisfy a condition. -/
def filter (p : String → α → Bool) (d : Dict α) : Dict α :=
  ⟨d.entries.filter fun e => p e.1 e.2, d.sorted.sublist List.filter_sublist⟩

/-- All entries of both maps; where both have a name, the second map's value. -/
def union (d e : Dict α) : Dict α := e.entries.foldl (fun d x => d.insert x.1 x.2) d

theorem findEntry_insertEntry (k k' : String) (v : α) (l : List (String × α)) :
    findEntry k' (insertEntry k v l) = if k = k' then some v else findEntry k' l := by
  induction l with
  | nil => simp [insertEntry, findEntry]
  | cons hd tl ih =>
    unfold insertEntry
    split
    · simp [findEntry]
    · split
      · next heq =>
        subst heq
        by_cases h : hd.1 = k' <;> simp [findEntry, h]
      · next hne =>
        by_cases h : hd.1 = k'
        · have : k ≠ k' := fun hk => hne (hk.trans h.symm)
          simp [findEntry, h, this]
        · simp [findEntry, h, ih]

/-- A lookup after an insertion sees the new entry and all others as before. -/
@[simp] theorem get?_insert (d : Dict α) (k k' : String) (v : α) :
    (d.insert k v).get? k' = if k = k' then some v else d.get? k' :=
  findEntry_insertEntry k k' v d.entries

@[simp] theorem get?_empty (k : String) : (empty : Dict α).get? k = none := rfl

theorem findEntry_eq_none_of_lt {k : String} {l : List (String × α)}
    (h : ∀ e ∈ l, k < e.1) : findEntry k l = none := by
  induction l with
  | nil => rfl
  | cons hd tl ih =>
    have : hd.1 ≠ k := fun he => String.lt_irrefl k (he ▸ h hd List.mem_cons_self)
    simp [findEntry, this, ih fun e he => h e (List.mem_cons_of_mem _ he)]

theorem eq_of_findEntry_eq {l m : List (String × α)} (hl : l.Pairwise (·.1 < ·.1))
    (hm : m.Pairwise (·.1 < ·.1)) (h : ∀ k, findEntry k l = findEntry k m) : l = m := by
  induction l generalizing m with
  | nil =>
    cases m with
    | nil => rfl
    | cons e m => simpa [findEntry] using h e.1
  | cons e l ih =>
    cases m with
    | nil => simpa [findEntry] using h e.1
    | cons f m =>
      have hl' := List.pairwise_cons.1 hl
      have hm' := List.pairwise_cons.1 hm
      have key : e.1 = f.1 := by
        refine Decidable.byContradiction fun hne => ?_
        rcases Std.lt_trichotomy e.1 f.1 with hlt | heq | hgt
        · have := h e.1
          have hn : findEntry e.1 m = none :=
            findEntry_eq_none_of_lt fun x hx => String.lt_trans hlt (hm'.1 x hx)
          simp [findEntry, Ne.symm hne, hn] at this
        · exact hne heq
        · have := h f.1
          have hn : findEntry f.1 l = none :=
            findEntry_eq_none_of_lt fun x hx => String.lt_trans hgt (hl'.1 x hx)
          simp [findEntry, hne, hn] at this
      have value : e.2 = f.2 := by simpa [findEntry, key] using h e.1
      refine List.cons_eq_cons.2 ⟨Prod.ext key value, ih hl'.2 hm'.2 fun k => ?_⟩
      by_cases hk : k = e.1
      · rw [hk, findEntry_eq_none_of_lt hl'.1, key, findEntry_eq_none_of_lt hm'.1]
      · simpa [findEntry, Ne.symm hk, key ▸ Ne.symm hk] using h k

/-- A map is determined by its lookups. -/
theorem ext_get? {d e : Dict α} (h : ∀ k, d.get? k = e.get? k) : d = e :=
  Dict.ext (eq_of_findEntry_eq d.sorted e.sorted h)

end Dict

/-- A finite set of names. -/
abbrev Names := Dict Unit

namespace Names

/-- Put a name into a set. -/
def insert (s : Names) (k : String) : Names := Dict.insert s k ()

def ofList (l : List String) : Names := l.foldl Names.insert ∅

/-- The names of a set, in increasing order. -/
def toList (s : Names) : List String := s.keys

/-- The names of either set. -/
def union (s t : Names) : Names := t.toList.foldl Names.insert s

def unions (l : List Names) : Names := l.foldl Names.union ∅

end Names

end Testwright
