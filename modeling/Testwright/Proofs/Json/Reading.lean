import Mathlib.Data.List.DropRight
import Testwright.Proofs.Json.Tokens

/-!
# Written JSON is read back

Reading the text of a value gives the value, as far as its integers fit into 64 bits, its numbers with a
fraction are read back from their own texts, and it nests at most 127 deep (`parse?_pretty`). In front of any
text that does not continue it, a part of the text is read as the part of the value that it writes
(`ReadBack`).
-/

namespace Testwright.Json

/-- A value whose text is read back, inside at most some depth of arrays and objects. -/
inductive Legible : Nat → Json → Prop where
  | null {n : Nat} : Legible n .null
  | bool {n : Nat} (b : Bool) : Legible n (.bool b)
  | int {n : Nat} {i : Int} :
    -0x8000000000000000 ≤ i → i < 0x10000000000000000 → Legible n (.int i)
  | float {n : Nat} {x : Binary64} : parse? x.shortest = some (.float x) → Legible n (.float x)
  | str {n : Nat} (text : String) : Legible n (.str text)
  | arr {n : Nat} {xs : List Json} : (∀ v ∈ xs, Legible n v) → Legible (n + 1) (.arr xs)
  | obj {n : Nat} {ms : List (String × Json)} : (∀ m ∈ ms, Legible n m.2) → Legible (n + 1) (.obj ms)

variable {s r rest after : List Char} {depth fuel level : Nat} {j v : Json}

attribute [local simp] value? elements? members? prettyAt prettyElements prettyMembers

/-! ## Space -/

theorem skipSpace_append (h : skipSpace s = []) : skipSpace (s ++ rest) = skipSpace rest := by
  rw [skipSpace, List.dropWhile_append_of_pos (List.dropWhile_eq_nil_iff.1 h), skipSpace]

theorem skipSpace_append_of_cons {c : Char} (h : skipSpace s = c :: r) :
    skipSpace (s ++ rest) = c :: (r ++ rest) := by
  rw [skipSpace] at h ⊢
  rw [List.dropWhile_append, h]
  rfl

theorem skipSpace_newline : skipSpace ((newline level).toList ++ rest) = skipSpace rest := by
  have hspace : skipSpace (newline level).toList = [] := by
    rw [skipSpace, List.dropWhile_eq_nil_iff]
    intro c hc
    simp only [newline, String.toList_append, String.toList_ofList, List.mem_append] at hc
    rcases hc with hc | hc
    · rw [List.mem_singleton.1 hc]
      rfl
    · rw [List.eq_of_mem_replicate hc]
      rfl
  exact skipSpace_append hspace

theorem skipSpace_skipSpace (s : List Char) : skipSpace (skipSpace s) = skipSpace s :=
  List.dropWhile_idempotent isSpace s

/-- A value is read alike behind any space. -/
theorem value?_congr (h : skipSpace s = skipSpace r) : value? depth fuel s = value? depth fuel r := by
  cases fuel <;> simp [h]

theorem elements?_congr {done : List Json} (h : skipSpace s = skipSpace r) :
    elements? depth done fuel s = elements? depth done fuel r := by
  cases fuel <;> simp [value?_congr h]

theorem members?_congr {done : List (String × Json)} (h : skipSpace s = skipSpace r) :
    members? depth done fuel s = members? depth done fuel r := by
  cases fuel <;> simp [h]

theorem skipSpace_of_numberAt? (h : numberAt? s = some (v, r)) : skipSpace s = s := by
  obtain ⟨c, t, rfl, hc⟩ := numberAt?_head h
  refine List.dropWhile_cons_of_neg fun hspace => ?_
  simp only [isSpace, Bool.or_eq_true, beq_iff_eq] at hspace
  rcases hc with rfl | hc
  · revert hspace
    decide
  · rcases hspace with ((rfl | rfl) | rfl) | rfl <;> cases hc

theorem value?_of_numberAt? (h : numberAt? s = some (v, r)) : value? depth (fuel + 1) s = some (v, r) := by
  rw [value?, skipSpace_of_numberAt? h]
  obtain ⟨c, t, rfl, hc⟩ := numberAt?_head h
  -- Neither a sign nor a digit begins any other kind of value.
  split
  case h_7 => exact h
  all_goals
    next heq =>
      cases heq
      rcases hc with hc | hc <;> cases hc

/-! ## Values -/

/-- No value begins with a closing bracket. -/
theorem value?_bracket (h : skipSpace s = ']' :: r) : value? depth fuel s = none := by
  cases fuel with
  | zero => simp
  | succ fuel =>
    rw [value?, h]
    rfl

theorem elements?_eq_some {done : List Json} (h : elements? depth done fuel s = some (v, r)) :
    ∃ xs, v = .arr xs := by
  induction fuel generalizing s done with
  | zero => simp at h
  | succ fuel ih =>
    rw [elements?] at h
    split at h
    · cases h
    · split at h
      · exact ih h
      · cases h
        exact ⟨_, rfl⟩
      · cases h

theorem members?_eq_some {done : List (String × Json)} (h : members? depth done fuel s = some (v, r)) :
    ∃ ms, v = .obj ms := by
  induction fuel generalizing s done with
  | zero => simp at h
  | succ fuel ih =>
    rw [members?] at h
    split at h
    · split at h
      · cases h
      · split at h
        · split at h
          · cases h
          · split at h
            · exact ih h
            · cases h
              exact ⟨_, rfl⟩
            · cases h
        · cases h
    · cases h

theorem numberAt?_of_value? {x : Binary64} (h : value? depth fuel s = some (.float x, r)) :
    numberAt? (skipSpace s) = some (.float x, r) := by
  cases fuel with
  | zero => simp at h
  | succ fuel =>
    rw [value?] at h
    split at h
    · cases h
    · cases h
    · cases h
    · obtain ⟨_, -, heq⟩ := Option.map_eq_some_iff.1 h
      cases heq
    · -- An array
      split at h
      · cases h
      · split at h
        · cases h
        · obtain ⟨xs, hxs⟩ := elements?_eq_some h
          cases hxs
    · -- An object
      split at h
      · cases h
      · split at h
        · cases h
        · obtain ⟨ms, hms⟩ := members?_eq_some h
          cases hms
    · exact h

theorem parse?_eq_some {text : String} (h : parse? text = some v) :
    ∃ rest, value? 127 (2 * text.toList.length + 2) text.toList = some (v, rest) ∧ skipSpace rest = [] := by
  rw [parse?] at h
  split at h
  · next rest hvalue =>
    split at h
    · next hempty =>
      cases h
      exact ⟨rest, hvalue, List.isEmpty_iff.1 hempty⟩
    · cases h
  · cases h

/-! ## Written values -/

/-- The text of a value is read back in front of every text that does not continue it. -/
def ReadBack (depth : Nat) (j : Json) : Prop :=
  ∀ (level fuel : Nat) {t}, 2 * (prettyAt level j).toList.length ≤ fuel → Ends t →
    ∃ after, value? depth (fuel + 1) ((prettyAt level j).toList ++ t) = some (j, after) ∧
      skipSpace after = skipSpace t

theorem ReadBack.null : ReadBack depth .null := by
  intro level fuel rest hfuel hrest
  refine ⟨rest, ?_, rfl⟩
  rw [prettyAt, value?]
  rfl

theorem ReadBack.bool (b : Bool) : ReadBack depth (.bool b) := by
  intro level fuel rest hfuel hrest
  refine ⟨rest, ?_, rfl⟩
  rw [prettyAt, value?]
  cases b <;> rfl

theorem ReadBack.int {i : Int} (hlow : -0x8000000000000000 ≤ i) (hhigh : i < 0x10000000000000000) :
    ReadBack depth (.int i) := by
  intro level fuel rest hfuel hrest
  exact ⟨rest, value?_of_numberAt? (numberAt?_append (numberAt?_toString hlow hhigh) hrest), rfl⟩

theorem ReadBack.float {x : Binary64} (h : parse? x.shortest = some (.float x)) :
    ReadBack depth (.float x) := by
  intro level fuel rest hfuel hrest
  obtain ⟨after, hvalue, hafter⟩ := parse?_eq_some h
  have hnumber := numberAt?_of_value? hvalue
  obtain ⟨c, t, ht, -⟩ := numberAt?_head hnumber
  have happend := numberAt?_append hnumber hrest
  have hskip : skipSpace (x.shortest.toList ++ rest) = skipSpace (skipSpace x.shortest.toList ++ rest) := by
    rw [skipSpace_of_numberAt? happend, ht, skipSpace_append_of_cons ht, List.cons_append]
  refine ⟨after ++ rest, ?_, skipSpace_append hafter⟩
  rw [prettyAt, value?_congr hskip, value?_of_numberAt? happend]

theorem ReadBack.str (text : String) : ReadBack depth (.str text) := by
  intro level fuel rest hfuel hrest
  refine ⟨rest, ?_, rfl⟩
  rw [prettyAt, toList_quoted, value?, List.cons_append, List.append_assoc]
  exact congrArg (Option.map _) (stringBody?_quoted text rest)

/-! ## Written arrays -/

theorem ends_newline : Ends ((newline level).toList ++ rest) := by
  intro c hc
  rw [newline, String.toList_append] at hc
  cases hc
  rfl

theorem ends_comma : Ends (',' :: r) := by
  intro c hc
  cases hc
  rfl

theorem ends_prettyElements (level outer : Nat) (xs : List Json) (r : List Char) :
    Ends ((prettyElements level xs).toList ++ ((newline outer).toList ++ r)) := by
  cases xs with
  | nil =>
    rw [prettyElements, String.toList_empty, List.nil_append]
    exact ends_newline
  | cons v xs =>
    simp only [prettyElements, String.toList_append]
    exact ends_comma

theorem elements?_pretty {xs done : List Json} (outer : Nat) (rest : List Char) (hv : ReadBack depth v)
    (hxs : ∀ w ∈ xs, ReadBack depth w)
    (hfuel : 2 * ((prettyAt level v).toList.length + (prettyElements level xs).toList.length) ≤ fuel) :
    elements? depth done (fuel + 2) ((prettyAt level v).toList ++
      ((prettyElements level xs).toList ++ ((newline outer).toList ++ ']' :: rest))) =
        some (.arr (done.reverse ++ v :: xs), rest) := by
  induction xs generalizing v done fuel with
  | nil =>
    obtain ⟨after, hvalue, hafter⟩ :=
      hv level fuel (by omega) (ends_prettyElements level outer [] (']' :: rest))
    have hclose : skipSpace after = ']' :: rest := by
      rw [hafter, prettyElements, String.toList_empty, List.nil_append, skipSpace_newline]
      rfl
    rw [elements?, hvalue]
    simp only [hclose, List.reverse_cons]
  | cons w xs ih =>
    obtain ⟨hw, hxs⟩ := List.forall_mem_cons.1 hxs
    obtain ⟨after, hvalue, hafter⟩ :=
      hv level fuel (by omega) (ends_prettyElements level outer (w :: xs) (']' :: rest))
    have hcomma : skipSpace after = ',' :: ((newline level).toList ++ ((prettyAt level w).toList ++
        ((prettyElements level xs).toList ++ ((newline outer).toList ++ ']' :: rest)))) := by
      rw [hafter, prettyElements]
      simp only [String.toList_append, List.append_assoc]
      rfl
    have hlength : ",".toList.length = 1 := rfl
    rw [prettyElements] at hfuel
    simp only [String.toList_append, List.length_append] at hfuel
    obtain ⟨fuel, rfl⟩ : ∃ n, fuel = n + 1 := ⟨fuel - 1, by omega⟩
    rw [elements?, hvalue]
    simp only [hcomma]
    rw [elements?_congr skipSpace_newline, ih hw hxs (by omega), List.reverse_cons, List.append_assoc,
      List.singleton_append]

/-- An array with an element does not end where it begins. -/
theorem value?_of_elements? (h : elements? depth [] fuel s = some (v, r)) :
    value? (depth + 1) (fuel + 1) ('[' :: s) = some (v, r) := by
  have hopen : skipSpace ('[' :: s) = '[' :: s := rfl
  simp only [value?, hopen]
  split
  · next hclose =>
    cases fuel <;> rw [elements?] at h
    · cases h
    · rw [value?_bracket hclose] at h
      cases h
  · exact (elements?_congr (skipSpace_skipSpace s)).trans h

theorem ReadBack.arr {xs : List Json} (h : ∀ v ∈ xs, ReadBack depth v) :
    ReadBack (depth + 1) (Json.arr xs) := by
  intro level fuel rest hfuel hrest
  refine ⟨rest, ?_, rfl⟩
  cases xs with
  | nil =>
    rw [prettyAt, value?]
    rfl
  | cons v xs =>
    obtain ⟨hv, hxs⟩ := List.forall_mem_cons.1 h
    have hlength : "[".toList.length = 1 := rfl
    rw [prettyAt] at hfuel ⊢
    simp only [String.toList_append, List.length_append, List.append_assoc] at hfuel ⊢
    obtain ⟨fuel, rfl⟩ : ∃ n, fuel = n + 2 := ⟨fuel - 2, by omega⟩
    refine value?_of_elements? ((elements?_congr skipSpace_newline).trans ?_)
    exact elements?_pretty level rest hv hxs (by omega)

/-! ## Written objects -/

theorem ends_prettyMembers (level outer : Nat) (ms : List (String × Json)) (r : List Char) :
    Ends ((prettyMembers level ms).toList ++ ((newline outer).toList ++ r)) := by
  cases ms with
  | nil =>
    rw [prettyMembers, String.toList_empty, List.nil_append]
    exact ends_newline
  | cons m ms =>
    simp only [prettyMembers, String.toList_append]
    exact ends_comma

/-- The first member of an object is read as its name and its value, and then what stands behind it. -/
theorem members?_quoted {done : List (String × Json)} {k : String}
    (h : value? depth fuel s = some (v, after)) :
    (∀ t, skipSpace after = ',' :: t →
      members? depth done (fuel + 1) ((quoted k).toList ++ (": ".toList ++ s)) =
        members? depth ((k, v) :: done) fuel t) ∧
    ∀ t, skipSpace after = '\x7d' :: t →
      members? depth done (fuel + 1) ((quoted k).toList ++ (": ".toList ++ s)) =
        some (.obj ((k, v) :: done).reverse, t) := by
  have hkey : skipSpace ((quoted k).toList ++ (": ".toList ++ s)) =
      '"' :: (k.toList.flatMap escape ++ '"' :: (": ".toList ++ s)) := by
    rw [toList_quoted, List.cons_append, List.append_assoc]
    rfl
  have hcolon : skipSpace (": ".toList ++ s) = ':' :: ' ' :: s := rfl
  have hspace : value? depth fuel (' ' :: s) = some (v, after) := h ▸ value?_congr rfl
  rw [members?]
  constructor
  · intro t ht
    simp only [hkey, stringBody?_quoted, hcolon, hspace, ht]
  · intro t ht
    simp only [hkey, stringBody?_quoted, hcolon, hspace, ht]

theorem members?_pretty {ms done : List (String × Json)} {k : String} (outer : Nat) (rest : List Char)
    (hv : ReadBack depth v) (hms : ∀ m ∈ ms, ReadBack depth m.2)
    (hfuel : 2 * ((prettyAt level v).toList.length + (prettyMembers level ms).toList.length) ≤ fuel) :
    members? depth done (fuel + 2) ((quoted k).toList ++ (": ".toList ++ ((prettyAt level v).toList ++
      ((prettyMembers level ms).toList ++ ((newline outer).toList ++ '\x7d' :: rest))))) =
        some (.obj (done.reverse ++ (k, v) :: ms), rest) := by
  induction ms generalizing k v done fuel with
  | nil =>
    obtain ⟨after, hvalue, hafter⟩ :=
      hv level fuel (by omega) (ends_prettyMembers level outer [] ('\x7d' :: rest))
    have hclose : skipSpace after = '\x7d' :: rest := by
      rw [hafter, prettyMembers, String.toList_empty, List.nil_append, skipSpace_newline]
      rfl
    rw [(members?_quoted hvalue).2 _ hclose, List.reverse_cons]
  | cons m ms ih =>
    obtain ⟨l, w⟩ := m
    obtain ⟨hw, hms⟩ : ReadBack depth w ∧ ∀ m ∈ ms, ReadBack depth m.2 := List.forall_mem_cons.1 hms
    obtain ⟨after, hvalue, hafter⟩ :=
      hv level fuel (by omega) (ends_prettyMembers level outer ((l, w) :: ms) ('\x7d' :: rest))
    have hcomma : skipSpace after = ',' :: ((newline level).toList ++ ((quoted l).toList ++ (": ".toList ++
        ((prettyAt level w).toList ++ ((prettyMembers level ms).toList ++
          ((newline outer).toList ++ '\x7d' :: rest)))))) := by
      rw [hafter, prettyMembers]
      simp only [String.toList_append, List.append_assoc]
      rfl
    have hlength : ",".toList.length = 1 := rfl
    rw [prettyMembers] at hfuel
    simp only [String.toList_append, List.length_append] at hfuel
    obtain ⟨fuel, rfl⟩ : ∃ n, fuel = n + 1 := ⟨fuel - 1, by omega⟩
    rw [(members?_quoted hvalue).1 _ hcomma, members?_congr skipSpace_newline, ih hw hms (by omega),
      List.reverse_cons, List.append_assoc, List.singleton_append]

/-- An object with a member does not end where it begins. -/
theorem value?_of_members? (h : members? depth [] fuel s = some (v, r)) :
    value? (depth + 1) (fuel + 1) ('\x7b' :: s) = some (v, r) := by
  have hopen : skipSpace ('\x7b' :: s) = '\x7b' :: s := rfl
  simp only [value?, hopen]
  split
  · next hclose =>
    cases fuel <;> rw [members?] at h
    · cases h
    · rw [hclose] at h
      cases h
  · exact (members?_congr (skipSpace_skipSpace s)).trans h

theorem ReadBack.obj {ms : List (String × Json)} (h : ∀ m ∈ ms, ReadBack depth m.2) :
    ReadBack (depth + 1) (Json.obj ms) := by
  intro level fuel rest hfuel hrest
  refine ⟨rest, ?_, rfl⟩
  cases ms with
  | nil =>
    rw [prettyAt, value?]
    rfl
  | cons m ms =>
    obtain ⟨k, v⟩ := m
    obtain ⟨hv, hms⟩ : ReadBack depth v ∧ ∀ m ∈ ms, ReadBack depth m.2 := List.forall_mem_cons.1 h
    have hlength : "\x7b".toList.length = 1 := rfl
    rw [prettyAt] at hfuel ⊢
    simp only [String.toList_append, List.length_append, List.append_assoc] at hfuel ⊢
    obtain ⟨fuel, rfl⟩ : ∃ n, fuel = n + 2 := ⟨fuel - 2, by omega⟩
    refine value?_of_members? ((members?_congr skipSpace_newline).trans ?_)
    exact members?_pretty level rest hv hms (by omega)

/-! ## The text of a value -/

theorem Legible.readBack (h : Legible depth j) : ReadBack depth j := by
  induction h with
  | null => exact .null
  | bool b => exact .bool b
  | int hlow hhigh => exact .int hlow hhigh
  | float h => exact .float h
  | str text => exact .str text
  | arr _ ih => exact .arr ih
  | obj _ ih => exact .obj ih

/-- A value whose text can be read is read back from it. -/
theorem parse?_pretty (h : Legible 127 j) : parse? j.pretty = some j := by
  obtain ⟨after, hvalue, hafter⟩ :=
    h.readBack 0 (2 * j.pretty.toList.length + 1) (t := []) (by rw [pretty]; omega) nofun
  rw [List.append_nil] at hvalue
  have hblank : skipSpace after = [] := hafter
  rw [parse?]
  simp only [pretty] at hvalue ⊢
  simp only [hvalue, hblank, List.isEmpty_nil, if_true]

end Testwright.Json
