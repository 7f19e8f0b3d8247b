import Testwright.Proofs.Java.Cleaning

/-!
# Lines of scrubbed texts

Every character of a scrubbed text has an origin in the text: it is copied, it is a letter of a placeholder,
or it is the blank left of a block comment (`trace`). A piece that scrubbing drops or replaces keeps its line
feeds or has none, so each character stands on the line of its origin (`onLines_traceFrom`).
-/

namespace Testwright.Java.Scrub

/-- Where a character of a scrubbed text comes from. -/
inductive Origin where
  | copied (place : Nat)
  /-- A letter of the placeholder for the name at a place. -/
  | placeholder (place : Nat)
  /-- The blank for the block comment at a place. -/
  | blank (place : Nat)
  deriving DecidableEq, Repr

def Origin.place : Origin → Nat
  | copied place | placeholder place | blank place => place

def Origin.copied? : Origin → Option Nat
  | copied place => some place
  | _ => none

/-- A text at a place of another one, copied. -/
def copies (place : Nat) : List Char → List (Char × Origin)
  | [] => []
  | c :: text => (c, .copied place) :: copies (place + 1) text

/-- What scrubbing leaves of a piece, each character with its origin. -/
def Spot.traced (x : Spot) : List (Char × Origin) :=
  match x.piece.kind with
  | .blockComment =>
    (' ', .blank x.front.length) :: (copies x.front.length x.piece.text).filter (·.1 == '\n')
  | .lineComment => if x.startsLine then copies x.front.length x.piece.text else []
  | _ =>
    if x.isSyntheticType then placeholder.map fun c => (c, .placeholder x.front.length)
    else copies x.front.length x.piece.text

def traceFrom (front s : List Char) : List (Char × Origin) := (spotsFrom front (pieces s)).flatMap Spot.traced

/-- The characters of a scrubbed text with their origins. -/
def trace (s : List Char) : List (Char × Origin) := traceFrom [] s

/-- The line of a place in a text, the first one being 0. -/
def lineAt (s : List Char) (place : Nat) : Nat := (s.take place).count '\n'

variable {front w t s text : List Char} {c : Char} {kind : PieceKind} {x : Spot} {line place : Nat}
  {l l' : List (Char × Origin)} {o : Origin}

theorem traceFrom_append (h : first c (w ++ t) = (kind, w.length + 1)) :
    traceFrom front (c :: (w ++ t)) = (spot front kind c w t).traced ++ traceFrom (front ++ c :: w) t := by
  rw [traceFrom, spotsFrom_append h, List.flatMap_cons, traceFrom]

/-! ## What is traced -/

theorem map_fst_copies (place : Nat) (text : List Char) : (copies place text).map Prod.fst = text := by
  induction text generalizing place with
  | nil => rfl
  | cons c text ih => exact congrArg (c :: ·) (ih _)

theorem map_fst_filter (p : Char → Bool) (l : List (Char × Origin)) :
    (l.filter fun e => p e.1).map Prod.fst = (l.map Prod.fst).filter p := by
  rw [List.filter_map]
  rfl

theorem map_fst_traced (x : Spot) : x.traced.map Prod.fst = x.scrubbed := by
  obtain ⟨front, ⟨kind, text⟩, rear⟩ := x
  rw [← text_remains]
  cases kind with
  | blockComment =>
    rw [Spot.traced, List.map_cons, map_fst_filter (· == '\n'), map_fst_copies, Spot.remains,
      List.flatMap_cons, flatMap_text_map]
    rfl
  | lineComment =>
    simp only [Spot.traced, Spot.remains]
    split
    · simp [map_fst_copies]
    · rfl
  | name | literal | other =>
    simp only [Spot.traced, Spot.remains, Spot.retyped]
    split
    · rfl
    · simp [map_fst_copies]

theorem map_fst_traceFrom (front s : List Char) : (traceFrom front s).map Prod.fst = scrubFrom front s := by
  induction s using induction_pieces generalizing front with
  | nil => rfl
  | append c w t kind h ih =>
    rw [traceFrom_append h, List.map_append, map_fst_traced, ih, scrubFrom_append h]

/-- A line comment ends before the next line feed. -/
theorem not_mem_lineComment (h : first c (w ++ t) = (.lineComment, w.length + 1)) : '\n' ∉ c :: w := by
  obtain rfl : c = '/' := by simpa using kind_cases h
  cases w with
  | nil => decide
  | cons d w =>
    obtain rfl : d = '/' := by
      by_cases hd : d = '*'
      · subst hd
        cases congrArg Prod.fst h
      · by_contra hd'
        rw [List.cons_append, first_slash (by simpa using hd) (by simpa using hd')] at h
        cases congrArg Prod.fst h
    have hlength : 2 + ((w ++ t).takeWhile (· != '\n')).length = w.length + 2 := congrArg Prod.snd h
    have hline : (w ++ t).takeWhile (· != '\n') = w :=
      (List.prefix_of_prefix_length_le (List.takeWhile_prefix _) (List.prefix_append w t)
        (by omega)).eq_of_length (by omega)
    simp only [List.mem_cons, Char.reduceEq, false_or]
    intro hmem
    rw [← hline] at hmem
    simpa using List.mem_takeWhile_imp hmem

/-- What can be left of a piece, with the origins. -/
inductive Leaves (front text : List Char) : List (Char × Origin) → Prop where
  | all : Leaves front text (copies front.length text)
  | none (h : '\n' ∉ text) : Leaves front text []
  | placeholder (h : '\n' ∉ text) :
      Leaves front text (placeholder.map fun c => (c, .placeholder front.length))
  | blank : Leaves front text
      ((' ', .blank front.length) :: (copies front.length text).filter (·.1 == '\n'))

theorem leaves_traced (h : first c (w ++ t) = (kind, w.length + 1)) :
    Leaves front (c :: w) (spot front kind c w t).traced := by
  rcases kind_cases h with ⟨rfl, -⟩ | ⟨rfl, -⟩ | ⟨rfl, -⟩ | ⟨rfl, hc⟩ | ⟨rfl, -, -⟩
  · exact .all
  · exact .blank
  · simp only [Spot.traced]
    split
    · exact .all
    · exact .none (not_mem_lineComment h)
  · simp only [Spot.traced]
    split
    · refine .placeholder fun hmem => ?_
      rcases List.mem_cons.1 hmem with rfl | hmem
      · exact absurd hc (by decide)
      · exact (first_name hc h).2 _ hmem rfl
    · exact .all
  · exact .all

/-! ## Lines -/

theorem count_cons_eq (c : Char) (text : List Char) :
    (c :: text).count '\n' = [c].count '\n' + text.count '\n' := by
  rw [← List.singleton_append, List.count_append]

/-- The characters of a traced text, of which the first stands on a line, stand on the lines of their
origins. -/
def OnLines (s : List Char) (line : Nat) : List (Char × Origin) → Prop
  | [] => True
  | (c, o) :: l => lineAt s o.place = line ∧ OnLines s (line + [c].count '\n') l

theorem onLines_append : OnLines s line (l ++ l') ↔
    OnLines s line l ∧ OnLines s (line + (l.map Prod.fst).count '\n') l' := by
  induction l generalizing line with
  | nil => simp [OnLines]
  | cons e l ih =>
    rw [List.cons_append, OnLines, OnLines, ih, and_assoc, List.map_cons,
      count_cons_eq e.1 (l.map Prod.fst), Nat.add_assoc]

theorem OnLines.lineAt_eq {k : Nat} (h : OnLines s line l) (hk : l[k]? = some (c, o)) :
    lineAt s o.place = line + lineAt (l.map Prod.fst) k := by
  induction l generalizing line k with
  | nil => cases hk
  | cons e l ih =>
    cases k with
    | zero =>
      cases hk
      exact h.1
    | succ k =>
      rw [ih h.2 hk, lineAt, lineAt, List.map_cons, List.take_succ_cons,
        count_cons_eq e.1 ((l.map Prod.fst).take k), Nat.add_assoc]

/-- What is no line feed can be left out. -/
theorem OnLines.filter (h : OnLines s line l) : OnLines s line (l.filter (·.1 == '\n')) := by
  induction l generalizing line with
  | nil => trivial
  | cons e l ih =>
    obtain ⟨c, o⟩ := e
    have hrest := ih h.2
    rw [List.filter_cons]
    split
    · exact ⟨h.1, hrest⟩
    · next hc => simpa [List.count_singleton, show c ≠ '\n' by simpa using hc] using hrest

theorem lineAt_length (front t : List Char) : lineAt (front ++ t) front.length = front.count '\n' := by
  rw [lineAt, List.take_left]

theorem onLines_copies (front text t : List Char) :
    OnLines (front ++ (text ++ t)) (front.count '\n') (copies front.length text) := by
  induction text generalizing front with
  | nil => trivial
  | cons c text ih =>
    refine ⟨lineAt_length _ _, ?_⟩
    have hrest := ih (front ++ [c])
    rwa [List.count_append, List.length_append, List.append_assoc] at hrest

theorem onLines_leaves (h : Leaves front text l) (t : List Char) :
    OnLines (front ++ (text ++ t)) (front.count '\n') l := by
  cases h with
  | all => exact onLines_copies _ _ _
  | none h => trivial
  | placeholder h =>
    have hline := lineAt_length front (text ++ t)
    exact ⟨hline, hline, hline, hline, hline, hline, trivial⟩
  | blank => exact ⟨lineAt_length _ _, (onLines_copies _ _ _).filter⟩

/-- What is left of a piece has its line feeds. -/
theorem count_leaves (h : Leaves front text l) : (l.map Prod.fst).count '\n' = text.count '\n' := by
  cases h with
  | all => rw [map_fst_copies]
  | none h | placeholder h =>
    rw [List.count_eq_zero_of_not_mem h]
    rfl
  | blank =>
    have hblank : (' ' : Char) ≠ '\n' := by decide
    rw [List.map_cons, map_fst_filter (· == '\n'), map_fst_copies, List.count_cons_of_ne hblank,
      List.count_filter rfl]

theorem count_traceFrom (front s : List Char) :
    ((traceFrom front s).map Prod.fst).count '\n' = s.count '\n' := by
  induction s using induction_pieces generalizing front with
  | nil => rfl
  | append c w t kind h ih =>
    rw [traceFrom_append h, List.map_append, List.count_append, count_leaves (leaves_traced h), ih,
      ← List.cons_append, List.count_append]

/-- Each character left of a text behind another one stands on the line of its origin. -/
theorem onLines_traceFrom (front s : List Char) :
    OnLines (front ++ s) (front.count '\n') (traceFrom front s) := by
  induction s using induction_pieces generalizing front with
  | nil => trivial
  | append c w t kind h ih =>
    rw [traceFrom_append h, onLines_append, count_leaves (leaves_traced h)]
    refine ⟨onLines_leaves (leaves_traced h) t, ?_⟩
    have hrest := ih (front ++ c :: w)
    rwa [List.count_append, List.append_assoc] at hrest

/-! ## Origins -/

theorem filterMap_copies (place : Nat) (text : List Char) :
    (copies place text).filterMap (·.2.copied?) = List.range' place text.length := by
  induction text generalizing place with
  | nil => rfl
  | cons c text ih => exact congrArg (place :: ·) (ih _)

theorem filterMap_leaves (h : Leaves front text l) :
    (l.filterMap (·.2.copied?)).Sublist (List.range' front.length text.length) := by
  cases h with
  | all => rw [filterMap_copies]
  | none | placeholder => exact List.nil_sublist _
  | blank =>
    rw [← filterMap_copies]
    exact List.filter_sublist.filterMap _

/-- The places that are copied are in order, each once. -/
theorem filterMap_traceFrom (front s : List Char) :
    ((traceFrom front s).filterMap (·.2.copied?)).Sublist (List.range' front.length s.length) := by
  induction s using induction_pieces generalizing front with
  | nil => exact List.nil_sublist _
  | append c w t kind h ih =>
    rw [traceFrom_append h, List.filterMap_append]
    have hleaves : Leaves front (c :: w) (spot front kind c w t).traced := leaves_traced h
    have happend := (filterMap_leaves hleaves).append (ih (front ++ c :: w))
    rwa [List.length_append, List.range'_append_1, ← List.length_append] at happend

theorem getElem?_of_mem_copies (front : List Char) (h : (c, o) ∈ copies front.length text)
    (t : List Char) : ∃ i, o = .copied i ∧ (front ++ (text ++ t))[i]? = some c := by
  induction text generalizing front with
  | nil => cases h
  | cons d text ih =>
    rcases List.mem_cons.1 h with heq | h
    · cases heq
      exact ⟨front.length, rfl, by simp⟩
    · have hrest := ih (front ++ [d])
      rw [List.length_append, List.append_assoc] at hrest
      exact hrest h

/-- A spot cuts its text in three. -/
theorem eq_of_mem_spots (hx : x ∈ spots s) : s = x.front ++ (x.piece.text ++ x.rear) := by
  have cut (front : List Char) (ps : List Piece) (hx : x ∈ spotsFrom front ps) :
      front ++ ps.flatMap Piece.text = x.front ++ (x.piece.text ++ x.rear) := by
    induction ps generalizing front with
    | nil => cases hx
    | cons p ps ih =>
      rcases List.mem_cons.1 hx with rfl | hx
      · rfl
      · rw [← ih _ hx, List.flatMap_cons, List.append_assoc]
  rw [← cut [] (pieces s) hx, List.nil_append, pieces_flatten]

/-- How a character comes from its origin. -/
def Stems (s : List Char) (c : Char) : Origin → Prop
  | .copied i => s[i]? = some c
  | .placeholder i => c ∈ placeholder ∧ ∃ x ∈ spots s, x.isSyntheticType = true ∧ x.front.length = i
  | .blank i => c = ' ' ∧ ∃ x ∈ spots s, x.piece.kind = .blockComment ∧ x.front.length = i

theorem stems_of_mem_traced (hx : x ∈ spots s) (h : (c, o) ∈ x.traced) : Stems s c o := by
  have copied (h : (c, o) ∈ copies x.front.length x.piece.text) : Stems s c o := by
    obtain ⟨i, rfl, hi⟩ := getElem?_of_mem_copies x.front h x.rear
    rwa [← eq_of_mem_spots hx] at hi
  have retyped (h : (c, o) ∈ if x.isSyntheticType then
      placeholder.map fun c => (c, Origin.placeholder x.front.length)
      else copies x.front.length x.piece.text) : Stems s c o := by
    split at h
    · next hsynthetic =>
      obtain ⟨d, hd, heq⟩ := List.mem_map.1 h
      cases heq
      exact ⟨hd, x, hx, hsynthetic, rfl⟩
    · exact copied h
  unfold Spot.traced at h
  split at h
  · next hkind =>
    rcases List.mem_cons.1 h with heq | h
    · cases heq
      exact ⟨rfl, x, hx, hkind, rfl⟩
    · exact copied (List.mem_of_mem_filter h)
  · split at h
    · exact copied h
    · cases h
  · exact retyped h

/-- What there is to know about the origins of the characters of a scrubbed text. -/
structure Traces (s : List Char) (t : List (Char × Origin)) : Prop where
  text : t.map Prod.fst = scrub s
  stems : ∀ c o, (c, o) ∈ t → Stems s c o
  /-- The places that are copied are in order, each once. -/
  ordered : (t.filterMap (·.2.copied?)).Sublist (List.range s.length)
  line : ∀ k c o, t[k]? = some (c, o) → lineAt (scrub s) k = lineAt s o.place

theorem traces_trace (s : List Char) : Traces s (trace s) where
  text := map_fst_traceFrom [] s
  stems c o h := by
    obtain ⟨x, hx, hmem⟩ := List.mem_flatMap.1 h
    exact stems_of_mem_traced hx hmem
  ordered := by
    rw [List.range_eq_range']
    exact filterMap_traceFrom [] s
  line k c o hk := by
    have hline := (onLines_traceFrom [] s).lineAt_eq hk
    rw [map_fst_traceFrom, List.count_nil, Nat.zero_add] at hline
    exact hline.symm

/-- **Scrubbing keeps the lines of a text.** It has as many as before, and what is copied, as well as what
stands for a synthetic class, is on the line of its origin. -/
theorem scrub_keeps_lines (s : List Char) : (scrub s).count '\n' = s.count '\n' ∧ Traces s (trace s) := by
  refine ⟨?_, traces_trace s⟩
  rw [scrub_eq, ← map_fst_traceFrom, count_traceFrom]

end Testwright.Java.Scrub
