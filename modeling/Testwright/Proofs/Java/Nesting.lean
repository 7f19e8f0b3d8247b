import Mathlib.Data.List.Pairwise
import Testwright.Java.Tree

/-!
# Nested trees

Siblings are nested between two positions if and only if they follow one another there and each is
well nested (`nestedIn_iff`). `Tree.Forall` says that all nodes of a tree have a property.

A comment that keeps clear of the boundaries of all nodes (`Tree.Clear`) may be put into a well
nested tree: the tree stays well nested (`wellNested_insertInto`), and all nodes keep the properties
that a node with the comment inside keeps (`forall_insertInto`).
-/

namespace Testwright.Java

/-- Two members of a list are in the order of the list one way or the other. -/
theorem related_of_pairwise {α : Type} {r : α → α → Prop} {l : List α} {a b : α}
    (h : l.Pairwise r) (ha : a ∈ l) (hb : b ∈ l) (hne : a ≠ b) : r a b ∨ r b a := by
  let either (a b : α) : Prop := r a b ∨ r b a
  have : Std.Symm either := ⟨fun _ _ => Or.symm⟩
  have hpair : l.Pairwise either := h.imp Or.inl
  exact hpair.forall ha hb hne

/-- Elements of which a function makes nothing may be left out. -/
theorem flatMap_filter_of_nil {α β : Type} {p : α → Bool} {f : α → List β} (hf : ∀ a, p a = false → f a = [])
    (l : List α) : (l.filter p).flatMap f = l.flatMap f := by
  induction l with
  | nil => rfl
  | cons a l ih =>
    rw [List.filter_cons]
    cases hp : p a with
    | true => simp [ih]
    | false => simp [ih, hf a hp]

namespace Tree

/-! ## Siblings -/

section
variable {t u : Tree} {ts us : List Tree} {lo hi mid : Nat}

theorem wellNested_iff : t.WellNested ↔ t.start ≤ t.stop ∧ NestedIn t.start t.stop t.children := by
  cases t
  simp [WellNested, start, stop, children]

theorem nestedIn_cons : NestedIn lo hi (t :: ts) ↔
    lo ≤ t.start ∧ t.stop ≤ hi ∧ t.WellNested ∧ NestedIn t.stop hi ts := by
  cases t
  simp [NestedIn, start, stop]

/-- Nested siblings follow one another within their bounds. -/
theorem nestedIn_iff : NestedIn lo hi ts ↔
    ts.Pairwise (fun a b => a.stop ≤ b.start) ∧
      ∀ t ∈ ts, lo ≤ t.start ∧ t.stop ≤ hi ∧ t.WellNested := by
  induction ts generalizing lo with
  | nil => simp [NestedIn]
  | cons t ts ih =>
    rw [nestedIn_cons, ih, List.pairwise_cons]
    simp only [List.mem_cons, forall_eq_or_imp]
    constructor
    · rintro ⟨hlo, hhi, ht, hpair, hts⟩
      have hle := (wellNested_iff.1 ht).1
      exact ⟨⟨fun u hu => (hts u hu).1, hpair⟩, ⟨hlo, hhi, ht⟩,
        fun u hu => ⟨by have := (hts u hu).1; omega, (hts u hu).2⟩⟩
    · rintro ⟨⟨hfirst, hpair⟩, ⟨hlo, hhi, ht⟩, hts⟩
      exact ⟨hlo, hhi, ht, hpair, fun u hu => ⟨hfirst u hu, (hts u hu).2⟩⟩

theorem NestedIn.of_mem (h : NestedIn lo hi ts) (ht : t ∈ ts) :
    lo ≤ t.start ∧ t.stop ≤ hi ∧ t.WellNested :=
  (nestedIn_iff.1 h).2 t ht

theorem NestedIn.mono {lo' hi' : Nat} (h : NestedIn lo hi ts) (hlo : lo' ≤ lo) (hhi : hi ≤ hi') :
    NestedIn lo' hi' ts := by
  rw [nestedIn_iff] at h ⊢
  exact ⟨h.1, fun t ht => ⟨Nat.le_trans hlo (h.2 t ht).1, Nat.le_trans (h.2 t ht).2.1 hhi,
    (h.2 t ht).2.2⟩⟩

theorem NestedIn.append (h : NestedIn lo mid ts) (h' : NestedIn mid hi us) (hlo : lo ≤ mid)
    (hhi : mid ≤ hi) : NestedIn lo hi (ts ++ us) := by
  rw [nestedIn_iff] at h h' ⊢
  refine ⟨List.pairwise_append.2 ⟨h.1, h'.1, fun t ht u hu => ?_⟩, fun t ht => ?_⟩
  · exact Nat.le_trans (h.2 t ht).2.1 (h'.2 u hu).1
  · rcases List.mem_append.1 ht with ht | ht
    · exact ⟨(h.2 t ht).1, Nat.le_trans (h.2 t ht).2.1 hhi, (h.2 t ht).2.2⟩
    · exact ⟨Nat.le_trans hlo (h'.2 t ht).1, (h'.2 t ht).2⟩

end

/-! ## Properties of all nodes -/

inductive Forall (p : Tree → Prop) : Tree → Prop
  | node {k f s e cs} (self : p (.node k f s e cs)) (children : ∀ t ∈ cs, Forall p t) :
    Forall p (.node k f s e cs)

namespace Forall

variable {p q : Tree → Prop} {t u : Tree}

theorem self (h : Forall p t) : p t := by
  cases h with
  | node self => exact self

theorem of_mem (h : Forall p t) (hu : u ∈ t.children) : Forall p u := by
  cases h with
  | node _ children => exact children u hu

theorem iff : Forall p t ↔ p t ∧ ∀ u ∈ t.children, Forall p u := by
  refine ⟨fun h => ⟨h.self, fun u hu => h.of_mem hu⟩, fun ⟨hself, hbelow⟩ => ?_⟩
  cases t
  exact .node hself hbelow

theorem imp (h : Forall p t) (hpq : ∀ t, p t → q t) : Forall q t := by
  induction h with
  | node self _ ih => exact .node (hpq _ self) ih

theorem nodes (h : Forall p t) : Forall (Forall p) t := by
  induction h with
  | node self children ih => exact .node (.node self children) ih

theorem and (h : Forall p t) (h' : Forall q t) : Forall (fun t => p t ∧ q t) t := by
  induction h with
  | node self _ ih => exact .node ⟨self, h'.self⟩ fun t ht => ih t ht (h'.of_mem ht)

end Forall

/-- All nodes of a well nested tree lie inside of it. -/
theorem forall_within {lo hi : Nat} : ∀ {t : Tree}, t.WellNested → lo ≤ t.start → t.stop ≤ hi →
    t.Forall fun u => lo ≤ u.start ∧ u.start ≤ u.stop ∧ u.stop ≤ hi
  | .node _ _ _ _ cs, h, hlo, hhi =>
    have ⟨hle, hcs⟩ := wellNested_iff.1 h
    .node ⟨hlo, hle, hhi⟩ fun u (hu : u ∈ cs) =>
      have ⟨hstart, hstop, hnested⟩ := hcs.of_mem hu
      forall_within hnested (Nat.le_trans hlo hstart) (Nat.le_trans hstop hhi)

mutual

/-- Whether all nodes of a tree have a property is found by looking at them. -/
def decideForall (p : Tree → Prop) [DecidablePred p] : ∀ t : Tree, Decidable (Forall p t)
  | .node k f s e cs =>
    have := decideForallAmong p cs
    decidable_of_iff (p (.node k f s e cs) ∧ ∀ t ∈ cs, Forall p t) Forall.iff.symm

def decideForallAmong (p : Tree → Prop) [DecidablePred p] :
    ∀ ts : List Tree, Decidable (∀ t ∈ ts, Forall p t)
  | [] => isTrue fun t ht => by cases ht
  | t :: ts =>
    have := decideForall p t
    have := decideForallAmong p ts
    decidable_of_iff (Forall p t ∧ ∀ u ∈ ts, Forall p u) List.forall_mem_cons.symm

end

instance (p : Tree → Prop) [DecidablePred p] : DecidablePred (Forall p) := decideForall p

/-! ## Comments -/

/-- A comment keeps clear of a node: it lies before or behind it or strictly inside. -/
def Clear (c t : Tree) : Prop :=
  c.stop ≤ t.start ∨ t.stop ≤ c.start ∨ t.start < c.start ∧ c.stop < t.stop

variable {c : Tree}

@[simp] theorem start_insertInto (t : Tree) : (insertInto c t).start = t.start := by
  cases t
  rfl

@[simp] theorem stop_insertInto (t : Tree) : (insertInto c t).stop = t.stop := by
  cases t
  rfl

@[simp] theorem kind_insertInto (t : Tree) : (insertInto c t).kind = t.kind := by
  cases t
  rfl

@[simp] theorem field_insertInto (t : Tree) : (insertInto c t).field = t.field := by
  cases t
  rfl

mutual

/-- A well nested tree stays so when a comment is put into it. -/
theorem wellNested_insertInto (hc : c.WellNested) : ∀ {t : Tree}, t.WellNested →
    (∀ u ∈ t.children, Forall (Clear c) u) → t.start ≤ c.start → c.stop ≤ t.stop →
    (insertInto c t).WellNested
  | .node _ _ _ _ _, ht, hclear, hstart, hstop =>
    wellNested_iff.2 ⟨(wellNested_iff.1 ht).1,
      nestedIn_insertAmong hc (wellNested_iff.1 ht).2 hclear hstart hstop⟩

theorem nestedIn_insertAmong (hc : c.WellNested) : ∀ {ts : List Tree} {lo hi : Nat},
    NestedIn lo hi ts → (∀ u ∈ ts, Forall (Clear c) u) → lo ≤ c.start → c.stop ≤ hi →
    NestedIn lo hi (insertAmong c ts)
  | [], _, _, _, _, hlo, hhi => nestedIn_cons.2 ⟨hlo, hhi, hc, trivial⟩
  | t :: ts, lo, hi, h, hclear, hlo, hhi => by
    obtain ⟨htlo, hthi, ht, hts⟩ := nestedIn_cons.1 h
    have hclear_t := hclear t List.mem_cons_self
    have hle := (wellNested_iff.1 hc).1
    have htle := (wellNested_iff.1 ht).1
    unfold insertAmong
    split
    · next hbehind =>
      exact nestedIn_cons.2 ⟨htlo, hthi, ht, nestedIn_insertAmong hc hts
        (fun u hu => hclear u (List.mem_cons_of_mem _ hu)) hbehind hhi⟩
    · next hbehind =>
      split
      · next hinside =>
        have hstop : c.stop ≤ t.stop := by
          rcases hclear_t.self with h | h | h <;> omega
        rw [nestedIn_cons, start_insertInto, stop_insertInto]
        exact ⟨htlo, hthi, wellNested_insertInto hc ht (fun u hu => hclear_t.of_mem hu)
          (Nat.le_of_lt hinside) hstop, hts⟩
      · next hinside =>
        have hbefore : c.stop ≤ t.start := by
          rcases hclear_t.self with h | h | h <;> omega
        exact nestedIn_cons.2 ⟨hlo, hhi, hc, nestedIn_cons.2 ⟨hbefore, hthi, ht, hts⟩⟩

end

/-- The siblings after a comment was put among them are the comment and the old ones, one possibly with
the comment put into it. -/
theorem mem_insertAmong_cases {u : Tree} {ts : List Tree} (h : u ∈ insertAmong c ts) :
    u = c ∨ u ∈ ts ∨ ∃ t ∈ ts, t.start < c.start ∧ c.start < t.stop ∧ u = insertInto c t := by
  induction ts with
  | nil => exact .inl (List.mem_singleton.1 h)
  | cons t ts ih =>
    unfold insertAmong at h
    split at h
    · rcases List.mem_cons.1 h with rfl | h
      · exact .inr (.inl List.mem_cons_self)
      · rcases ih h with h | h | ⟨t', ht', hinside⟩
        · exact .inl h
        · exact .inr (.inl (List.mem_cons_of_mem _ h))
        · exact .inr (.inr ⟨t', List.mem_cons_of_mem _ ht', hinside⟩)
    · next hbehind =>
      split at h
      · next hinside =>
        rcases List.mem_cons.1 h with rfl | h
        · exact .inr (.inr ⟨t, List.mem_cons_self, hinside, Nat.lt_of_not_le hbehind, rfl⟩)
        · exact .inr (.inl (List.mem_cons_of_mem _ h))
      · exact (List.mem_cons.1 h).imp_right .inl

/-- A comment that keeps clear of the siblings lies strictly inside the one it is put into. -/
theorem mem_insertAmong {u : Tree} {ts : List Tree} (hclear : ∀ t ∈ ts, Clear c t)
    (hc : c.start ≤ c.stop) (h : u ∈ insertAmong c ts) :
    u = c ∨ u ∈ ts ∨ ∃ t ∈ ts, c.stop < t.stop ∧ u = insertInto c t := by
  refine (mem_insertAmong_cases h).imp_right (.imp_right fun ⟨t, ht, hstart, hstop, hu⟩ => ?_)
  refine ⟨t, ht, ?_, hu⟩
  rcases hclear t ht with h | h | h <;> omega

theorem children_insertInto (t : Tree) : (insertInto c t).children = insertAmong c t.children := by
  cases t
  rfl

/-- What holds of all nodes of a tree and of a comment, and is not changed by a comment, holds of all nodes when the
comment is put into the tree. -/
theorem Forall.insertInto {p : Tree → Prop} {t : Tree} (h : t.Forall p) (hinsert : ∀ u, p u → p (insertInto c u))
    (hself : c.Forall p) : (insertInto c t).Forall p := by
  induction h with
  | @node k f s e cs self children ih =>
    refine .node (hinsert _ self) fun u hu => ?_
    rcases mem_insertAmong_cases hu with rfl | hu | ⟨t, ht, -, -, rfl⟩
    · exact hself
    · exact children u hu
    · exact ih t ht

section
variable {p : Tree → Prop} (hc : Forall p c) (hle : c.start ≤ c.stop)
  (hp : ∀ {t}, p t → (∀ u ∈ t.children, Forall (Clear c) u) → p (insertInto c t))
include hc hle hp

/-- All nodes keep a property when a comment is put into a tree. -/
theorem forall_insertInto {t : Tree} (h : Forall p t) (hclear : Forall (Clear c) t) :
    Forall p (insertInto c t) := by
  induction h with
  | @node k f s e cs self children ih =>
    refine .node (hp self fun u hu => hclear.of_mem hu) fun u hu => ?_
    rcases mem_insertAmong (fun u hu => (hclear.of_mem hu).self) hle hu with rfl | hu | ⟨t, ht, -, rfl⟩
    · exact hc
    · exact children u hu
    · exact ih t ht (hclear.of_mem ht)

theorem forall_children_insertInto {t : Tree} (h : ∀ u ∈ t.children, Forall p u)
    (hclear : ∀ u ∈ t.children, Forall (Clear c) u) :
    ∀ u ∈ (insertInto c t).children, Forall p u := by
  intro u hu
  rw [children_insertInto] at hu
  rcases mem_insertAmong (fun u hu => (hclear u hu).self) hle hu with rfl | hu | ⟨v, hv, -, rfl⟩
  · exact hc
  · exact h u hu
  · exact forall_insertInto hc hle hp (h v hv) (hclear v hv)

end

end Tree

end Testwright.Java
