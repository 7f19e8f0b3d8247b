import Testwright.Java.Declaration
import Testwright.Proofs.Java.Parsing

/-!
# Where members lie

The declarations below a node are the node itself and those among the nodes in its body
(`declaredAt_eq`). So the members of all declarations of a text are parts of it that do not overlap,
except that a class which is a member has its own members strictly inside
(`LaidOut.spread`).
-/

namespace Testwright.Java

namespace Tree

/-! ## The body of a declaration -/

/-- The nodes in the body of a declaration; its members are the named ones. -/
def interior (decl : Tree) : List Tree := (decl.memberContainer?.map children).getD []

theorem members_eq (t : Tree) : t.members = t.interior.filter fun c => c.kind.named := by
  unfold members interior
  cases t.memberContainer? with
  | none => rfl
  | some container => rfl

theorem isClassLike_eq (t : Tree) : t.isClassLike = t.kind.declares := by
  obtain ⟨k, f, s, e, cs⟩ := t
  cases k <;> rfl

theorem named_of_isClassLike {t : Tree} (h : t.isClassLike = true) : t.kind.named = true := by
  obtain ⟨k, f, s, e, cs⟩ := t
  cases k with
  | token text => cases h
  | _ => rfl

/-! ## Nested declarations -/

theorem declaredInEnum_eq (outer : List Tree) (cs : List Tree) : declaredInEnum outer cs =
    declaredAmong outer (((cs.find? fun c => c.kind == .enumBodyDeclarations).map children).getD []) := by
  induction cs with
  | nil => simp [declaredInEnum, declaredAmong]
  | cons c cs ih =>
    obtain ⟨k, f, s, e, below⟩ := c
    by_cases hk : k = .enumBodyDeclarations
    · simp [declaredInEnum, hk, kind, children]
    · simp [declaredInEnum, hk, kind, ih]

theorem declaredInBody_eq (outer : List Tree) (cs : List Tree) : declaredInBody outer cs =
    match cs.find? fun c => c.field == some .body with
    | none => []
    | some body =>
      if body.kind = .enumBody then declaredInEnum outer body.children
      else declaredAmong outer body.children := by
  induction cs with
  | nil => simp [declaredInBody]
  | cons c cs ih =>
    obtain ⟨k, f, s, e, below⟩ := c
    by_cases hf : f = some .body
    · simp only [declaredInBody, hf, field, kind, children, List.find?_cons_of_pos, if_true, BEq.rfl]
      rfl
    · simp [declaredInBody, hf, field, ih]

theorem declaredAmong_eq_flatMap (outer ts : List Tree) :
    declaredAmong outer ts = ts.flatMap (declaredAt outer) := by
  induction ts with
  | nil => rw [declaredAmong, List.flatMap_nil]
  | cons t ts ih => rw [declaredAmong, ih, List.flatMap_cons]

/-- The class-like declarations at a node are the node and those in its body. -/
theorem declaredAt_eq (outer : List Tree) (t : Tree) : declaredAt outer t =
    if t.isClassLike then ⟨outer, t⟩ :: declaredAmong (outer ++ [t]) t.interior else [] := by
  obtain ⟨k, f, s, e, cs⟩ := t
  have hnamed (c : Tree) : decide (c.kind.named = true ∧ (c.kind == .enumBodyDeclarations) = true) =
      (c.kind == .enumBodyDeclarations) := by
    by_cases hkind : c.kind = .enumBodyDeclarations
    · rw [hkind]
      rfl
    · simp [hkind]
  have hbody : declaredInBody (outer ++ [.node k f s e cs]) cs =
      declaredAmong (outer ++ [.node k f s e cs]) (Tree.node k f s e cs).interior := by
    unfold interior memberContainer? child?
    rw [declaredInBody_eq, show (Tree.node k f s e cs).children = cs from rfl]
    cases cs.find? fun c => c.field == some .body with
    | none => simp [declaredAmong]
    | some body =>
      by_cases hkind : body.kind = .enumBody
      · simp only [hkind, if_true, declaredInEnum_eq, namedChildren, List.find?_filter, hnamed]
      · simp [hkind]
  simp only [declaredAt, hbody]

def membersOf (ds : List Declared) : List Tree := ds.flatMap fun d => d.decl.members

theorem membersOf_declaredAt (outer : List Tree) (t : Tree) : membersOf (declaredAt outer t) =
    if t.isClassLike then t.members ++ membersOf (declaredAmong (outer ++ [t]) t.interior)
    else [] := by
  rw [declaredAt_eq]
  split <;> rfl

/-! ## Nodes apart -/

/-- A class holds a node strictly inside and ends in a solid character. -/
structure Holds (source : List Char) (decl m : Tree) : Prop where
  isClassLike : decl.isClassLike = true
  start : decl.start < m.start
  stop : m.stop < decl.stop
  solid : SolidBefore source decl.stop

/-- Two nodes do not overlap, or the first is a class that holds the second. -/
def Apart (source : List Char) (a b : Tree) : Prop :=
  a.stop ≤ b.start ∨ b.stop ≤ a.start ∨ Holds source a b

/-- Some members sit in a text apart from each other, each inside of one of some classes. -/
structure Spread (source : List Char) (decls ms : List Tree) : Prop where
  sits : ∀ m ∈ ms, m.WellNested ∧ m.Forall (Sits source)
  held : ∀ m ∈ ms, ∃ decl ∈ decls, Holds source decl m
  apart : ms.Pairwise (Apart source)

variable {source : List Char}

/-- All nodes of a tree have a property if a node has it whenever the nodes below do. -/
theorem forall_of_below {p : Tree → Prop} (h : ∀ t, (∀ u ∈ t.children, Forall p u) → p t) :
    ∀ t, Forall p t := by
  intro t
  cases t with
  | node _ _ _ _ cs =>
    have hbelow : ∀ u ∈ cs, Forall p u := fun u _ => forall_of_below h u
    exact .node (h _ hbelow) hbelow

/-- The members of a declaration are in its body or in a node of its body. -/
theorem memberContainer?_eq_some {t c : Tree} (h : t.memberContainer? = some c) :
    ∃ body ∈ t.children, body.field = some .body ∧
      (c = body ∨ c ∈ body.children ∧ c.kind.named = true) := by
  unfold memberContainer? child? at h
  split at h
  · cases h
  · next body hfind =>
    have hmem := List.mem_of_find?_eq_some hfind
    have hfield : body.field = some .body := by simpa using List.find?_some hfind
    refine ⟨body, hmem, hfield, ?_⟩
    split at h
    · exact .inr (List.mem_filter.1 (List.mem_of_find?_eq_some h))
    · exact .inl (Option.some.inj h).symm

theorem forall_interior {p : Tree → Prop} {t : Tree} (h : ∀ u ∈ t.children, Forall p u) :
    ∀ u ∈ t.interior, Forall p u := by
  unfold interior
  cases hcontainer : t.memberContainer? with
  | none => nofun
  | some c =>
    obtain ⟨body, hmem, -, rfl | ⟨hc, -⟩⟩ := memberContainer?_eq_some hcontainer
    · exact fun u hu => (h c hmem).of_mem hu
    · exact fun u hu => ((h body hmem).of_mem hc).of_mem hu

theorem solidBefore_of_mem_interior {t u : Tree} (ht : t.Sits source) (hu : u ∈ t.interior) :
    SolidBefore source t.stop := by
  unfold interior at hu
  cases hcontainer : t.memberContainer? with
  | none =>
    rw [hcontainer] at hu
    cases hu
  | some c =>
    obtain ⟨body, hmem, hfield, -⟩ := memberContainer?_eq_some hcontainer
    exact ht.solid body hmem hfield

/-- The nodes in the body of a class that sits in a text are nested strictly inside the class. -/
theorem nestedIn_interior {t : Tree} (ht : t.isClassLike = true) (hnested : t.WellNested)
    (hbraced : t.Braced) : NestedIn (t.start + 1) t.stop t.interior ∧
      ∀ u ∈ t.interior, u.kind.named = true → u.stop < t.stop := by
  unfold interior
  cases hcontainer : t.memberContainer? with
  | none => exact ⟨trivial, nofun⟩
  | some c =>
    obtain ⟨body, hmem, hfield, hc⟩ := memberContainer?_eq_some hcontainer
    obtain ⟨hstart, hinside⟩ := hbraced (isClassLike_eq t ▸ ht) body hmem hfield
    obtain ⟨-, hstop, hnested⟩ := (wellNested_iff.1 hnested).2.of_mem hmem
    have hbody := (wellNested_iff.1 hnested).2
    rcases hc with rfl | ⟨hc, hnamed⟩
    · exact ⟨hbody.mono hstart hstop,
        fun u hu hnamed => Nat.lt_of_lt_of_le (hinside u hu hnamed) hstop⟩
    · obtain ⟨hstart', hstop', hnested'⟩ := hbody.of_mem hc
      have hcontainer := (wellNested_iff.1 hnested').2
      refine ⟨hcontainer.mono (Nat.le_trans hstart hstart') (Nat.le_trans hstop' hstop),
        fun u hu _ => ?_⟩
      have hu := (hcontainer.of_mem hu).2.1
      have hinside := hinside c hc hnamed
      show u.stop < t.stop
      omega

/-! ## The members of all declarations -/

theorem Spread.nil {decls : List Tree} : Spread source decls [] := ⟨nofun, nofun, .nil⟩

/-- Members of nested siblings are spread if those of each sibling are. -/
theorem spread_declaredAmong {outer : List Tree} {ts : List Tree} {lo hi : Nat}
    (hnested : NestedIn lo hi ts)
    (h : ∀ t ∈ ts, Spread source [t] (membersOf (declaredAt outer t))) :
    Spread source ts (membersOf (declaredAmong outer ts)) := by
  induction ts generalizing lo with
  | nil =>
    rw [declaredAmong]
    exact .nil
  | cons t ts ih =>
    obtain ⟨-, -, -, hrest⟩ := nestedIn_cons.1 hnested
    have hfirst := h t List.mem_cons_self
    have hlater := ih hrest fun u hu => h u (List.mem_cons_of_mem t hu)
    have hsplit : membersOf (declaredAmong outer (t :: ts)) =
        membersOf (declaredAt outer t) ++ membersOf (declaredAmong outer ts) := by
      rw [declaredAmong, membersOf, List.flatMap_append]
      rfl
    rw [hsplit]
    refine ⟨fun m hm => ?_, fun m hm => ?_, List.pairwise_append.2
      ⟨hfirst.apart, hlater.apart, fun a ha b hb => ?_⟩⟩
    · exact (List.mem_append.1 hm).elim (hfirst.sits m) (hlater.sits m)
    · rcases List.mem_append.1 hm with hm | hm
      · obtain ⟨decl, hdecl, hholds⟩ := hfirst.held m hm
        exact ⟨decl, List.mem_singleton.1 hdecl ▸ List.mem_cons_self, hholds⟩
      · obtain ⟨decl, hdecl, hholds⟩ := hlater.held m hm
        exact ⟨decl, List.mem_cons_of_mem t hdecl, hholds⟩
    · obtain ⟨decl, hdecl, hholds⟩ := hfirst.held a ha
      obtain ⟨decl', hdecl', hholds'⟩ := hlater.held b hb
      rw [List.mem_singleton.1 hdecl] at hholds
      have hstop := hholds.stop
      have hstart := hholds'.start
      have hbetween := (hrest.of_mem hdecl').1
      exact .inl (by omega)

/-- The members of a class and of those nested in it are spread inside the class. -/
theorem spread_declaredAt (t : Tree) : Forall (fun t => ∀ outer, t.WellNested →
    t.Forall (Sits source) → Spread source [t] (membersOf (declaredAt outer t))) t := by
  refine forall_of_below (fun t ih outer hnested hsits => ?_) t
  rw [membersOf_declaredAt]
  split
  · next ht =>
    obtain ⟨hinterior, hinside⟩ := nestedIn_interior ht hnested hsits.self.braced
    have hsits' := forall_interior (t := t) fun u hu => hsits.of_mem hu
    have hmembers : ∀ m ∈ t.members, m ∈ t.interior ∧ m.kind.named = true := fun m hm =>
      List.mem_filter.1 (members_eq t ▸ hm)
    have hbelow : Spread source t.interior
        (membersOf (declaredAmong (outer ++ [t]) t.interior)) :=
      spread_declaredAmong hinterior fun u hu =>
        (forall_interior ih u hu).self _ (hinterior.of_mem hu).2.2 (hsits' u hu)
    refine ⟨fun m hm => ?_, fun m hm => ⟨t, List.mem_singleton_self t, ?_⟩,
      List.pairwise_append.2 ⟨?_, hbelow.apart, fun a ha b hb => ?_⟩⟩
    · rcases List.mem_append.1 hm with hm | hm
      · have hm := (hmembers m hm).1
        exact ⟨(hinterior.of_mem hm).2.2, hsits' m hm⟩
      · exact hbelow.sits m hm
    · rcases List.mem_append.1 hm with hm | hm
      · obtain ⟨hm, hnamed⟩ := hmembers m hm
        exact ⟨ht, (hinterior.of_mem hm).1, hinside m hm hnamed,
          solidBefore_of_mem_interior hsits.self hm⟩
      · obtain ⟨decl, hdecl, hholds⟩ := hbelow.held m hm
        have hdecl_inside := hinside decl hdecl (named_of_isClassLike hholds.isClassLike)
        exact ⟨ht, Nat.lt_trans (hinterior.of_mem hdecl).1 hholds.start,
          Nat.lt_trans hholds.stop hdecl_inside, solidBefore_of_mem_interior hsits.self hdecl⟩
    · rw [members_eq]
      exact ((nestedIn_iff.1 hinterior).1.filter _).imp Or.inl
    · obtain ⟨decl, hdecl, hholds⟩ := hbelow.held b hb
      -- `b` lies in a class `decl` beside `a`, unless `a` is this class itself
      by_cases heq : a = decl
      · exact .inr (.inr (heq ▸ hholds))
      · have hstart := hholds.start
        have hstop := hholds.stop
        rcases related_of_pairwise (nestedIn_iff.1 hinterior).1 (hmembers a ha).1 hdecl heq with
          h | h
        · exact .inl (by omega)
        · exact .inr (.inl (by omega))
  · exact .nil

end Tree

open Tree

/-- The members of all declarations of a text are spread over it. -/
theorem LaidOut.spread {source : List Char} {root : Tree} (h : LaidOut source root) :
    Spread source root.children (membersOf root.declarations) := by
  have hnested := (wellNested_iff.1 h.nested).2
  exact spread_declaredAmong hnested fun t ht =>
    (spread_declaredAt t).self _ (hnested.of_mem ht).2.2 (h.nodes t ht)

end Testwright.Java
