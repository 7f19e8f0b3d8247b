import Testwright.Proofs.Java.Briefs
import Testwright.Proofs.Java.Pruning

/-!
# Profiles of members

All that pruning reads of a field or method is its `Profile`: its kind, its modifiers and its signature, the kind of
its class, and the text of its body. What happens to a member can be told from its profile (`Profile.pruned?`), and
texts with the same profiles are pruned alike. The profiles of a text are those of the members of all declarations
(`profiles`), which are found in the declarations and in those nested in them (`Tree.profiles_eq`).
-/

namespace Testwright.Java

open Tree

/-- What pruning reads of a field or method, and the text of its body. -/
structure Profile where
  kind : Kind
  inInterface : Bool
  isPrivate : Bool
  declaredPublic : Bool
  signature : Option String
  body : Option (List Char)
  deriving DecidableEq, Repr

namespace Profile

variable (wanted : Names) (p : Profile)

def isPublic : Bool := p.declaredPublic || p.inInterface && !p.isPrivate

def isUnwanted : Bool := p.kind == .methodDeclaration && p.signature.any fun s => !wanted.contains s

def isRemoved : Bool := p.kind == .fieldDeclaration && p.isPrivate || p.isUnwanted wanted && !p.isPublic

def isStubbed : Bool := p.isUnwanted wanted && p.isPublic && p.body.isSome

/-- What pruning leaves. -/
def pruned? : Option Profile :=
  if p.isRemoved wanted then none else if p.isStubbed wanted then some { p with body := none } else some p

variable {wanted p} {p' : Profile}

/-- Nothing more is pruned of what pruning leaves. -/
theorem of_pruned? (h : p.pruned? wanted = some p') : p'.isRemoved wanted = false ∧ p'.isStubbed wanted = false := by
  unfold pruned? at h
  split at h
  · cases h
  · next hremoved =>
    rw [Bool.not_eq_true] at hremoved
    split at h
    · cases h
      exact ⟨hremoved, Bool.and_false _⟩
    · next hstubbed =>
      cases h
      exact ⟨hremoved, (Bool.not_eq_true _).mp hstubbed⟩

end Profile

namespace Tree

variable {source source' : List Char} {inInterface : Bool} {t t' : Tree} {f : Nat → Nat} {p : Profile}

/-- The profile of a field or method. -/
def profile? (source : List Char) (inInterface : Bool) (t : Tree) : Option Profile :=
  if t.kind = .fieldDeclaration ∨ t.kind = .methodDeclaration then
    some ⟨t.kind, inInterface, t.hasModifier "private", t.hasModifier "public", t.signature? source,
      (t.child? .body).map (chars source)⟩
  else none

theorem profile?_eq_some (h : t.profile? source inInterface = some p) :
    (t.kind = .fieldDeclaration ∨ t.kind = .methodDeclaration) ∧ p = ⟨t.kind, inInterface, t.hasModifier "private",
      t.hasModifier "public", t.signature? source, (t.child? .body).map (chars source)⟩ := by
  unfold profile? at h
  split at h
  · next hkind => exact ⟨hkind, (Option.some.inj h).symm⟩
  · cases h

theorem profile?_eq_none (h : t.kind ≠ .fieldDeclaration) (h' : t.kind ≠ .methodDeclaration) :
    t.profile? source inInterface = none := if_neg (not_or_intro h h')

theorem profile?_of_not_named (h : t.kind.named = false) : t.profile? source inInterface = none := by
  refine profile?_eq_none (fun hkind => ?_) fun hkind => ?_ <;>
  · rw [hkind] at h
    cases h

theorem profile?_of_isClassLike (h : t.isClassLike = true) : t.profile? source inInterface = none := by
  rw [isClassLike_eq] at h
  refine profile?_eq_none (fun hkind => ?_) fun hkind => ?_ <;>
  · rw [hkind] at h
    cases h

theorem profile?_of_isNote (h : t.isNote = true) : t.profile? source inInterface = none := by
  have hkind : t.kind.isComment = true := (Bool.and_eq_true_iff.1 h).1
  refine profile?_eq_none (fun hkind' => ?_) fun hkind' => ?_ <;>
  · rw [hkind'] at hkind
    cases hkind

/-! ## Members at other places -/

theorem hasModifier_move (word : String) : (t.move f).hasModifier word = t.hasModifier word := by
  unfold hasModifier
  rw [children_move, List.find?_map]
  simp only [Function.comp_def, kind_move]
  cases t.children.find? fun c => c.kind == .modifiers with
  | none => rfl
  | some m => simp only [Option.map_some, children_move, List.any_map, Function.comp_def, kind_move]

theorem hasModifier_stripped (word : String) : t.stripped.hasModifier word = t.hasModifier word := by
  have hnote {u : Tree} (h : u.isNote = true) : u.kind.isComment = true := (Bool.and_eq_true_iff.1 h).1
  unfold hasModifier
  rw [children_stripped, find?_stripped (by simp) fun u hu => ?_]
  · cases t.children.find? fun c => c.kind == .modifiers with
    | none => rfl
    | some m =>
      simp only [Option.map_some, children_stripped, List.any_map, List.any_filter, Function.comp_def, kind_stripped]
      refine congrArg (List.any m.children) (funext fun u => ?_)
      cases hu : u.isNote with
      | false => simp
      | true =>
        have hkind : (u.kind == .token word) = false := beq_false_of_ne fun heq => by
          have := hnote hu
          rw [heq] at this
          cases this
        simp [hkind]
  · refine beq_false_of_ne fun heq => ?_
    have := hnote hu
    rw [heq] at this
    cases this

/-- The profile of a member is read off its modifiers, its signature and its body. -/
theorem profile?_congr (hkind : t'.kind = t.kind) (hmodifier : ∀ word, t'.hasModifier word = t.hasModifier word)
    (hsignature : t'.signature? source' = t.signature? source)
    (hbody : (t'.child? .body).map (chars source') = (t.child? .body).map (chars source)) :
    t'.profile? source' inInterface = t.profile? source inInterface := by
  simp only [profile?, hkind, hmodifier, hsignature, hbody]

/-- A member that is carried has the same profile. -/
theorem Carried.profile? (h : t.Carried source source' f) :
    (t.move f).profile? source' inInterface = t.profile? source inInterface := by
  refine profile?_congr kind_move hasModifier_move ?_ ?_
  · refine signature?_eq_of_carried (f := f) fun part _ => ⟨child?_move part, fun v hv => ?_⟩
    exact h.of_mem (List.mem_of_find?_eq_some hv)
  · rw [child?_move, Option.map_map]
    exact Option.map_congr fun v hv => (h.of_mem (List.mem_of_find?_eq_some hv)).self

end Tree

/-! ## The members of declarations -/

theorem Tree.map_decl_declaredAt (outer outer' : List Tree) (t : Tree) :
    (declaredAt outer t).map Declared.decl = (declaredAt outer' t).map Declared.decl := by
  refine (forall_of_below (p := fun t => ∀ outer outer' : List Tree,
    (declaredAt outer t).map Declared.decl = (declaredAt outer' t).map Declared.decl)
    (fun t ih outer outer' => ?_) t).self outer outer'
  rw [declaredAt_eq, declaredAt_eq]
  split
  · simp only [List.map_cons, declaredAmong_eq_flatMap, List.map_flatMap]
    refine congrArg _ (List.flatMap_congr fun u hu => ?_)
    exact (forall_interior ih u hu).self _ _
  · rfl

namespace Member

/-- The members of the declarations at a node. -/
def below (t : Tree) : List Member := (t.declaredAt []).flatMap fun d => d.decl.members.map (Member.mk d.decl)

theorem below_eq_of_declaredAt (outer : List Tree) (t : Tree) :
    below t = (t.declaredAt outer).flatMap fun d => d.decl.members.map (Member.mk d.decl) := by
  have hmap (ds : List Declared) : (ds.flatMap fun d => d.decl.members.map (Member.mk d.decl)) =
      (ds.map Declared.decl).flatMap fun decl => decl.members.map (Member.mk decl) := by rw [List.flatMap_map]
  rw [below, hmap, hmap, map_decl_declaredAt [] outer]

/-- The members at a class are its own and those of the classes among these. -/
theorem below_eq (t : Tree) : below t =
    if t.isClassLike then t.members.map (Member.mk t) ++ t.interior.flatMap below else [] := by
  rw [below, declaredAt_eq]
  split
  · rw [List.flatMap_cons, declaredAmong_eq_flatMap, List.flatMap_assoc]
    exact congrArg _ (List.flatMap_congr fun u _ => (below_eq_of_declaredAt _ u).symm)
  · rfl

theorem all_eq (root : Tree) : all root = root.children.flatMap below := by
  rw [all, declarations, declaredAmong_eq_flatMap, List.flatMap_assoc]
  rfl

variable (source : List Char) (m : Member)

def profile? : Option Profile := m.node.profile? source (m.decl.kind == .interfaceDeclaration)

variable {source m} {wanted : Names} {p : Profile}

theorem isRemoved_of_profile? (h : m.profile? source = some p) : m.isRemoved source wanted = p.isRemoved wanted := by
  obtain ⟨-, rfl⟩ := profile?_eq_some h
  rfl

theorem isStubbed_of_profile? (h : m.profile? source = some p) : m.isStubbed source wanted = p.isStubbed wanted := by
  obtain ⟨-, rfl⟩ := profile?_eq_some h
  simp [isStubbed, Profile.isStubbed, Option.isSome_map]
  rfl

theorem pruned?_of_isRemoved (h : m.isRemoved source wanted = true) :
    (m.profile? source).bind (Profile.pruned? wanted) = none := by
  cases hp : m.profile? source with
  | none => rfl
  | some p => exact if_pos ((isRemoved_of_profile? hp).symm.trans h)

theorem pruned?_of_isStubbed (h : m.isRemoved source wanted = false) (h' : m.isStubbed source wanted = true) :
    (m.profile? source).bind (Profile.pruned? wanted) = (m.profile? source).map fun p => { p with body := none } := by
  cases hp : m.profile? source with
  | none => rfl
  | some p =>
    rw [isRemoved_of_profile? hp] at h
    rw [isStubbed_of_profile? hp] at h'
    simp [Profile.pruned?, h, h']

theorem pruned?_of_neither (h : m.isRemoved source wanted = false) (h' : m.isStubbed source wanted = false) :
    (m.profile? source).bind (Profile.pruned? wanted) = m.profile? source := by
  cases hp : m.profile? source with
  | none => rfl
  | some p =>
    rw [isRemoved_of_profile? hp] at h
    rw [isStubbed_of_profile? hp] at h'
    simp [Profile.pruned?, h, h']

end Member

namespace Tree

variable (source : List Char) (t : Tree)

/-- The profiles of the members of the declarations at a node. -/
def profiles : List Profile := (Member.below t).filterMap (Member.profile? source)

theorem profiles_eq : t.profiles source =
    if t.isClassLike then t.interior.filterMap (profile? source (t.kind == .interfaceDeclaration)) ++
      t.interior.flatMap (profiles source) else [] := by
  rw [profiles, Member.below_eq]
  split
  · rw [List.filterMap_append, List.filterMap_map, List.filterMap_flatMap, members_eq, List.filterMap_filter]
    refine congrArg (· ++ _) (List.filterMap_congr fun u _ => ?_)
    cases hnamed : u.kind.named with
    | false => simpa using (profile?_of_not_named hnamed).symm
    | true => rfl
  · rfl

end Tree

namespace Member

variable {t : Tree} {n : Member}

theorem mem_below : n ∈ below t ↔
    t.isClassLike = true ∧ (n.decl = t ∧ n.node ∈ t.members ∨ ∃ u ∈ t.interior, n ∈ below u) := by
  rw [below_eq]
  split
  · next hclass =>
    simp only [List.mem_append, List.mem_map, List.mem_flatMap, hclass, true_and]
    refine or_congr_left ⟨?_, ?_⟩
    · rintro ⟨u, hu, rfl⟩
      exact ⟨rfl, hu⟩
    · rintro ⟨rfl, hu⟩
      exact ⟨n.node, hu, rfl⟩
  · next hclass => simp [hclass]

/-- Below a class are its members and what is below them. -/
theorem exists_of_mem_below (hn : n ∈ below t) (hnote : n.node.isNote = false) :
    ∃ u ∈ t.members, u.isNote = false ∧ (n = ⟨t, u⟩ ∨ n ∈ below u) := by
  obtain ⟨-, ⟨rfl, hnode⟩ | ⟨u, hu, hn⟩⟩ := mem_below.1 hn
  · exact ⟨n.node, hnode, hnote, .inl rfl⟩
  · have hclass := (mem_below.1 hn).1
    exact ⟨u, members_eq t ▸ List.mem_filter.2 ⟨hu, named_of_isClassLike hclass⟩, isNote_of_isClassLike hclass, .inr hn⟩

end Member

/-! ## The nodes that a body holds -/

namespace Tree

variable {t : Tree} {ms : List Tree} {f : Nat → Nat}

theorem interior_stripped (t : Tree) : t.stripped.interior = (t.interior.filter fun t => !t.isNote).map stripped := by
  rw [interior, memberContainer?_stripped, interior]
  cases t.memberContainer? with
  | none => rfl
  | some container => exact children_stripped container

theorem members_move : (t.move f).members = t.members.map (move f) := by
  have hcontainer : (t.move f).memberContainer? = t.memberContainer?.map (move f) := by
    rw [memberContainer?, memberContainer?, child?_move]
    cases t.child? .body with
    | none => rfl
    | some body =>
      simp only [Option.map_some, kind_move, namedChildren_move, List.find?_map, Function.comp_def]
      split <;> rfl
  rw [members, members, hcontainer]
  cases t.memberContainer? with
  | none => rfl
  | some container => exact namedChildren_move

theorem houses_nil (h : t.members = []) : t.Houses [] := by
  refine ⟨t.interior, [], by simp, fun u hu => ?_⟩
  rw [members_eq, List.filter_eq_nil_iff] at h
  rw [List.append_nil] at hu
  simpa using h u hu

theorem profiles_of_not_isClassLike {source : List Char} (h : t.isClassLike = false) : t.profiles source = [] := by
  rw [Tree.profiles_eq, if_neg (by simp [h])]

/-- The nodes that a body holds give all the profiles of a declaration. -/
theorem Houses.exists_nodes (h : t.stripped.Houses ms) (hclass : t.isClassLike = true) : ∃ ds : List Tree,
    (∀ d ∈ ds, d ∈ t.interior ∧ d.isNote = false) ∧ ds.map stripped = ms ∧ ∀ source, t.profiles source =
      ds.filterMap (profile? source (t.kind == .interfaceDeclaration)) ++ ds.flatMap (Tree.profiles source) := by
  obtain ⟨front, back, hinterior, hothers⟩ := h
  rw [interior_stripped, List.map_eq_append_iff] at hinterior
  obtain ⟨fs, bs, hfilter, hfs, rfl⟩ := hinterior
  obtain ⟨fs, ds, rfl, rfl, rfl⟩ := List.map_eq_append_iff.1 hfs
  have hmem : ∀ d ∈ fs ++ ds ++ bs, d ∈ t.interior ∧ d.isNote = false := fun d hd => by
    rw [← hfilter, List.mem_filter] at hd
    simpa using hd
  -- nothing else in the body has profiles
  have hnodes (g : Tree → List Profile) (hg : ∀ u, u.kind.named = false ∨ u.isNote = true → g u = []) :
      t.interior.flatMap g = ds.flatMap g := by
    have hnotes : (t.interior.filter fun t => !t.isNote).flatMap g = t.interior.flatMap g :=
      flatMap_filter_of_nil (fun u hu => hg u (.inr (by simpa using hu))) t.interior
    have hfront : fs.flatMap g = [] := List.flatMap_eq_nil_iff.2 fun u hu => hg u <| .inl <| by
      simpa using hothers u.stripped (by simp [List.mem_map_of_mem hu])
    have hback : bs.flatMap g = [] := List.flatMap_eq_nil_iff.2 fun u hu => hg u <| .inl <| by
      simpa using hothers u.stripped (by simp [List.mem_map_of_mem hu])
    rw [← hnotes, hfilter, List.flatMap_append, List.flatMap_append, hfront, hback, List.nil_append, List.append_nil]
  refine ⟨ds, fun d hd => hmem d (by simp [hd]), rfl, fun source => ?_⟩
  rw [Tree.profiles_eq, if_pos hclass, List.filterMap_eq_flatMap_toList, List.filterMap_eq_flatMap_toList,
    hnodes _ fun u hu => ?_, hnodes _ fun u hu => ?_]
  · refine profiles_of_not_isClassLike (Bool.eq_false_iff.2 fun hclass => ?_)
    rcases hu with hu | hu
    · cases hu.symm.trans (named_of_isClassLike hclass)
    · cases hu.symm.trans (isNote_of_isClassLike hclass)
  · rcases hu with hu | hu
    · rw [profile?_of_not_named hu]
      rfl
    · rw [profile?_of_isNote hu]
      rfl

/-- A class without members has no profiles. -/
theorem profiles_eq_nil {source : List Char} (h : t.isClassLike = true → t.stripped.members = []) :
    t.profiles source = [] := by
  cases hclass : t.isClassLike with
  | false => exact profiles_of_not_isClassLike hclass
  | true =>
    obtain ⟨ds, -, hds, hprofiles⟩ := (houses_nil (h hclass)).exists_nodes hclass
    cases List.map_eq_nil_iff.1 hds
    exact hprofiles source

end Tree

/-! ## Texts -/

/-- The profiles of the members of a text. -/
def profiles (source : List Char) (root : Tree) : List Profile := (Member.all root).filterMap (Member.profile? source)

theorem profiles_eq (source : List Char) (root : Tree) :
    profiles source root = root.children.flatMap (Tree.profiles source) := by
  rw [profiles, Member.all_eq, List.filterMap_flatMap]
  rfl

/-- The profiles of a text are those of the nodes that are no comments. -/
theorem profiles_eq_flatMap_filter (source : List Char) (root : Tree) :
    profiles source root = (root.children.filter fun t => !t.isNote).flatMap (Tree.profiles source) := by
  rw [profiles_eq]
  refine (flatMap_filter_of_nil (fun t ht => profiles_of_not_isClassLike ?_) root.children).symm
  refine Bool.eq_false_iff.2 fun hclass => ?_
  rw [isNote_of_isClassLike hclass] at ht
  cases ht

end Testwright.Java
