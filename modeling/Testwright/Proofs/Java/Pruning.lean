import Testwright.Proofs.Data.Dict
import Testwright.Proofs.Java.Edits
import Testwright.Proofs.Java.Members
import Testwright.Proofs.Java.Widening
import Testwright.Proofs.Text.Cutting

/-!
# What pruning does

`Member.isRemoved` and `Member.isStubbed` say of each member of a text whether pruning removes it or
takes its body, and `Member.fate_eq_remove_iff` and `Member.fate_eq_stub_iff` that it does. The edits
of different members never overlap (`independent_edits`) and keep out of all members that stay, but
for the classes among these, which the edits of their own members do not leave (`edit_apart`).

So pruning makes all edits at once, and everything that stays is found at its place in the result
(`prune?_faithful`).
-/

namespace Testwright.Java

namespace Prune

variable {source : List Char}

/-! ## The edits of members -/

theorem length_header_le {m body : Tree} (h : m.child? .body = some body) :
    (m.header source).length ≤ body.start - m.start := by
  have hdrop : (Text.trimEnd (Tree.slice source m.start body.start)).length ≤
      (Tree.slice source m.start body.start).length := by
    rw [Text.trimEnd, Text.dropEndWhile, List.length_reverse]
    exact Nat.le_trans (List.dropWhile_suffix _).length_le (Nat.le_of_eq List.length_reverse)
  rw [Tree.header, h]
  exact Nat.le_trans hdrop (List.length_take_le ..)

/-- The edit of a member takes the place of a part of it or of all of it with blanks around. -/
theorem around_edit? {m : Tree} {f : Fate} {e : Edit} (hnested : m.WellNested)
    (hsits : m.Forall (Tree.Sits source)) (h : edit? source (m, f) = some e) :
    Around source m.start m.stop e.start e.stop := by
  cases f with
  | stay => cases h
  | keep signature => cases h
  | remove =>
    cases h
    exact around_lineSpan hsits.self.firm.nonempty hsits.self.firm.inside
  | stub =>
    obtain ⟨body, hbody, rfl⟩ := Option.map_eq_some_iff.1 h
    have hmem : body ∈ m.children := List.mem_of_find?_eq_some hbody
    obtain ⟨hstart, hstop, -⟩ := (Tree.wellNested_iff.1 hnested).2.of_mem hmem
    have hfirm := (hsits.of_mem hmem).self.firm
    have hheader : (m.header source).length ≤ body.start - m.start := length_header_le hbody
    have hlt : m.start + (m.header source).length < body.stop := by
      have := hfirm.nonempty
      omega
    exact .of_le (Nat.le_add_right ..) hlt hstop hfirm.inside

end Prune

/-! ## What happens to members -/

structure Member where
  decl : Tree
  node : Tree

namespace Member

open Prune

/-- The members of all class-like declarations of a source. -/
def all (root : Tree) : List Member :=
  root.declarations.flatMap fun d => d.decl.members.map (Member.mk d.decl)

variable (source : List Char) (wanted : Names) (m : Member)

def isPrivateField : Bool := m.node.kind == .fieldDeclaration && m.node.hasModifier "private"

/-- A method whose signature is not wanted. -/
def isUnwanted : Bool :=
  m.node.kind == .methodDeclaration && (m.node.signature? source).any fun s => !wanted.contains s

/-- Declared public, or in an interface and not declared private. -/
def isPublic : Bool :=
  m.node.hasModifier "public" ||
    m.decl.kind == .interfaceDeclaration && !m.node.hasModifier "private"

/-- A private field or an unwanted method that is not public. -/
def isRemoved : Bool := m.isPrivateField || m.isUnwanted source wanted && !m.isPublic

/-- An unwanted public method with a body. -/
def isStubbed : Bool := m.isUnwanted source wanted && m.isPublic && (m.node.child? .body).isSome

def fate : Fate := Prune.fate source wanted (m.decl.kind == .interfaceDeclaration) m.node

variable {source wanted m}

theorem fate_of_field (h : m.node.kind = .fieldDeclaration) :
    m.fate source wanted = if m.node.hasModifier "private" then .remove else .stay := by
  rw [fate, Prune.fate, h]

theorem fate_of_method (h : m.node.kind = .methodDeclaration) : m.fate source wanted =
    match m.node.signature? source with
    | none => .stay
    | some signature =>
      if wanted.contains signature then .keep signature
      else if m.isPublic then if (m.node.child? .body).isSome then .stub else .stay
      else .remove := by
  rw [fate, Prune.fate, h]
  rfl

theorem fate_of_other (hfield : m.node.kind ≠ .fieldDeclaration)
    (hmethod : m.node.kind ≠ .methodDeclaration) : m.fate source wanted = .stay := by
  unfold fate Prune.fate
  split
  · next h => exact absurd h hfield
  · next h => exact absurd h hmethod
  · rfl

theorem fate_eq_remove_iff : m.fate source wanted = .remove ↔ m.isRemoved source wanted = true := by
  by_cases hfield : m.node.kind = .fieldDeclaration
  · simp [fate_of_field hfield, isRemoved, isPrivateField, isUnwanted, hfield]
  · by_cases hmethod : m.node.kind = .methodDeclaration
    · rw [fate_of_method hmethod]
      cases hsignature : m.node.signature? source with
      | none => simp [isRemoved, isPrivateField, isUnwanted, hmethod, hsignature]
      | some signature =>
        cases hwanted : wanted.contains signature <;> cases hpublic : m.isPublic <;>
          cases hbody : (m.node.child? .body).isSome <;>
          simp [isRemoved, isPrivateField, isUnwanted, hmethod, hsignature, hwanted, hpublic]
    · simp [fate_of_other hfield hmethod, isRemoved, isPrivateField, isUnwanted, hfield, hmethod]

theorem fate_eq_stub_iff : m.fate source wanted = .stub ↔ m.isStubbed source wanted = true := by
  by_cases hfield : m.node.kind = .fieldDeclaration
  · rw [fate_of_field hfield]
    split <;> simp [isStubbed, isUnwanted, hfield]
  · by_cases hmethod : m.node.kind = .methodDeclaration
    · rw [fate_of_method hmethod]
      cases hsignature : m.node.signature? source with
      | none => simp [isStubbed, isUnwanted, hsignature]
      | some signature =>
        cases hwanted : wanted.contains signature <;> cases hpublic : m.isPublic <;>
          cases hbody : (m.node.child? .body).isSome <;>
          simp [isStubbed, isUnwanted, hmethod, hsignature, hwanted, hpublic, hbody]
    · simp [fate_of_other hfield hmethod, isStubbed, isUnwanted, hmethod]

theorem fate_eq_keep_iff {signature : String} : m.fate source wanted = .keep signature ↔
    m.node.kind = .methodDeclaration ∧ m.node.signature? source = some signature ∧
      wanted.contains signature = true := by
  by_cases hfield : m.node.kind = .fieldDeclaration
  · rw [fate_of_field hfield]
    split <;> simp [hfield]
  · by_cases hmethod : m.node.kind = .methodDeclaration
    · rw [fate_of_method hmethod]
      cases hsignature : m.node.signature? source with
      | none => simp
      | some signature' =>
        cases hwanted : wanted.contains signature' with
        | false =>
          have hother : signature' = signature → wanted.contains signature = false :=
            fun heq => heq ▸ hwanted
          cases hpublic : m.isPublic <;> cases hbody : (m.node.child? .body).isSome <;>
            simpa [hmethod, hwanted, hpublic, hbody] using hother
        | true =>
          have hsame : signature' = signature → wanted.contains signature = true :=
            fun heq => heq ▸ hwanted
          simpa [hmethod, hwanted] using hsame
    · simp [fate_of_other hfield hmethod, hmethod]

/-- A class-like member is neither removed nor reduced to a stub. -/
theorem fate_of_isClassLike (h : m.node.isClassLike = true) : m.fate source wanted = .stay := by
  refine fate_of_other (fun hkind => ?_) fun hkind => ?_ <;>
  · rw [Tree.isClassLike, hkind] at h
    cases h

variable (source wanted) in
def edit? (m : Member) : Option Edit := Prune.edit? source (m.node, m.fate source wanted)

theorem isRemoved_or_isStubbed_of_edit? {e : Edit} (h : m.edit? source wanted = some e) :
    m.isRemoved source wanted = true ∨ m.isStubbed source wanted = true := by
  rw [← fate_eq_remove_iff, ← fate_eq_stub_iff]
  unfold edit? Prune.edit? at h
  split at h
  · next heq => exact .inl (congrArg Prod.snd heq)
  · next heq => exact .inr (congrArg Prod.snd heq)
  · cases h

theorem edit?_eq_none (h : m.isRemoved source wanted = false) (h' : m.isStubbed source wanted = false) :
    m.edit? source wanted = none := by
  refine Option.eq_none_iff_forall_ne_some.2 fun e he => ?_
  rcases isRemoved_or_isStubbed_of_edit? he with heq | heq
  · cases h.symm.trans heq
  · cases h'.symm.trans heq

theorem edit?_of_isClassLike (h : m.node.isClassLike = true) : m.edit? source wanted = none := by
  rw [edit?, fate_of_isClassLike h]
  rfl

end Member

namespace Prune

variable (source : List Char) (wanted : Names) (root : Tree)

/-- The edits that pruning collects. -/
def edits : List Edit := (fates source wanted root).filterMap (edit? source)

theorem fates_eq : fates source wanted root =
    (Member.all root).map fun m => (m.node, m.fate source wanted) := by
  rw [fates, Member.all, List.map_flatMap]
  refine List.flatMap_congr fun d _ => ?_
  rw [List.map_map]
  rfl

theorem edits_eq : edits source wanted root =
    (Member.all root).filterMap (Member.edit? source wanted) := by
  rw [edits, fates_eq, List.filterMap_map]
  rfl

theorem map_node_all : (Member.all root).map Member.node = Tree.membersOf root.declarations := by
  rw [Member.all, List.map_flatMap, Tree.membersOf]
  refine List.flatMap_congr fun d _ => ?_
  rw [List.map_map]
  exact List.map_id _

variable {source wanted root}

section
variable (h : LaidOut source root)
include h

theorem spread_all : Tree.Spread source root.children ((Member.all root).map Member.node) :=
  map_node_all root ▸ h.spread

theorem firm_of_mem_all {m : Member} (hm : m ∈ Member.all root) :
    Firm source m.node.start m.node.stop :=
  ((spread_all h).sits m.node (List.mem_map_of_mem hm)).2.self.firm

theorem around_of_mem_all {m : Member} (hm : m ∈ Member.all root) {e : Edit}
    (he : m.edit? source wanted = some e) : Around source m.node.start m.node.stop e.start e.stop :=
  have hsits := (spread_all h).sits m.node (List.mem_map_of_mem hm)
  around_edit? hsits.1 hsits.2 he

theorem apart_all : (Member.all root).Pairwise fun a b => Tree.Apart source a.node b.node :=
  List.pairwise_map.1 (spread_all h).apart

/-- The edits of pruning can be made at once. -/
theorem independent_edits : Edit.Independent source (edits source wanted root) := by
  rw [edits_eq]
  refine ⟨fun e he => ?_, fun e he => ?_, ?_⟩
  · obtain ⟨m, hm, he⟩ := List.mem_filterMap.1 he
    exact (around_of_mem_all h hm he).nonempty
  · obtain ⟨m, hm, he⟩ := List.mem_filterMap.1 he
    exact (around_of_mem_all h hm he).inside
  · refine List.pairwise_filterMap.2 (List.Pairwise.imp_of_mem
      (fun {a b} ha hb hab e he f hf => ?_) (apart_all h))
    have hfirm_a := firm_of_mem_all h ha
    have hfirm_b := firm_of_mem_all h hb
    have haround_e := around_of_mem_all h ha he
    have haround_f := around_of_mem_all h hb hf
    rcases hab with hbefore | hbehind | hholds
    · exact .inl (haround_e.apart haround_f hfirm_a hfirm_b hbefore)
    · exact .inr (haround_f.apart haround_e hfirm_b hfirm_a hbehind)
    · cases (Member.edit?_of_isClassLike hholds.isClassLike).symm.trans he

/-- An edit keeps out of every member that is neither removed nor reduced to a stub, unless the member
is a class: then the edit may lie strictly inside. -/
theorem edit_apart {m : Member} (hm : m ∈ Member.all root) (hremoved : m.isRemoved source wanted = false)
    (hstubbed : m.isStubbed source wanted = false) {e : Edit} (he : e ∈ edits source wanted root) :
    e.stop ≤ m.node.start ∨ m.node.stop ≤ e.start ∨
      m.node.isClassLike = true ∧ m.node.start < e.start ∧ e.stop < m.node.stop := by
  rw [edits_eq] at he
  obtain ⟨n, hn, he⟩ := List.mem_filterMap.1 he
  -- the edit is that of another member `n`, as `m` undergoes none
  have hne : m ≠ n := by
    rintro rfl
    cases (Member.edit?_eq_none hremoved hstubbed).symm.trans he
  have haround := around_of_mem_all h hn he
  have hfirm_m := firm_of_mem_all h hm
  have hbefore (hle : m.node.stop ≤ n.node.start) : m.node.stop ≤ e.start :=
    haround.le_start hfirm_m (firm_of_mem_all h hn) hle
  have hbehind (hle : n.node.stop ≤ m.node.start) : e.stop ≤ m.node.start :=
    haround.stop_le hfirm_m hle
  rcases related_of_pairwise (apart_all h) hm hn hne with (hle | hle | hholds) | (hle | hle | hholds)
  · exact .inr (.inl (hbefore hle))
  · exact .inl (hbehind hle)
  · exact .inr (.inr ⟨hholds.isClassLike,
      haround.inside_of_lt hfirm_m hholds.solid hholds.start hholds.stop⟩)
  · exact .inl (hbehind hle)
  · exact .inr (.inl (hbefore hle))
  · cases (Member.edit?_of_isClassLike hholds.isClassLike).symm.trans he

end

/-! ## The result -/

/-- What pruning makes of a text with a tree: all edits are made at once, every member that is neither
removed nor reduced to a stub is found at its place, and the report counts what was done. Positions
count characters, so edits are at boundaries of characters. -/
structure Faithful (source : List Char) (wanted : Names) (root : Tree) (pruned : Pruned) : Prop where
  independent : Edit.Independent source (edits source wanted root)
  spliced : pruned.source = Edit.splice source (edits source wanted root)
  atOnce : pruned.source = Edit.substituted source (edits source wanted root) 0 source.length
  ordered : ∀ i j, i ≤ j →
    Edit.place source (edits source wanted root) i ≤ Edit.place source (edits source wanted root) j
  stays : ∀ m ∈ Member.all root, m.isRemoved source wanted = false →
    m.isStubbed source wanted = false → m.node.isClassLike = false →
    Tree.slice pruned.source (Edit.place source (edits source wanted root) m.node.start)
      (Edit.place source (edits source wanted root) m.node.stop) = m.node.chars source
  nested : ∀ m ∈ Member.all root, m.node.isClassLike = true →
    Tree.slice pruned.source (Edit.place source (edits source wanted root) m.node.start)
      (Edit.place source (edits source wanted root) m.node.stop) =
    Edit.substituted source ((edits source wanted root).filter fun e =>
      m.node.start < e.start && e.stop < m.node.stop) m.node.start m.node.stop
  kept : ∃ declared, declaredSignatures? source = some declared ∧
    pruned.kept = wanted.filter fun s _ => declared.contains s
  removed : pruned.removed = (Member.all root).countP Member.isPrivateField +
    (Member.all root).countP fun m => m.isUnwanted source wanted && !m.isPublic
  stubbed : pruned.stubbed = (Member.all root).countP fun m =>
    m.isUnwanted source wanted && m.isPublic && (m.node.child? .body).isSome

theorem countP_or {α : Type} {p q : α → Bool} {l : List α} (h : ∀ a, p a = true → q a = false) :
    l.countP (fun a => p a || q a) = l.countP p + l.countP q := by
  induction l with
  | nil => rfl
  | cons a l ih =>
    simp only [List.countP_cons, ih]
    cases hp : p a with
    | true =>
      simp only [h a hp, Bool.true_or, if_true, Bool.false_eq_true, if_false]
      omega
    | false =>
      simp only [Bool.false_or, Bool.false_eq_true, if_false]
      omega

theorem countP_remove : (fates source wanted root).countP (fun m => m.2 == .remove) =
    (Member.all root).countP Member.isPrivateField +
      (Member.all root).countP fun m => m.isUnwanted source wanted && !m.isPublic := by
  rw [fates_eq, List.countP_map, ← countP_or fun m hfield => ?_]
  · refine List.countP_congr fun m _ => ?_
    show (m.fate source wanted == .remove) = true ↔ m.isRemoved source wanted = true
    rw [beq_iff_eq, Member.fate_eq_remove_iff]
  · have hkind : m.node.kind = .fieldDeclaration := by
      simpa using (Bool.and_eq_true_iff.1 hfield).1
    simp [Member.isUnwanted, hkind]

theorem countP_stub : (fates source wanted root).countP (fun m => m.2 == .stub) =
    (Member.all root).countP (Member.isStubbed source wanted) := by
  rw [fates_eq, List.countP_map]
  refine List.countP_congr fun m _ => ?_
  show (m.fate source wanted == .stub) = true ↔ m.isStubbed source wanted = true
  rw [beq_iff_eq, Member.fate_eq_stub_iff]

/-- The signatures of the methods among the members. -/
theorem mem_declaredSignatures {signature : String} :
    (signature ∈ root.declarations.flatMap fun d => d.decl.methods.filterMap (Tree.signature? source)) ↔
      ∃ m ∈ Member.all root, m.node.kind = .methodDeclaration ∧
        m.node.signature? source = some signature := by
  simp only [Member.all, Tree.methods, List.mem_flatMap, List.mem_filterMap, List.mem_filter,
    List.mem_map, beq_iff_eq]
  constructor
  · rintro ⟨d, hd, m, ⟨hm, hkind⟩, hsignature⟩
    exact ⟨⟨d.decl, m⟩, ⟨d, hd, m, hm, rfl⟩, hkind, hsignature⟩
  · rintro ⟨_, ⟨d, hd, m, hm, rfl⟩, hkind, hsignature⟩
    exact ⟨d, hd, m, ⟨hm, hkind⟩, hsignature⟩

theorem kept?_eq_some {t : Tree} {f : Fate} {signature : String} :
    kept? (t, f) = some signature ↔ f = .keep signature := by
  cases f <;> simp [kept?]

/-- The signatures kept are the wanted ones that a method has. -/
theorem kept_eq : Names.ofList ((fates source wanted root).filterMap kept?) =
    wanted.filter fun s _ => (root.declarations.flatMap fun d =>
      d.decl.methods.filterMap (Tree.signature? source)).contains s := by
  refine Names.ext_contains fun signature => ?_
  rw [Names.contains_ofList, Names.contains_filter, List.contains_iff_mem, mem_declaredSignatures,
    fates_eq, List.filterMap_map, List.mem_filterMap]
  simp only [Function.comp_apply, kept?_eq_some, Member.fate_eq_keep_iff]
  constructor
  · rintro ⟨m, hm, hkind, hsignature, hwanted⟩
    exact ⟨hwanted, m, hm, hkind, hsignature⟩
  · rintro ⟨hwanted, m, hm, hkind, hsignature⟩
    exact ⟨m, hm, hkind, hsignature, hwanted⟩

/-- A member that is neither removed nor reduced to a stub stays except for the edits inside of it. -/
theorem slice_member (h : LaidOut source root) {m : Member} (hm : m ∈ Member.all root)
    (hremoved : m.isRemoved source wanted = false) (hstubbed : m.isStubbed source wanted = false) :
    Tree.slice (Edit.splice source (edits source wanted root))
      (Edit.place source (edits source wanted root) m.node.start)
      (Edit.place source (edits source wanted root) m.node.stop) =
    Edit.substituted source ((edits source wanted root).filter fun e =>
      m.node.start < e.start && e.stop < m.node.stop) m.node.start m.node.stop := by
  have hindependent : Edit.Independent source (edits source wanted root) := independent_edits h
  have hfirm := firm_of_mem_all h hm
  rw [hindependent.slice_splice (Nat.le_of_lt hfirm.nonempty) hfirm.inside,
    hindependent.substituted_filter fun e he => ?_]
  rcases edit_apart h hm hremoved hstubbed he with hbefore | hbehind | ⟨-, hstart, hstop⟩
  · exact .inr (.inl hbefore)
  · exact .inr (.inr hbehind)
  · exact .inl (by simp [hstart, hstop])

/-- A member that is no class and neither removed nor reduced to a stub stays as it is. -/
theorem slice_member_of_not_isClassLike (h : LaidOut source root) {m : Member}
    (hm : m ∈ Member.all root) (hremoved : m.isRemoved source wanted = false)
    (hstubbed : m.isStubbed source wanted = false) (hclass : m.node.isClassLike = false) :
    Tree.slice (Edit.splice source (edits source wanted root))
      (Edit.place source (edits source wanted root) m.node.start)
      (Edit.place source (edits source wanted root) m.node.stop) = m.node.chars source := by
  have hindependent : Edit.Independent source (edits source wanted root) := independent_edits h
  have hfirm := firm_of_mem_all h hm
  rw [hindependent.slice_splice (Nat.le_of_lt hfirm.nonempty) hfirm.inside,
    Edit.substituted_of_clear fun e he => ?_]
  · rfl
  · rcases edit_apart h hm hremoved hstubbed he with hbefore | hbehind | ⟨hclass', -⟩
    · exact .inl hbefore
    · exact .inr hbehind
    · cases hclass.symm.trans hclass'

/-- A class with a comment behind a private field, a nested class and methods. -/
def account : List Char :=
  ("class Account \x7b\n  private int cents; // all\n  private int last;\n\n" ++
    "  class Log \x7b\n    private int n;\n    public int size() \x7b return n; \x7d\n  \x7d\n\n" ++
    "  public int cents() \x7b return cents; \x7d\n  void reset() \x7b cents = 0; \x7d\n\x7d\n").toList

end Prune

end Testwright.Java
