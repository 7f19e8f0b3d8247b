import Testwright.Proofs.Java.Reducing

/-!
# Pruning once more

A text of declarations is pruned if no header that loses its body ends in a line comment (`prune?_isSome`). What is
left has no member that pruning removes or takes the body of, since nothing more is pruned of the profiles that
pruning leaves (`Profile.of_pruned?`): the methods with a body are the wanted ones, and pruning once more changes
nothing (`prune?_prune?`).
-/

namespace Testwright.Java

open Grammar Token Tree

namespace Profile

variable {wanted : Names} {p : Profile}

/-- The signature of a method with a body, and the text of the body. -/
def implementation? (p : Profile) : Option (Option String × List Char) :=
  if p.kind = .methodDeclaration then p.body.map (Prod.mk p.signature) else none

/-- Pruning leaves the methods of a wanted signature as they are. -/
theorem pruned?_of_wanted {s : String} (hkind : p.kind = .methodDeclaration) (hs : p.signature = some s)
    (hwanted : wanted.contains s = true) : p.pruned? wanted = some p := by
  simp [pruned?, isRemoved, isStubbed, isUnwanted, hkind, hs, hwanted]

/-- What pruning leaves of a method has a body if the method is wanted and had one. -/
theorem implementation?_pruned? (h : p.kind = .methodDeclaration → p.signature.isSome = true) :
    (p.pruned? wanted).bind implementation? = p.implementation?.filter fun b => b.1.any wanted.contains := by
  by_cases hkind : p.kind = .methodDeclaration
  · obtain ⟨s, hs⟩ := Option.isSome_iff_exists.1 (h hkind)
    cases hwanted : wanted.contains s with
    | true =>
      rw [pruned?_of_wanted hkind hs hwanted, Option.bind_some]
      cases hbody : p.body <;> simp [implementation?, hkind, hs, hwanted, hbody, Option.filter]
    | false =>
      -- it is removed, or it has no body any more
      cases hpublic : p.isPublic <;> cases hbody : p.body <;>
        simp [pruned?, isRemoved, isStubbed, isUnwanted, implementation?, hkind, hs, hwanted, hpublic, hbody,
          Option.filter]
  · have hunwanted : p.isUnwanted wanted = false := by simp [isUnwanted, hkind]
    have hstubbed : p.isStubbed wanted = false := by simp [isStubbed, hunwanted]
    cases hremoved : p.isRemoved wanted <;> simp [pruned?, hremoved, hstubbed, implementation?, hkind]

theorem signature_of_pruned? {p' : Profile} (h : p.pruned? wanted = some p') :
    p'.kind = p.kind ∧ p'.signature = p.signature := by
  unfold pruned? at h
  split at h
  · cases h
  · split at h <;>
    · cases h
      exact ⟨rfl, rfl⟩

end Profile

namespace Prune

variable {source : List Char} {wanted : Names} {root root' : Tree} {p : Pruned}

/-- The methods of a text that have a body: their signatures and the texts of their bodies. -/
def bodies (source : List Char) (root : Tree) : List (Option String × List Char) :=
  (Member.all root).filterMap fun m =>
    if m.node.kind = .methodDeclaration then
      (m.node.child? .body).map fun body => (m.node.signature? source, body.chars source)
    else none

theorem bodies_eq (source : List Char) (root : Tree) :
    bodies source root = (profiles source root).filterMap Profile.implementation? := by
  rw [bodies, profiles, List.filterMap_filterMap]
  refine List.filterMap_congr fun m _ => ?_
  cases hp : m.profile? source with
  | none =>
    have hkind : m.node.kind ≠ .methodDeclaration := fun hkind => by
      simp [Member.profile?, Tree.profile?, hkind] at hp
    rw [if_neg hkind]
    rfl
  | some p =>
    obtain ⟨-, rfl⟩ := Tree.profile?_eq_some hp
    simp [Profile.implementation?, Function.comp_def]

theorem exists_signature (h : parse? source = some root) {q : Profile} (hq : q ∈ profiles source root)
    (hkind : q.kind = .methodDeclaration) : q.signature.isSome = true := by
  obtain ⟨m, hm, hq⟩ := List.mem_filterMap.1 hq
  obtain ⟨-, rfl⟩ := Tree.profile?_eq_some hq
  obtain ⟨d, hd, -, hnode⟩ := Member.mem_all.1 hm
  obtain ⟨o⟩ := exists_opening h hd hnode hkind
  obtain ⟨x, hx, hname⟩ := o.stub.named
  have hsome : (m.node.child? .name).isSome = true := by
    have hname_ne : Field.name ≠ .body := nofun
    rw [o.child?_eq hname_ne, Option.isSome_map, List.find?_isSome]
    exact ⟨x, hx, by simp [hname]⟩
  rw [Tree.signature?, Option.isSome_map, hsome]

/-- The signatures that pruning keeps are those of wanted methods. -/
theorem contains_kept {s : String} : (Names.ofList ((fates source wanted root).filterMap kept?)).contains s = true ↔
    wanted.contains s = true ∧ ∃ q ∈ profiles source root, q.kind = .methodDeclaration ∧ q.signature = some s := by
  rw [Names.contains_ofList, fates_eq, List.filterMap_map, List.mem_filterMap]
  simp only [Function.comp_apply, kept?_eq_some, Member.fate_eq_keep_iff]
  constructor
  · rintro ⟨m, hm, hkind, hsignature, hwanted⟩
    exact ⟨hwanted, _, List.mem_filterMap.2 ⟨m, hm, if_pos (.inr hkind)⟩, hkind, hsignature⟩
  · rintro ⟨hwanted, q, hq, hkind, hsignature⟩
    obtain ⟨m, hm, hq⟩ := List.mem_filterMap.1 hq
    obtain ⟨-, rfl⟩ := Tree.profile?_eq_some hq
    exact ⟨m, hm, hkind, hsignature, hwanted⟩

section
variable {source' : List Char} (h : profiles source' root' = (profiles source root).filterMap (Profile.pruned? wanted))
include h

theorem bodies_of_profiles (hparse : parse? source = some root) :
    bodies source' root' = (bodies source root).filter fun b => b.1.any wanted.contains := by
  rw [bodies_eq, bodies_eq, h, List.filterMap_filterMap, List.filter_filterMap]
  exact List.filterMap_congr fun q hq => Profile.implementation?_pruned? (exists_signature hparse hq)

/-- Nothing is pruned of a text with the profiles that pruning leaves. -/
theorem fate_of_profiles {m : Member} (hm : m ∈ Member.all root') :
    m.isRemoved source' wanted = false ∧ m.isStubbed source' wanted = false := by
  have hpruned (hkind : m.node.kind = .fieldDeclaration ∨ m.node.kind = .methodDeclaration) : ∃ q,
      m.profile? source' = some q ∧ q.isRemoved wanted = false ∧ q.isStubbed wanted = false := by
    have hq : m.profile? source' = some _ := if_pos hkind
    have hmem : _ ∈ profiles source' root' := List.mem_filterMap.2 ⟨m, hm, hq⟩
    rw [h] at hmem
    obtain ⟨q, -, hpruned⟩ := List.mem_filterMap.1 hmem
    exact ⟨_, hq, Profile.of_pruned? hpruned⟩
  constructor
  · refine Bool.eq_false_iff.2 fun hremoved => ?_
    obtain ⟨q, hq, hnot, -⟩ := hpruned (Member.kind_of_isRemoved hremoved)
    cases ((Member.isRemoved_of_profile? hq).symm.trans hremoved).symm.trans hnot
  · refine Bool.eq_false_iff.2 fun hstubbed => ?_
    obtain ⟨q, hq, -, hnot⟩ := hpruned (.inr (Member.kind_of_isStubbed hstubbed))
    cases ((Member.isStubbed_of_profile? hq).symm.trans hstubbed).symm.trans hnot

theorem out_of_profiles : out source' wanted root' = source' := by
  have hnil : edits source' wanted root' = [] := by
    rw [edits_eq, List.filterMap_eq_nil_iff]
    intro m hm
    obtain ⟨hremoved, hstubbed⟩ := fate_of_profiles h hm
    exact Member.edit?_eq_none hremoved hstubbed
  rw [out, hnil, Edit.splice, List.mergeSort_nil]
  rfl

theorem kept_of_profiles : Names.ofList ((fates source' wanted root').filterMap kept?) =
    Names.ofList ((fates source wanted root).filterMap kept?) := by
  refine Names.ext_contains fun s => ?_
  rw [contains_kept, contains_kept, h]
  refine and_congr_right fun hwanted => ⟨?_, ?_⟩
  · rintro ⟨q, hq, hkind, hs⟩
    obtain ⟨q, hq, hpruned⟩ := List.mem_filterMap.1 hq
    obtain ⟨hkind', hs'⟩ := Profile.signature_of_pruned? hpruned
    exact ⟨q, hq, hkind'.symm.trans hkind, hs'.symm.trans hs⟩
  · rintro ⟨q, hq, hkind, hs⟩
    exact ⟨q, List.mem_filterMap.2 ⟨q, hq, Profile.pruned?_of_wanted hkind hs hwanted⟩, hkind, hs⟩

theorem countP_of_profiles {f : Fate} (hf : f = .remove ∨ f = .stub) :
    (fates source' wanted root').countP (fun m => m.2 == f) = 0 := by
  rw [fates_eq, List.countP_map, List.countP_eq_zero]
  intro m hm heq
  obtain ⟨hremoved, hstubbed⟩ := fate_of_profiles h hm
  rw [Function.comp_apply, beq_iff_eq] at heq
  rcases hf with rfl | rfl
  · cases hremoved.symm.trans (Member.fate_eq_remove_iff.1 heq)
  · cases hstubbed.symm.trans (Member.fate_eq_stub_iff.1 heq)

end

theorem prune?_eq (h : parse? source = some root) : prune? source wanted =
    if (parse? (out source (normalizeSignatures wanted) root)).isSome then
      some ⟨out source (normalizeSignatures wanted) root,
        .ofList ((fates source (normalizeSignatures wanted) root).filterMap kept?),
        (fates source (normalizeSignatures wanted) root).countP fun m => m.2 == .stub,
        (fates source (normalizeSignatures wanted) root).countP fun m => m.2 == .remove⟩
    else none := by
  rw [prune?, h]
  rfl

section
variable (h : parse? source = some root) (hunit : root.isUnit = true)
  (hclosed : ∀ m ∈ Member.all root, m.isStubbed source (normalizeSignatures wanted) = true →
    m.node.hasOpenBrief source = false)
include h hunit hclosed

theorem exists_out : ∃ root', parse? (out source (normalizeSignatures wanted) root) = some root' ∧
    profiles (out source (normalizeSignatures wanted) root) root' =
      (profiles source root).filterMap (Profile.pruned? (normalizeSignatures wanted)) := by
  obtain ⟨all, -, htokens, -, -⟩ := parse?_eval h
  exact Prunable.exists_result ⟨h, htokens, hclosed⟩ hunit

/-- A text of declarations can be pruned if no header that loses its body ends in a line comment. -/
theorem prune?_isSome : (prune? source wanted).isSome = true := by
  obtain ⟨root', hroot', -⟩ := exists_out h hunit hclosed
  rw [prune?_eq h, hroot']
  rfl

end

/-- An interface and an enumeration whose members share lines with comments. -/
def ledger : List Char :=
  ("package book; // all\ninterface Log \x7b int size(); default void clear() /* now */ \x7b x(); \x7d \x7d\n" ++
    "enum Unit \x7b A, B; private int n; /* n */ public int rate() \x7b return n; \x7d\n" ++
    "  int twice() \x7b return 2 * n; \x7d \x7d\n").toList

theorem exists_ledger : ∃ root, parse? ledger = some root ∧ root.isUnit = true ∧
    ∀ m ∈ Member.all root, m.isStubbed ledger (normalizeSignatures (.ofList ["twice()"])) = true →
      m.node.hasOpenBrief ledger = false := by
  have hledger : ledger = _ := Text.toList_append_literal
    (Text.toList_append_literal (Text.toList_literal rfl) (Text.toList_literal rfl)) (Text.toList_literal rfl)
  have hfits : ((parse? ledger).any fun root => root.isUnit && (Member.all root).all fun m =>
      !m.isStubbed ledger (normalizeSignatures (.ofList ["twice()"])) || !m.node.hasOpenBrief ledger) = true := by
    rw [hledger]
    decide +kernel
  obtain ⟨root, hroot, hfits⟩ := (Option.any_eq_true ..).1 hfits
  obtain ⟨hunit, hclosed⟩ := Bool.and_eq_true_iff.1 hfits
  refine ⟨root, hroot, hunit, fun m hm hstubbed => ?_⟩
  simpa [hstubbed] using List.all_eq_true.1 hclosed m hm

theorem prune?_isSome_ledger : ∃ root, parse? ledger = some root ∧ root.isUnit = true ∧
    (∀ m ∈ Member.all root, m.isStubbed ledger (normalizeSignatures (.ofList ["twice()"])) = true →
      m.node.hasOpenBrief ledger = false) ∧ (prune? ledger (.ofList ["twice()"])).isSome = true := by
  obtain ⟨root, hroot, hunit, hclosed⟩ := exists_ledger
  exact ⟨root, hroot, hunit, hclosed, prune?_isSome hroot hunit hclosed⟩

/-- A comment stands between the header of a public method and its body. -/
def remark : List Char :=
  "class A \x7b\n    public void f() // c\n    \x7b \x7d\n\x7d\n".toList

/-- The semicolon in place of the body becomes a part of the comment, and the method has no end. -/
theorem prune?_remark : (parse? remark).isSome = true ∧ prune? remark ∅ = none := by
  have hremark : remark = _ := Text.toList_literal rfl
  rw [hremark]
  decide +kernel

/-- The methods with a body in the result are the wanted ones that had one in the text, and pruning the result once
more changes nothing, under the same condition. -/
theorem prune?_prune? (h : parse? source = some root) (hunit : root.isUnit = true)
    (hclosed : ∀ m ∈ Member.all root, m.isStubbed source (normalizeSignatures wanted) = true →
      m.node.hasOpenBrief source = false) (hp : prune? source wanted = some p) :
    (∃ root', parse? p.source = some root' ∧ bodies p.source root' =
        (bodies source root).filter fun b => b.1.any (normalizeSignatures wanted).contains) ∧
      prune? p.source wanted = some { p with stubbed := 0, removed := 0 } := by
  obtain ⟨root', hroot', hprofiles⟩ := exists_out h hunit hclosed
  rw [prune?_eq h, hroot', Option.isSome_some, if_pos rfl] at hp
  cases hp
  refine ⟨⟨root', hroot', bodies_of_profiles hprofiles h⟩, ?_⟩
  rw [prune?_eq hroot', out_of_profiles hprofiles, kept_of_profiles hprofiles,
    countP_of_profiles hprofiles (.inr rfl), countP_of_profiles hprofiles (.inl rfl), hroot']
  rfl

theorem prune?_prune?_ledger : ∃ root p, parse? ledger = some root ∧ root.isUnit = true ∧
    (∀ m ∈ Member.all root, m.isStubbed ledger (normalizeSignatures (.ofList ["twice()"])) = true →
      m.node.hasOpenBrief ledger = false) ∧ prune? ledger (.ofList ["twice()"]) = some p ∧
    (∃ root', parse? p.source = some root' ∧ bodies p.source root' = (bodies ledger root).filter fun b =>
      b.1.any (normalizeSignatures (.ofList ["twice()"])).contains) ∧
    prune? p.source (.ofList ["twice()"]) = some { p with stubbed := 0, removed := 0 } := by
  obtain ⟨root, hroot, hunit, hclosed⟩ := exists_ledger
  obtain ⟨root', hroot', -⟩ := exists_out hroot hunit hclosed
  have hsome : (prune? ledger (.ofList ["twice()"])).isSome = true := by
    rw [prune?_eq hroot, hroot']
    rfl
  obtain ⟨p, hp⟩ := Option.isSome_iff_exists.1 hsome
  exact ⟨root, p, hroot, hunit, hclosed, hp, prune?_prune? hroot hunit hclosed hp⟩

/-- An initializer stands behind such a method. -/
def adoption : List Char :=
  "class A \x7b\n    public void f() // c\n    \x7b \x7d\n    \x7b x(); \x7d\n\x7d\n".toList

def adopted : List Char :=
  "class A \x7b\n    public void f() // c;\n    \x7b x(); \x7d\n\x7d\n".toList

/-- The initializer becomes the body of the method, which pruning takes the next time. -/
theorem prune?_adoption : ∃ pruned, prune? adoption ∅ = some pruned ∧ pruned.source = adopted ∧
    ((parse? adopted).map fun root => (Member.all root).map fun m =>
      (m.isUnwanted adopted ∅, (m.node.child? .body).isSome)) = some [(true, true)] ∧
    prune? pruned.source ∅ = none := by
  have hadoption : adoption = _ := Text.toList_literal rfl
  have hsome : (prune? adoption ∅).isSome = true := by
    rw [hadoption]
    decide +kernel
  obtain ⟨pruned, hpruned⟩ := Option.isSome_iff_exists.1 hsome
  have hsource : (prune? adoption ∅).map Pruned.source = some adopted := by
    rw [hadoption]
    decide +kernel
  rw [hpruned] at hsource
  have hadopted : pruned.source = adopted := Option.some.inj hsource
  refine ⟨pruned, hpruned, hadopted, by decide +kernel, ?_⟩
  rw [hadopted]
  decide +kernel

end Prune

end Testwright.Java
