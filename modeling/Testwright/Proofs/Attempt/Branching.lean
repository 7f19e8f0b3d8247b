import Mathlib.Data.Set.Card
import Testwright.Attempt.Gate
import Testwright.Proofs.Text.Cutting

/-!
# What counts as branching

The profile of a method body counts nodes of certain kinds by walking down from the body, without going
into lambdas, class bodies and declarations. `encard_openPaths` relates the walk to the paths in the tree:
a node counts once if the path to it passes through nothing of that sort, and otherwise not at all. So what
is inside of such nodes has no part in the decision of the gate (`profile_account`).
-/

namespace Testwright

namespace Java

namespace Tree

variable {t u c : Tree} {cs : List Tree} {i : Nat} {path : List Nat}

/-! ## Paths -/

/-- The kinds of nodes that hold other code: lambdas, class bodies, and declarations of classes, records,
enumerations, interfaces and methods. -/
def closedKinds : List Kind :=
  [.lambdaExpression, .classBody, .classDeclaration, .recordDeclaration, .enumDeclaration,
    .interfaceDeclaration, .methodDeclaration]

/-- The node at the end of a path; each step of a path is the number of a child. -/
def nodeAt? (t : Tree) : List Nat → Option Tree
  | [] => some t
  | i :: path => t.children[i]?.bind fun c => c.nodeAt? path

/-- The paths to nodes with a property that pass through no node of a closed kind, both ends included. -/
def openPaths (body : Tree) (p : Tree → Prop) : Set (List Nat) :=
  {path | (∃ t, body.nodeAt? path = some t ∧ p t) ∧
    ∀ front, front <+: path → ∀ t, body.nodeAt? front = some t → t.kind ∉ closedKinds}

variable {p : Tree → Prop}

theorem isForeign_iff : t.isForeign = true ↔ t.kind ∈ closedKinds := by
  unfold isForeign
  split <;> simp_all [closedKinds]

theorem nil_mem_openPaths : [] ∈ t.openPaths p ↔ p t ∧ t.kind ∉ closedKinds := by
  simp [openPaths, nodeAt?]

theorem cons_mem_openPaths : i :: path ∈ t.openPaths p ↔
    t.kind ∉ closedKinds ∧ ∃ c, t.children[i]? = some c ∧ path ∈ c.openPaths p := by
  constructor
  · rintro ⟨⟨u, hu, hp⟩, hopen⟩
    obtain ⟨c, hc, hu⟩ := Option.bind_eq_some_iff.1 hu
    refine ⟨hopen [] List.nil_prefix t rfl, c, hc, ⟨u, hu, hp⟩, fun front hfront v hv => ?_⟩
    exact hopen (i :: front) (List.cons_prefix_cons.2 ⟨rfl, hfront⟩) v (by rw [nodeAt?, hc]; exact hv)
  · rintro ⟨hkind, c, hc, ⟨u, hu, hp⟩, hopen⟩
    refine ⟨⟨u, by rw [nodeAt?, hc]; exact hu, hp⟩, fun front hfront v hv => ?_⟩
    cases front with
    | nil =>
      cases hv
      exact hkind
    | cons j front =>
      obtain ⟨rfl, hbelow⟩ := List.cons_prefix_cons.1 hfront
      rw [nodeAt?, hc] at hv
      exact hopen front hbelow v hv

/-- The paths that go on from one of some siblings. -/
def openPathsAmong (cs : List Tree) (p : Tree → Prop) : Set (List Nat) :=
  {path | ∃ i c rest, path = i :: rest ∧ cs[i]? = some c ∧ rest ∈ c.openPaths p}

/-- The path that begins at the next sibling. -/
def later : List Nat → List Nat
  | [] => []
  | i :: path => (i + 1) :: path

theorem later_injective : Function.Injective later := by
  intro path path' h
  cases path <;> cases path' <;> simp_all [later]

theorem openPaths_of_closed (h : t.kind ∈ closedKinds) : t.openPaths p = ∅ := by
  refine Set.eq_empty_of_forall_notMem fun path hpath => ?_
  exact hpath.2 [] List.nil_prefix t rfl h

theorem openPaths_of_open (h : t.kind ∉ closedKinds) :
    t.openPaths p = {path | path = [] ∧ p t} ∪ openPathsAmong t.children p := by
  ext path
  cases path with
  | nil => simp [nil_mem_openPaths, h, openPathsAmong]
  | cons i path => simp [cons_mem_openPaths, h, openPathsAmong]

theorem openPathsAmong_nil : openPathsAmong [] p = ∅ := by
  simp [openPathsAmong]

theorem openPathsAmong_cons : openPathsAmong (c :: cs) p =
    (0 :: ·) '' c.openPaths p ∪ later '' openPathsAmong cs p := by
  ext path
  constructor
  · rintro ⟨i, d, rest, rfl, hd, hrest⟩
    cases i with
    | zero =>
      cases hd
      exact .inl ⟨rest, hrest, rfl⟩
    | succ i => exact .inr ⟨i :: rest, ⟨i, d, rest, rfl, hd, hrest⟩, rfl⟩
  · rintro (⟨rest, hrest, rfl⟩ | ⟨_, ⟨i, d, rest, rfl, hd, hrest⟩, rfl⟩)
    · exact ⟨0, c, rest, rfl, rfl, hrest⟩
    · exact ⟨i + 1, d, rest, rfl, hd, hrest⟩

theorem not_mem_later : ∀ path ∈ (0 :: ·) '' c.openPaths p, path ∉ later '' openPathsAmong cs p := by
  rintro _ ⟨rest, -, rfl⟩ ⟨_, ⟨i, d, rest', rfl, -, -⟩, h⟩
  cases h

/-! ## Counting -/

section
variable (q : Tree → Bool)

mutual

/-- The walk finds as many nodes with a property as there are paths to them. -/
theorem encard_openPaths : ∀ t : Tree,
    (t.openPaths fun u => q u = true).encard = (t.collect isForeign q).length
  | .node k f s e cs => by
    by_cases hclosed : (Tree.node k f s e cs).kind ∈ closedKinds
    · have hforeign : isForeign (.node k f s e cs) = true := isForeign_iff.2 hclosed
      rw [openPaths_of_closed hclosed, collect, if_pos hforeign]
      simp
    · have hforeign : isForeign (.node k f s e cs) ≠ true := mt isForeign_iff.1 hclosed
      have hbelow := encard_openPathsAmong cs
      have hdisjoint : Disjoint {path : List Nat | path = [] ∧ q (.node k f s e cs) = true}
          (openPathsAmong cs fun u => q u = true) := by
        rw [Set.disjoint_left]
        rintro _ ⟨rfl, -⟩ ⟨i, c, rest, h, -⟩
        cases h
      rw [openPaths_of_open hclosed, children, Set.encard_union_eq hdisjoint, hbelow, collect,
        if_neg hforeign]
      split
      · next hq =>
        rw [List.length_cons, Nat.cast_add, add_comm]
        simp [hq]
      · next hq => simp [hq]

theorem encard_openPathsAmong : ∀ cs : List Tree,
    (openPathsAmong cs fun u => q u = true).encard = (collectAll isForeign q cs).length
  | [] => by
    rw [openPathsAmong_nil, collectAll]
    simp
  | c :: cs => by
    have hdisjoint : Disjoint ((0 :: ·) '' c.openPaths fun u => q u = true)
        (later '' openPathsAmong cs fun u => q u = true) := Set.disjoint_left.2 fun _ => not_mem_later _
    rw [openPathsAmong_cons, Set.encard_union_eq hdisjoint, later_injective.encard_image,
      (List.cons_injective).encard_image, encard_openPaths c, encard_openPathsAmong cs, collectAll,
      List.length_append, Nat.cast_add]

end

end

theorem openPaths_congr {p' : Tree → Prop} (h : ∀ u, p u ↔ p' u) : t.openPaths p = t.openPaths p' := by
  rw [funext fun u => propext (h u)]

theorem encard_openPaths_of_iff {q : Tree → Bool} (h : ∀ u, q u = true ↔ p u) :
    (t.openPaths p).encard = (t.ownNodes q).length := by
  rw [openPaths_congr fun u => (h u).symm, encard_openPaths, ownNodes]

/-- The operands of `&&` or `||`. -/
def Joins (t : Tree) : Prop :=
  t.kind = .binaryExpression ∧
    ∃ op, t.child? .operator = some op ∧ (op.kind = .token "&&" ∨ op.kind = .token "||")

/-- A profile numbers the paths from a body to the nodes that it counts. -/
structure Counts (body : Tree) (profile : DecisionProfile) : Prop where
  conditionals : (body.openPaths fun t => t.kind = .ifStatement).encard = profile.conditionals
  switchArms : (body.openPaths fun t =>
    t.kind = .switchBlockStatementGroup ∨ t.kind = .switchRule).encard = profile.switchArms
  loops : (body.openPaths fun t =>
    t.kind = .forStatement ∨ t.kind = .whileStatement ∨ t.kind = .doStatement).encard = profile.loops
  foreachLoops : (body.openPaths fun t => t.kind = .enhancedForStatement).encard = profile.foreachLoops
  shortCircuits : (body.openPaths Joins).encard = profile.shortCircuits
  ternaries : (body.openPaths fun t => t.kind = .ternaryExpression).encard = profile.ternaries

theorem isShortCircuit_iff : t.isShortCircuit = true ↔ t.Joins := by
  rw [isShortCircuit, Joins, Bool.and_eq_true, beq_iff_eq]
  refine and_congr_right fun _ => ?_
  cases t.child? .operator <;> simp

theorem counts_profile (body : Tree) : body.Counts body.profile where
  conditionals := encard_openPaths_of_iff fun t => beq_iff_eq
  switchArms := encard_openPaths_of_iff fun t => by simp
  loops := encard_openPaths_of_iff fun t => by simp [or_assoc]
  foreachLoops := encard_openPaths_of_iff fun t => beq_iff_eq
  shortCircuits := encard_openPaths_of_iff fun t => isShortCircuit_iff
  ternaries := encard_openPaths_of_iff fun t => beq_iff_eq

theorem Counts.eq {body : Tree} {profile profile' : DecisionProfile} (h : body.Counts profile)
    (h' : body.Counts profile') : profile = profile' := by
  have hconditionals := ENat.natCast_inj.1 (h.conditionals.symm.trans h'.conditionals)
  have hswitchArms := ENat.natCast_inj.1 (h.switchArms.symm.trans h'.switchArms)
  have hloops := ENat.natCast_inj.1 (h.loops.symm.trans h'.loops)
  have hforeachLoops := ENat.natCast_inj.1 (h.foreachLoops.symm.trans h'.foreachLoops)
  have hshortCircuits := ENat.natCast_inj.1 (h.shortCircuits.symm.trans h'.shortCircuits)
  have hternaries := ENat.natCast_inj.1 (h.ternaries.symm.trans h'.ternaries)
  cases profile
  cases profile'
  simp_all only

/-! ## Differences inside of closed nodes -/

/-- Two trees that differ at most inside of closed nodes, and in positions. -/
inductive AlikeOutside : Tree → Tree → Prop
  | closed {t u : Tree} (kind : t.kind = u.kind) (field : t.field = u.field)
    (closed : t.kind ∈ closedKinds) : AlikeOutside t u
  | node {t u : Tree} (kind : t.kind = u.kind) (field : t.field = u.field)
    (length : t.children.length = u.children.length)
    (children : ∀ (i : Nat) (c d : Tree), t.children[i]? = some c → u.children[i]? = some d → AlikeOutside c d) :
    AlikeOutside t u

/-- What is seen of a node without its children. -/
def label (t : Tree) : Kind × Option Field := (t.kind, t.field)

theorem child?_label (f : Field) :
    (t.child? f).map label = (t.children.map label).find? fun l => l.2 == some f := by
  rw [List.find?_map]
  rfl

namespace AlikeOutside

theorem kind_eq (h : t.AlikeOutside u) : t.kind = u.kind := by
  cases h <;> assumption

theorem field_eq (h : t.AlikeOutside u) : t.field = u.field := by
  cases h <;> assumption

theorem symm (h : t.AlikeOutside u) : u.AlikeOutside t := by
  induction h with
  | closed kind field closed => exact .closed kind.symm field.symm (kind ▸ closed)
  | node kind field length _ ih => exact .node kind.symm field.symm length.symm fun i c d hc hd => ih i d c hd hc

theorem exists_child (h : t.AlikeOutside u) (hopen : t.kind ∉ closedKinds) (hc : t.children[i]? = some c) :
    ∃ d, u.children[i]? = some d ∧ c.AlikeOutside d := by
  cases h with
  | closed _ _ closed => exact absurd closed hopen
  | node _ _ length children =>
    have hlt : i < u.children.length := length ▸ (List.getElem?_eq_some_iff.1 hc).1
    exact ⟨u.children[i], List.getElem?_eq_getElem hlt, children i _ _ hc (List.getElem?_eq_getElem hlt)⟩

theorem labels_eq (h : t.AlikeOutside u) (hopen : t.kind ∉ closedKinds) :
    t.children.map label = u.children.map label := by
  cases h with
  | closed _ _ closed => exact absurd closed hopen
  | node _ _ length children =>
    refine List.ext_getElem (by simpa using length) fun i hi hi' => ?_
    rw [List.length_map] at hi hi'
    have hchild := children i _ _ (List.getElem?_eq_getElem hi) (List.getElem?_eq_getElem hi')
    rw [List.getElem_map, List.getElem_map]
    exact Prod.ext hchild.kind_eq hchild.field_eq

theorem joins (h : t.AlikeOutside u) (ht : t.Joins) : u.Joins := by
  obtain ⟨hkind, op, hop, hsymbol⟩ := ht
  have hopen : t.kind ∉ closedKinds := by rw [hkind]; decide
  have hlabel : (u.child? .operator).map label = some (label op) := by
    rw [child?_label, ← h.labels_eq hopen, ← child?_label, hop]
    rfl
  obtain ⟨op', hop', hlabel⟩ := Option.map_eq_some_iff.1 hlabel
  have hsame : op'.kind = op.kind := congrArg Prod.fst hlabel
  exact ⟨h.kind_eq ▸ hkind, op', hop', hsame ▸ hsymbol⟩

theorem joins_iff (h : t.AlikeOutside u) : t.Joins ↔ u.Joins :=
  ⟨h.joins, h.symm.joins⟩

theorem openPaths_subset (h : t.AlikeOutside u) (hp : ∀ c d, c.AlikeOutside d → p c → p d) :
    t.openPaths p ⊆ u.openPaths p := by
  intro path hpath
  induction path generalizing t u with
  | nil =>
    rw [nil_mem_openPaths] at hpath ⊢
    exact ⟨hp t u h hpath.1, h.kind_eq ▸ hpath.2⟩
  | cons i path ih =>
    obtain ⟨hopen, c, hc, hrest⟩ := cons_mem_openPaths.1 hpath
    obtain ⟨d, hd, hcd⟩ := h.exists_child hopen hc
    exact cons_mem_openPaths.2 ⟨h.kind_eq ▸ hopen, d, hd, ih hcd hrest⟩

theorem openPaths_eq (h : t.AlikeOutside u) (hp : ∀ c d, c.AlikeOutside d → (p c ↔ p d)) :
    t.openPaths p = u.openPaths p :=
  (h.openPaths_subset fun c d hcd => (hp c d hcd).1).antisymm
    (h.symm.openPaths_subset fun c d hcd => (hp c d hcd).1)

theorem counts (h : t.AlikeOutside u) {profile : DecisionProfile} (hcounts : t.Counts profile) :
    u.Counts profile := by
  have hkind (K : Kind → Prop) : (t.openPaths fun v => K v.kind) = u.openPaths fun v => K v.kind :=
    h.openPaths_eq fun c d hcd => by rw [hcd.kind_eq]
  exact
    { conditionals := hkind (· = .ifStatement) ▸ hcounts.conditionals
      switchArms := hkind (fun k => k = .switchBlockStatementGroup ∨ k = .switchRule) ▸ hcounts.switchArms
      loops := hkind (fun k => k = .forStatement ∨ k = .whileStatement ∨ k = .doStatement) ▸ hcounts.loops
      foreachLoops := hkind (· = .enhancedForStatement) ▸ hcounts.foreachLoops
      shortCircuits := h.openPaths_eq (fun c d hcd => hcd.joins_iff) ▸ hcounts.shortCircuits
      ternaries := hkind (· = .ternaryExpression) ▸ hcounts.ternaries }

end AlikeOutside

mutual

/-- Whether two trees differ at most inside of closed nodes. -/
def isAlikeOutside : Tree → Tree → Bool
  | .node k f _ _ cs, .node k' f' _ _ ds =>
    k == k' && f == f' && (closedKinds.contains k || areAlikeOutside cs ds)

def areAlikeOutside : List Tree → List Tree → Bool
  | [], [] => true
  | c :: cs, d :: ds => isAlikeOutside c d && areAlikeOutside cs ds
  | _, _ => false

end

mutual

theorem alikeOutside_of_check : ∀ {t u : Tree}, isAlikeOutside t u = true → t.AlikeOutside u
  | .node k f s e cs, .node k' f' s' e' ds, h => by
    rw [isAlikeOutside, Bool.and_eq_true, Bool.and_eq_true, beq_iff_eq, beq_iff_eq, Bool.or_eq_true] at h
    obtain ⟨⟨hkind, hfield⟩, hclosed | hchildren⟩ := h
    · exact .closed hkind hfield (List.contains_iff_mem.1 hclosed)
    · obtain ⟨hlength, hall⟩ := alikeOutside_of_checks hchildren
      exact .node hkind hfield hlength hall

theorem alikeOutside_of_checks : ∀ {cs ds : List Tree}, areAlikeOutside cs ds = true →
    cs.length = ds.length ∧
      ∀ (i : Nat) (c d : Tree), cs[i]? = some c → ds[i]? = some d → c.AlikeOutside d
  | [], [], _ => ⟨rfl, nofun⟩
  | c :: cs, d :: ds, h => by
    rw [areAlikeOutside, Bool.and_eq_true] at h
    have hfirst := alikeOutside_of_check h.1
    obtain ⟨hlength, hall⟩ := alikeOutside_of_checks h.2
    refine ⟨congrArg (· + 1) hlength, fun i c' d' hc hd => ?_⟩
    cases i with
    | zero =>
      cases hc
      cases hd
      exact hfirst
    | succ i => exact hall i c' d' hc hd

end

end Tree

end Java

namespace GatePolicy

open Java (Tree)

/-- The body of the method that a source declares. -/
def bodyOf? (source : String) : Option Tree :=
  (Java.parse? ("class __Wrapper__ \x7b\n".toList ++ source.toList ++ "\n\x7d\n".toList)).bind
    Tree.firstBody?

theorem profile_of_body {source : String} {body : Tree} (h : bodyOf? source = some body) :
    profile source = body.profile := by
  obtain ⟨root, hroot, hbody⟩ := Option.bind_eq_some_iff.1 h
  rw [profile, Java.methodProfile?]
  simp only [hroot, Option.map_some, hbody, Option.getD_some]

/-- **Branching of a body.** Each part of a profile numbers the nodes of its kinds that are reached from
the body without passing through a lambda, a class body or a declaration. Methods whose bodies differ only
inside of such nodes have the same profile, score the same under every policy, and are admitted or refused
alike. -/
theorem profile_account :
    (∀ body : Tree, body.Counts body.profile) ∧
      ∀ body other : Tree, body.AlikeOutside other →
        body.profile = other.profile ∧
        body.profile.branchConstructs = other.profile.branchConstructs ∧
        body.profile.decisionPoints = other.profile.decisionPoints ∧
        ∀ (policy : GatePolicy) (d e : Dossier), bodyOf? d.methodSource = some body →
          bodyOf? e.methodSource = some other → d.activations = e.activations →
          profile d.methodSource = body.profile ∧
          policy.score d.methodSource = policy.score e.methodSource ∧ policy.judge d = policy.judge e := by
  refine ⟨Tree.counts_profile, fun body other h => ?_⟩
  have heq : body.profile = other.profile :=
    (h.counts body.counts_profile).eq other.counts_profile
  refine ⟨heq, congrArg _ heq, congrArg _ heq, fun policy d e hd he hactivations => ?_⟩
  have hscore : policy.score d.methodSource = policy.score e.methodSource := by
    rw [score, score, profile_of_body hd, profile_of_body he, heq]
  refine ⟨profile_of_body hd, hscore, ?_⟩
  rw [judge, judge, hscore, hactivations]

/-- Two methods that run different lambdas. -/
theorem profile_account_lambdas :
    let counting := "void run() \x7b go(() -> \x7b while (n > 1 && n < 9) n--; \x7d); if (n > 2) n = 2; \x7d"
    let waiting := "void run() \x7b go(() -> \x7b sleep(); \x7d); if (n > 2) n = 2; \x7d"
    let policy : GatePolicy := { measure := .decisionPoints, threshold := 1 }
    let d : Dossier := { methodSource := counting }
    let e : Dossier := { methodSource := waiting }
    ∃ body other, bodyOf? counting = some body ∧ bodyOf? waiting = some other ∧
      body.AlikeOutside other ∧ body.profile = other.profile ∧ body.profile.decisionPoints = 1 ∧
      policy.judge d = policy.judge e := by
  intro counting waiting policy d e
  have hcheck : ((bodyOf? counting).bind fun body => (bodyOf? waiting).map fun other =>
      body.isAlikeOutside other && body.profile.decisionPoints == 1) = some true := by
    have hopening : "class __Wrapper__ \x7b\n".toList = _ := Text.toList_literal rfl
    have hclosing : "\n\x7d\n".toList = _ := Text.toList_literal rfl
    have hcounting : counting.toList = _ := Text.toList_literal rfl
    have hwaiting : waiting.toList = _ := Text.toList_literal rfl
    rw [bodyOf?, bodyOf?, hopening, hclosing, hcounting, hwaiting]
    decide +kernel
  obtain ⟨body, hbody, hcheck⟩ := Option.bind_eq_some_iff.1 hcheck
  obtain ⟨other, hother, hcheck⟩ := Option.map_eq_some_iff.1 hcheck
  rw [Bool.and_eq_true, beq_iff_eq] at hcheck
  have halike := Tree.alikeOutside_of_check hcheck.1
  obtain ⟨hprofile, -, -, hgate⟩ := profile_account.2 body other halike
  exact ⟨body, other, hbody, hother, halike, hprofile, hcheck.2, (hgate policy d e hbody hother rfl).2.2⟩

end GatePolicy

end Testwright
