import Testwright.Proofs.Java.Stripping

/-!
# Children that every match has

`Rule.sure` checks that every match of a rule has a tree of some shape, `Rule.supplies` that every node a rule
makes has the children that its kind demands (`Kind.demands`). The grammar of Java supplies what is demanded of
the parameters of a method: a type and a name. So every node of a tree of the parser has these children, comments
put into it or not (`parse?_supplied`). And every node below the root has a text that begins with a visible
character (`parse?_begun`).
-/

namespace Testwright.Java

/-- The shape of a tree itself. -/
def Tree.shape (t : Tree) : Shape := ⟨some t.kind, t.field⟩

/-- The kinds of types. -/
def typeKinds : List Kind :=
  [.voidType, .integralType, .floatingType, .booleanType, .typeIdentifier, .scopedTypeIdentifier, .genericType,
    .arrayType]

/-- The shapes of which a node of a kind has a child each. -/
def Kind.demands : Kind → List (Shape → Bool)
  | .formalParameter => [fun s => s.part == some .type, fun s => s.part == some .name]
  | .spreadParameter =>
    [fun s => s.kind.any fun k => k ∈ typeKinds, fun s => s.kind == some .variableDeclarator]
  | .variableDeclarator => [fun s => s.part == some .name]
  | _ => []

/-- A node has the children that its kind demands. -/
def Tree.Supplied (t : Tree) : Prop := ∀ p ∈ t.kind.demands, ∃ c ∈ t.children, p c.shape = true

namespace Rule

variable {ν : Type} (known : ν → List Shape)

/-- Whether every match of a rule has a tree of a shape; of a variable with known shapes, every match has a tree
of one of them. -/
def sure (p : Shape → Bool) : Rule ν → Bool
  | .empty | .many _ | .ahead _ | .notAhead _ | .literal => false
  | .token pieces => p ⟨some (.token (String.join pieces)), none⟩
  | .leaf kind _ | .name kind _ | .node kind _ => p ⟨some kind, none⟩
  | .seq a b => sure p a || sure p b
  | .alt a b => sure p a && sure p b
  | .field part a => sure (fun s => p ⟨s.kind, some part⟩) a
  | .var v => !(known v).isEmpty && (known v).all p
  | .fold base steps => sure p base && steps.all fun | .mk _ kind _ _ => p ⟨some kind, none⟩

mutual

/-- Whether all nodes that a rule makes have the children that their kinds demand. -/
def supplies : Rule ν → Bool
  | .empty | .ahead _ | .notAhead _ | .token _ | .literal | .var _ => true
  | .leaf kind _ | .name kind _ => kind.demands.isEmpty
  | .seq a b | .alt a b => supplies a && supplies b
  | .many a | .field _ a => supplies a
  | .node kind a => (kind.demands.all fun p => sure known p a) && supplies a
  | .fold base steps => supplies base && suppliesSteps steps

def suppliesSteps : List (Step ν) → Bool
  | [] => true
  | .mk _ kind _ rule :: steps => kind.demands.isEmpty && supplies rule && suppliesSteps steps

end

def stepSupplies : Step ν → Bool
  | .mk _ kind _ rule => kind.demands.isEmpty && supplies known rule

theorem suppliesSteps_eq_all (steps : List (Step ν)) : suppliesSteps known steps = steps.all (stepSupplies known) := by
  induction steps with
  | nil => rfl
  | cons step steps ih =>
    obtain ⟨on, kind, left, rule⟩ := step
    rw [suppliesSteps, ih]
    rfl

variable {known} {grammar : ν → Rule ν}

/-- A match has a tree of every shape that its rule is sure to have. -/
theorem Matches.exists_of_sure (hknown : ∀ v, known v ≠ [] → (grammar v).sure known (known v).contains = true)
    {rule : Rule ν} {ts rest : List Token} {xs : List Tree} (h : Matches grammar rule ts xs rest) {p : Shape → Bool}
    (hsure : rule.sure known p = true) : ∃ x ∈ xs, p x.shape = true := by
  induction h generalizing p with
  | empty | manyNil | manyCons | ahead | notAhead | literal => cases hsure
  | token taken =>
    obtain ⟨-, start, stop, rfl⟩ := takeToken_eq_some taken
    exact ⟨_, List.mem_cons_self, hsure⟩
  | leaf | name | node => exact ⟨_, List.mem_cons_self, hsure⟩
  | seq front back ihFront ihBack =>
    rcases Bool.or_eq_true_iff.1 hsure with hsure | hsure
    · obtain ⟨x, hx, hp⟩ := ihFront hsure
      exact ⟨x, List.mem_append_left _ hx, hp⟩
    · obtain ⟨x, hx, hp⟩ := ihBack hsure
      exact ⟨x, List.mem_append_right _ hx, hp⟩
  | altLeft left ih => exact ih (Bool.and_eq_true_iff.1 hsure).1
  | altRight right ih => exact ih (Bool.and_eq_true_iff.1 hsure).2
  | field inner ih =>
    obtain ⟨x, hx, hp⟩ := ih hsure
    refine ⟨_, List.mem_map_of_mem hx, ?_⟩
    cases x
    exact hp
  | @var v ts rest xs inner ih =>
    obtain ⟨hne, hall⟩ := Bool.and_eq_true_iff.1 hsure
    obtain ⟨x, hx, hp⟩ := ih (hknown v (by simpa using hne))
    exact ⟨x, hx, List.all_eq_true.1 hall _ (List.contains_iff_mem.1 hp)⟩
  | base inner ih => exact ih (Bool.and_eq_true_iff.1 hsure).1
  | step sofar mem =>
    exact ⟨_, List.mem_cons_self, List.all_eq_true.1 (Bool.and_eq_true_iff.1 hsure).2 _ mem⟩

theorem supplied_of_isEmpty {k : Kind} {f : Option Field} {start stop : Nat} {cs : List Tree}
    (h : k.demands.isEmpty = true) : (Tree.node k f start stop cs).Supplied := by
  intro p hp
  rw [show (Tree.node k f start stop cs).kind = k from rfl, List.isEmpty_iff.1 h] at hp
  cases hp

theorem supplied_withField {part : Field} {t : Tree} (h : t.Forall Tree.Supplied) :
    (t.withField part).Forall Tree.Supplied := by
  obtain ⟨k, f, start, stop, cs⟩ := t
  exact .node h.self fun c hc => h.of_mem hc

/-- All nodes of a match have the children that their kinds demand. -/
theorem Matches.supplied (hknown : ∀ v, known v ≠ [] → (grammar v).sure known (known v).contains = true)
    (hsupplies : ∀ v, (grammar v).supplies known = true) {words : List Token}
    (hliteral : ∀ w ∈ words, ∀ kind, w.lexeme = .literal kind → kind.demands = []) {rule : Rule ν}
    {ts rest : List Token} {xs : List Tree} (h : Matches grammar rule ts xs rest)
    (hrule : rule.supplies known = true) (hts : ∀ w ∈ ts, w ∈ words) : ∀ x ∈ xs, x.Forall Tree.Supplied := by
  have behind {ts mid : List Token} (hts : ∀ w ∈ ts, w ∈ words) (h : mid <:+ ts) :
      ∀ w ∈ mid, w ∈ words := fun w hw => hts w (h.mem hw)
  have single {k : Kind} {t : Token} (hk : k.demands.isEmpty = true) :
      ∀ x ∈ [Tree.ofToken k t], x.Forall Tree.Supplied :=
    List.forall_mem_singleton.2 (.node (supplied_of_isEmpty hk) nofun)
  induction h with
  | empty | manyNil | ahead | notAhead => nofun
  | token taken =>
    obtain ⟨-, start, stop, rfl⟩ := takeToken_eq_some taken
    exact List.forall_mem_singleton.2 (.node (supplied_of_isEmpty rfl) nofun)
  | leaf => exact single hrule
  | name => exact single hrule
  | @literal kind t ts literal =>
    exact single (List.isEmpty_iff.2 (hliteral t (hts t List.mem_cons_self) kind literal))
  | seq front back ihFront ihBack =>
    simp only [supplies, Bool.and_eq_true] at hrule
    exact List.forall_mem_append.2 ⟨ihFront hrule.1 hts, ihBack hrule.2 (behind hts front.suffix)⟩
  | altLeft left ih =>
    simp only [supplies, Bool.and_eq_true] at hrule
    exact ih hrule.1 hts
  | altRight right ih =>
    simp only [supplies, Bool.and_eq_true] at hrule
    exact ih hrule.2 hts
  | manyCons first others ihFirst ihOthers =>
    exact List.forall_mem_append.2 ⟨ihFirst hrule hts, ihOthers hrule (behind hts first.suffix)⟩
  | node inner ih =>
    simp only [supplies, Bool.and_eq_true, List.all_eq_true] at hrule
    exact List.forall_mem_singleton.2
      (.node (fun p hp => inner.exists_of_sure hknown (hrule.1 p hp)) (ih hrule.2 hts))
  | field inner ih =>
    intro x hx
    obtain ⟨y, hy, rfl⟩ := List.mem_map.1 hx
    exact supplied_withField (ih hrule hts y hy)
  | @var v ts rest xs inner ih => exact ih (hsupplies v) hts
  | base inner ih =>
    simp only [supplies, Bool.and_eq_true] at hrule
    exact ih hrule.1 hts
  | @step a steps ts mid rest t on kind left rule xs sofar mem applies inner ihSofar ihInner =>
    have hfirst := ihSofar hrule hts t List.mem_cons_self
    simp only [supplies, Bool.and_eq_true] at hrule
    rw [suppliesSteps_eq_all] at hrule
    have hstep := List.all_eq_true.1 hrule.2 _ mem
    simp only [stepSupplies, Bool.and_eq_true] at hstep
    have hbehind := ihInner hstep.2 (behind hts sofar.suffix)
    refine List.forall_mem_singleton.2 (.node (supplied_of_isEmpty hstep.1) (List.forall_mem_cons.2 ⟨?_, hbehind⟩))
    cases left with
    | none => exact hfirst
    | some part => exact supplied_withField hfirst

end Rule

namespace Grammar

open Rule

/-- A tree that a match of a variable surely has is one of these. -/
def sureShapes : Variable → List Shape
  | .unannotatedType | .simpleType | .classType => typeKinds.map fun k => ⟨some k, none⟩
  | .declaratorId => [⟨some .identifier, some .name⟩]
  | .variableDeclarator => [⟨some .variableDeclarator, none⟩]
  | _ => []

theorem sure_sureShapes (v : Variable) (h : sureShapes v ≠ []) :
    (grammar v).sure sureShapes (sureShapes v).contains = true := by
  cases v <;> first
    | (exact absurd rfl h)
    | decide

theorem supplies_grammar (v : Variable) : (grammar v).supplies sureShapes = true := by
  cases v with
  | expression label min =>
    have hall : ∀ step ∈ operatorSteps label 0, stepSupplies sureShapes step = true := by
      cases label <;> decide
    refine Bool.and_eq_true_iff.2 ⟨rfl, ?_⟩
    rw [suppliesSteps_eq_all, List.all_eq_true]
    exact fun step hstep => hall step ((operatorSteps_sublist label min).subset hstep)
  | operand label => cases label <;> decide
  | _ => decide

end Grammar

/-! ## Trees of the parser -/

namespace Tree

variable {t c : Tree}

/-- A comment leaves every child of a node in place, possibly with the comment inside. -/
theorem exists_mem_insertAmong (c : Tree) {ts : List Tree} (h : t ∈ ts) :
    ∃ u ∈ insertAmong c ts, u.shape = t.shape := by
  induction ts with
  | nil => cases h
  | cons first ts ih =>
    unfold insertAmong
    split
    · rcases List.mem_cons.1 h with rfl | h
      · exact ⟨t, List.mem_cons_self, rfl⟩
      · obtain ⟨u, hu, hshape⟩ := ih h
        exact ⟨u, List.mem_cons_of_mem _ hu, hshape⟩
    · split
      · rcases List.mem_cons.1 h with rfl | h
        · exact ⟨_, List.mem_cons_self, by rw [shape, kind_insertInto, field_insertInto, shape]⟩
        · exact ⟨t, List.mem_cons_of_mem _ h, rfl⟩
      · exact ⟨t, List.mem_cons_of_mem _ h, rfl⟩

theorem Supplied.insertInto (h : t.Supplied) : (insertInto c t).Supplied := by
  intro p hp
  rw [kind_insertInto] at hp
  obtain ⟨u, hu, hpu⟩ := h p hp
  obtain ⟨v, hv, hshape⟩ := exists_mem_insertAmong c hu
  rw [children_insertInto]
  exact ⟨v, hv, hshape ▸ hpu⟩

end Tree

/-- All nodes of the tree of a text have the children that their kinds demand. -/
theorem parse?_supplied {source : List Char} {root : Tree} (h : parse? source = some root) :
    root.Forall Tree.Supplied := by
  obtain ⟨ts, start, stop, xs, htokens, hmatches, rfl⟩ := parse?_eq_some h
  have hliteral : ∀ w ∈ ts, ∀ kind, w.lexeme = .literal kind → kind.demands = [] := by
    intro w hw kind hlexeme
    have hkinds : ∀ kind ∈ literalKinds, kind.demands.isEmpty = true := by decide
    have hsuits := tokens?_suits htokens w hw
    rw [hlexeme] at hsuits
    exact List.isEmpty_iff.1 (hkinds kind hsuits)
  have hprogram := hmatches.supplied Grammar.sure_sureShapes Grammar.supplies_grammar hliteral rfl
    (fun w hw => (List.mem_filter.1 hw).1) _ List.mem_cons_self
  have hroot : (Tree.node .program none 0 source.length xs).Forall Tree.Supplied :=
    .node nofun fun c hc => hprogram.of_mem hc
  refine List.foldlRecOn _ _ hroot fun t ht c hc =>
    Tree.Forall.insertInto ht (fun u hu => hu.insertInto) ?_
  have hnote := Grammar.isNote_ofComment htokens (List.mem_filter.1 hc).1
  obtain ⟨kind, heq⟩ := ofComment_eq c
  rw [heq] at hnote ⊢
  have hkind : kind.demands.isEmpty = true := by
    have hcomment : kind.isComment = true := (Bool.and_eq_true_iff.1 hnote).1
    revert hcomment
    cases kind <;> first
      | exact fun _ => rfl
      | exact fun h => by cases h
  exact .node (Rule.supplied_of_isEmpty hkind) nofun

/-! ## Visible nodes -/

/-- The text of a node begins with a visible character. -/
structure Tree.Begun (source : List Char) (t : Tree) : Prop where
  nonempty : t.start < t.stop
  first : ∃ c, source[t.start]? = some c ∧ Token.Inked c

theorem Tree.Begun.squeezed_ne {source : List Char} {t : Tree} (h : t.Begun source) : t.squeezed source ≠ "" := by
  obtain ⟨c, hc, hinked⟩ := h.first
  have hmem : c ∈ t.chars source := by
    rw [chars, slice]
    have hpos := Nat.sub_pos_of_lt h.nonempty
    refine List.mem_of_getElem? (i := 0) ?_
    rw [List.getElem?_take_of_lt hpos, List.getElem?_drop, Nat.add_zero, hc]
  intro hempty
  have hnil := congrArg String.toList hempty
  rw [squeezed, String.toList_ofList] at hnil
  have hfilter := List.filter_eq_nil_iff.1 hnil c hmem
  exact hfilter (by rw [show Text.isBlank c = false from hinked]; rfl)

theorem parse?_begun {source : List Char} {root : Tree} (h : parse? source = some root) :
    ∀ t ∈ root.children, t.Forall (Tree.Begun source) := by
  obtain ⟨ts, xs, htokens, -, hbounded, -, -, rfl⟩ := parse?_matched h
  have hscanned := tokens?_scanned htokens
  refine List.foldlRecOn (motive := fun t : Tree => ∀ x ∈ t.children, x.Forall (Tree.Begun source)) _ _
    (fun x hx => (hbounded x hx).imp fun u hu => ?_) fun t ht c hc x hx => ?_
  · obtain ⟨a, ha, hstart⟩ := hu.start
    obtain ⟨c, hfirst, hinked⟩ := hscanned.inked (List.mem_filter.1 ha).1
    exact ⟨hu.nonempty, c, hstart ▸ hfirst, hinked⟩
  · have hmem := (List.mem_filter.1 hc).1
    obtain ⟨kind, heq⟩ := ofComment_eq c
    have hself : (Tree.ofToken kind c).Forall (Tree.Begun source) :=
      .node ⟨hscanned.nonempty hmem, hscanned.inked hmem⟩ nofun
    rw [heq, Tree.children_insertInto] at hx
    rcases Tree.mem_insertAmong_cases hx with rfl | hx | ⟨u, hu, -, -, rfl⟩
    · exact hself
    · exact ht x hx
    · refine (ht u hu).insertInto (fun v hv => ?_) hself
      exact ⟨by simpa using hv.nonempty, by simpa using hv.first⟩

end Testwright.Java
