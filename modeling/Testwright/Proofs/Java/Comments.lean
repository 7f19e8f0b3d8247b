import Testwright.Java.Index
import Testwright.Proofs.Data.Dict
import Testwright.Proofs.Java.Looks
import Testwright.Proofs.Java.Signatures

/-!
# Comments in a source

What the index notes of classes, methods and calls depends on the look of the tree only
(`outlines?_of_resembles`). So a comment between two tokens changes none of it unless it tears an operator
apart or a node minds it (`outlines?_remarked`). The arguments of a call do mind: a comment among them
counts as an argument (`outlines?_rateArgument`).
-/

namespace Testwright.Java

open Tree

namespace Index

variable {source source' : List Char} {t t' : Tree}

/-! ## Variables -/

theorem addDeclarators_alike (h : Resembles source source' t t') (types : Types) :
    addDeclarators source t types = addDeclarators source' t' types := by
  have htype := h.readChild? .type rfl
  unfold addDeclarators
  generalize t.child? .type = type, t'.child? .type = type' at htype
  cases htype with
  | none => rfl
  | some htype =>
    refine foldl_forall₂ (h.childrenAt .declarator) (fun types d d' hd => ?_) types
    have hname := hd.readChild? .name rfl
    have hvalue := hd.child? .value
    simp only [htype.squeezed, hd.squeezed_dimensions]
    generalize d.child? .name = name, d'.child? .name = name' at hname
    generalize d.child? .value = value, d'.child? .value = value' at hvalue
    cases hname with
    | none => rfl
    | some hname =>
      cases hvalue with
      | none => simp only [hname.text]
      | @some value value' hvalue =>
        have hcreated := hvalue.readChild? .type rfl
        simp only [hname.text, hvalue.kind]
        generalize value.child? .type = created, value'.child? .type = created' at hcreated
        cases hcreated with
        | none => rfl
        | some hcreated => simp only [hcreated.squeezed]

theorem addVariable_alike (h : Resembles source source' t t') (types : Types) :
    addVariable source t types = addVariable source' t' types := by
  have htype := h.readChild? .type rfl
  have hname := h.readChild? .name rfl
  unfold addVariable
  generalize t.child? .type = type, t'.child? .type = type' at htype
  generalize t.child? .name = name, t'.child? .name = name' at hname
  cases htype with
  | none => rfl
  | some htype =>
    cases hname with
    | none => rfl
    | some hname => simp only [htype.squeezed, hname.text]

theorem addParameter_alike (h : Resembles source source' t t') (types : Types) :
    addParameter source types t = addParameter source' types t' := by
  unfold addParameter
  rw [← h.kind]
  split
  · exact addVariable_alike h types
  · next hkind =>
    have htype := h.readSpreadType? hkind
    have hdeclarator := forall₂_find? (p := fun c => c.kind == .variableDeclarator)
      (q := fun c => c.kind == .variableDeclarator)
      (h.namedChildren_of_countsAll (by simp [countsAll, hkind])) fun u u' hu => by rw [hu.kind]
    dsimp only
    generalize t.spreadType? = type, t'.spreadType? = type' at htype
    generalize t.namedChildren.find? _ = d, t'.namedChildren.find? _ = d' at hdeclarator
    cases htype with
    | none => rfl
    | some htype =>
      cases hdeclarator with
      | none => rfl
      | @some d d' hd =>
        have hname := hd.readChild? .name rfl
        simp only [Option.bind_some]
        generalize d.child? .name = name, d'.child? .name = name' at hname
        cases hname with
        | none => rfl
        | some hname => simp only [htype.squeezed, hname.text]
  · rfl

theorem addLocal_alike (h : Resembles source source' t t') (types : Types) :
    addLocal source types t = addLocal source' types t' := by
  unfold addLocal
  rw [← h.kind]
  split
  · exact addDeclarators_alike h types
  · exact addVariable_alike h types
  · exact addVariable_alike h types
  · rfl

/-! ## Nodes of a kind -/

/-- The nodes of some kinds below a node are its own and those below its children. -/
theorem nodes_eq (p : Tree → Bool) (t : Tree) : t.nodes p =
    (if p t then [t] else []) ++ t.children.flatMap (Tree.nodes p) := by
  have hall (ts : List Tree) : collectAll (fun _ => false) p ts = ts.flatMap (Tree.nodes p) := by
    induction ts with
    | nil => rfl
    | cons t ts ih => rw [collectAll, ih, List.flatMap_cons, Tree.nodes]
  obtain ⟨k, f, s, e, cs⟩ := t
  rw [Tree.nodes, collect, hall, if_neg (by simp)]
  split <;> rfl

theorem nodes_of_isRemark {q : Kind → Bool} (hq : ∀ k, k.isComment = true → q k = false)
    (h : t.isRemark = true) : (t.nodes fun t => q t.kind) = [] := by
  have hkind : t.kind.isComment = true := by
    rcases kind_of_isRemark h with hkind | hkind <;> rw [hkind] <;> rfl
  rw [nodes_eq, hq _ hkind, children_of_isRemark h]
  rfl

/-- Nodes that look the same have corresponding nodes of some kinds, none of them comments. -/
theorem nodes_alike {q : Kind → Bool} (hq : ∀ k, k.isComment = true → q k = false)
    (h : Resembles source source' t t') :
    List.Forall₂ (Resembles source source') (t.nodes fun t => q t.kind) (t'.nodes fun t => q t.kind) := by
  let below (t : Tree) : Prop := ∀ t', Resembles source source' t t' →
    List.Forall₂ (Resembles source source') (t.nodes fun t => q t.kind) (t'.nodes fun t => q t.kind)
  suffices hbelow : Forall below t from hbelow.self t' h
  refine forall_of_below (fun t ih t' h => ?_) t
  have hremark (u : Tree) (hu : u.isRemark = true) := nodes_of_isRemark hq hu
  rw [nodes_eq, nodes_eq, ← h.kind]
  refine List.rel_append ?_ ?_
  · cases q t.kind with
    | true => exact .cons h .nil
    | false => exact .nil
  · rw [← flatMap_filter_keeps (t := t) hremark t.children,
      ← flatMap_filter_keeps (t := t') hremark t'.children]
    exact forall₂_flatMap h.children fun u hu u' hres =>
      (ih u (List.mem_filter.1 hu).1).self u' hres

/-! ## Calls -/

namespace Surroundings

variable {s : Surroundings}

theorem receiverClass?_alike {o o' : Option Tree} (h : Option.Rel (Resembles s.source source') o o') :
    s.receiverClass? o = { s with source := source' }.receiverClass? o' := by
  cases h with
  | none => rfl
  | @some object object' hobject =>
    unfold receiverClass?
    simp only [← hobject.kind]
    split
    · rfl
    · next hkind =>
      have htext : SameText s.source source' object object' :=
        hobject.chars (by simp [isRead, hkind, Kind.isRead])
      simp only [htext.text]
      rfl
    · have hinner := hobject.child? .object
      have hfield := hobject.readChild? .field rfl
      generalize object.child? .object = inner, object'.child? .object = inner' at hinner
      generalize object.child? .field = field, object'.child? .field = field' at hfield
      cases hinner with
      | none => rfl
      | some hinner =>
        cases hfield with
        | none => rfl
        | some hfield => simp only [hinner.kind, hfield.text]
    · rfl

theorem writtenType_alike (h : Resembles s.source source' t t') :
    s.writtenType t = { s with source := source' }.writtenType t' := by
  have htype := h.readChild? .type rfl
  unfold writtenType
  generalize t.child? .type = type, t'.child? .type = type' at htype
  cases htype with
  | none => rfl
  | some htype => simp only [htype.squeezed]

mutual

theorem argumentType_alike : ∀ {t t' : Tree}, Resembles s.source source' t t' →
    s.argumentType t = { s with source := source' }.argumentType t'
  | .node k f a b cs, .node k' f' a' b' cs', h => by
    have hkind : k = k' := h.kind
    subst hkind
    have hchars (hread : k.isRead = true) :
        SameText s.source source' (.node k f a b cs) (.node k f' a' b' cs') :=
      h.chars (by simp [isRead, kind, hread])
    have hwritten := writtenType_alike h
    have hfirst (hkind : k = .parenthesizedExpression) : s.firstType cs =
        { s with source := source' }.firstType cs' := by
      have hall : (Tree.node k f a b cs).countsAll = true := by simp [countsAll, kind, hkind]
      have hchildren := h.children
      rw [filter_keeps_of_countsAll hall, filter_keeps_of_countsAll (h.countsAll ▸ hall)] at hchildren
      exact firstType_alike hchildren
    have hends (c : Char) (hread : k.isRead = true) :
        endsIn c ((Tree.node k f a b cs).chars s.source) =
          endsIn c ((Tree.node k f a' b' cs').chars source') := congrArg (endsIn c) (hchars hread)
    unfold argumentType
    split
    case h_1 =>
      simp only [(hchars rfl).text]
      rfl
    case h_3 | h_4 | h_5 | h_6 =>
      exact congrArg (fun long => if long = true then "long" else "int") (hends 'l' rfl)
    case h_7 | h_8 =>
      exact congrArg (fun single => if single = true then "float" else "double") (hends 'f' rfl)
    case h_13 | h_14 => exact hwritten
    case h_15 => exact hfirst rfl
    all_goals rfl

theorem firstType_alike : ∀ {ts ts' : List Tree}, List.Forall₂ (Resembles s.source source') ts ts' →
    s.firstType ts = { s with source := source' }.firstType ts'
  | [], _, h => by
    cases h
    rfl
  | t :: ts, _, h => by
    cases h with
    | cons hab hrest =>
      rw [firstType, firstType, hab.kind, argumentType_alike hab, firstType_alike hrest]

end

theorem arguments_alike (h : Resembles s.source source' t t') :
    (((t.child? .arguments).map Tree.namedChildren).getD []).map s.argumentType =
      (((t'.child? .arguments).map Tree.namedChildren).getD []).map
        { s with source := source' }.argumentType := by
  have hargs := h.child? .arguments
  have hfield : ∀ u, t.child? .arguments = some u → u.field = some .arguments := fun u hu => by
    simpa using List.find?_some hu
  generalize t.child? .arguments = args, t'.child? .arguments = args' at hargs hfield
  cases hargs with
  | none => rfl
  | some hargs =>
    have hpart := hfield _ rfl
    have hnamed := hargs.namedChildren_of_countsAll (by simp [countsAll, hpart])
    have htypes := List.rel_map (fun u u' hu => argumentType_alike hu) hnamed
    rwa [List.forall₂_eq_eq_eq] at htypes

theorem call?_alike (h : Resembles s.source source' t t') :
    s.call? t = { s with source := source' }.call? t' := by
  have hname := h.readChild? .name rfl
  unfold call?
  simp only [receiverClass?_alike (h.child? .object), arguments_alike h]
  generalize { s with source := source' }.receiverClass? (t'.child? .object) = target
  generalize t.child? .name = name, t'.child? .name = name' at hname
  cases hname with
  | none => rfl
  | some hname =>
    cases target with
    | none => rfl
    | some target => simp only [hname.text]

theorem calls_alike (h : Resembles s.source source' t t') :
    s.calls t = { s with source := source' }.calls t' := by
  have hnodes := nodes_alike (q := fun k => k == .methodInvocation)
    (fun k hk => by cases k <;> first | rfl | cases hk) h
  have hcall : ∀ u u', Resembles s.source source' u u' →
      Option.Rel Eq (s.call? u) ({ s with source := source' }.call? u') := by
    intro u u' hu
    rw [call?_alike hu]
    cases { s with source := source' }.call? u' with
    | none => exact .none
    | some => exact .some rfl
  have hcalls := List.rel_filterMap hcall hnodes
  rw [List.forall₂_eq_eq_eq] at hcalls
  unfold calls
  rw [hcalls]

end Surroundings

theorem callsIn_alike (h : Resembles source source' t t') (scope : Scope) (fullName simpleName : String)
    (fields : Types) :
    callsIn source scope fullName simpleName fields t =
      callsIn source' scope fullName simpleName fields t' := by
  have hbody := h.child? .body
  have hparams := h.child? .parameters
  have hremark (source : List Char) (types : Types) (u : Tree) (hu : u.isRemark = true) :
      addParameter source types u = types := by
    rcases kind_of_isRemark hu with hkind | hkind <;> simp [addParameter, hkind]
  unfold callsIn
  generalize t.child? .body = body, t'.child? .body = body' at hbody
  cases hbody with
  | none => rfl
  | @some body body' hbody =>
    have hlocal : (((t.child? .parameters).map Tree.namedChildren).getD []).foldl (addParameter source) ∅ =
        (((t'.child? .parameters).map Tree.namedChildren).getD []).foldl (addParameter source') ∅ := by
      generalize t.child? .parameters = params, t'.child? .parameters = params' at hparams
      cases hparams with
      | none => rfl
      | some hparams =>
        have hfold := foldl_forall₂ hparams.namedChildren
          (fun types u u' hu => addParameter_alike hu types) ∅
        rwa [foldl_filter_keeps (hremark source), foldl_filter_keeps (hremark source')] at hfold
    have hnodes := nodes_alike
      (q := fun k => k == .localVariableDeclaration || k == .enhancedForStatement || k == .resource)
      (fun k hk => by cases k <;> first | rfl | cases hk) hbody
    have hlocals := foldl_forall₂ hnodes fun types u u' hu => addLocal_alike hu types
    simp only [hlocal, hlocals]
    exact Surroundings.calls_alike (s := ⟨source, scope, fullName, simpleName, fields, _⟩) hbody

end Index

/-! ## What classes say of calls -/

/-- The names of a class and the calls of its constructors and of its methods by their keys. -/
structure Outline where
  fullName : String
  name : String
  constructorCalls : Calls
  methods : Dict Calls

namespace Outline

def ofClass (c : ClassInfo) : Outline :=
  ⟨c.fullName, c.name, c.constructorCalls, c.methods.map MethodInfo.calls⟩

/-- The outline of a class when calls are reconciled. -/
def reconcile (declared : String → Option (List String)) (o : Outline) : Outline :=
  { o with
    constructorCalls := Overload.reconcileCalls declared o.constructorCalls
    methods := o.methods.map (Overload.reconcileCalls declared) }

/-- Reconciling goes by nothing but the outlines of classes. -/
theorem map_reconcileClasses (classes : Dict ClassInfo) :
    (Overload.reconcileClasses classes).map ofClass =
      (classes.map ofClass).map
        (reconcile fun target => ((classes.map ofClass).get? target).map fun o => o.methods.keys) := by
  have hdeclared : Overload.catalogue classes =
      fun target => ((classes.map ofClass).get? target).map fun o => o.methods.keys := by
    funext target
    rw [Overload.catalogue, Dict.get?_map, Option.map_map]
    congr 1
    funext c
    exact Dict.keys_map.symm
  have hclass (declared : String → Option (List String)) (c : ClassInfo) :
      ofClass (Overload.reconcileClass declared c) = (ofClass c).reconcile declared := by
    have hmethods : (c.methods.map (Overload.reconcileMethod declared)).map MethodInfo.calls =
        (c.methods.map MethodInfo.calls).map (Overload.reconcileCalls declared) := by
      refine Dict.ext_get? fun k => ?_
      simp only [Dict.get?_map, Option.map_map]
      rfl
    simp only [ofClass, Overload.reconcileClass, reconcile, hmethods]
  rw [Overload.reconcileClasses_eq, hdeclared]
  refine Dict.ext_get? fun k => ?_
  simp only [Dict.get?_map, Option.map_map, Function.comp_def, hclass]

end Outline

namespace Index

variable {source source' : List Char} {t t' : Tree} {c c' : ClassInfo}

theorem method?_alike (h : Resembles source source' t t') (scope : Scope) (fullName simpleName : String)
    (fields : Types) :
    Option.Rel (fun m m' => m.signature = m'.signature ∧ m.calls = m'.calls)
      (method? source scope fullName simpleName fields t)
      (method? source' scope fullName simpleName fields t') := by
  have hname := h.readChild? .name rfl
  have hcalls := callsIn_alike h scope fullName simpleName fields
  unfold method?
  rw [h.signature?]
  generalize t.child? .name = name, t'.child? .name = name' at hname
  cases hname with
  | none => exact .none
  | some =>
    cases t'.signature? source' with
    | none => exact .none
    | some signature => exact .some ⟨rfl, hcalls⟩

theorem addMethod_alike (h : Resembles source source' t t') (scope : Scope) (fields : Types)
    (hc : Outline.ofClass c = Outline.ofClass c') :
    Outline.ofClass (addMethod source scope fields c t) =
      Outline.ofClass (addMethod source' scope fields c' t') := by
  obtain ⟨hfull, hsimple, hconstructor, hmethods⟩ := Outline.mk.inj hc
  have hmethod := method?_alike h scope c'.fullName c'.name fields
  unfold addMethod
  rw [hfull, hsimple]
  generalize method? source scope c'.fullName c'.name fields t = m,
    method? source' scope c'.fullName c'.name fields t' = m' at hmethod
  cases hmethod with
  | none => exact hc
  | some hm =>
    simp only [Outline.ofClass, ClassInfo.insertMethod, Dict.map_insert, hm.1, hm.2, hmethods,
      hconstructor]

theorem addConstructor_alike (h : Resembles source source' t t') (scope : Scope) (fields : Types)
    (hc : Outline.ofClass c = Outline.ofClass c') :
    Outline.ofClass (addConstructor source scope fields c t) =
      Outline.ofClass (addConstructor source' scope fields c' t') := by
  obtain ⟨hfull, hsimple, hconstructor, hmethods⟩ := Outline.mk.inj hc
  have hcalls := callsIn_alike h scope c'.fullName c'.name fields
  have hnamed : c.isNamed = c'.isNamed := by
    funext name
    rw [ClassInfo.isNamed, ClassInfo.isNamed, hfull, hsimple]
  unfold addConstructor
  rw [h.signature?, hfull, hsimple, hcalls, hnamed]
  cases t'.signature? source' with
  | none => exact hc
  | some signature =>
    simp only [Outline.ofClass, hconstructor, hmethods]

theorem addMember_alike (h : Resembles source source' t t') (scope : Scope) (fields : Types)
    (hc : Outline.ofClass c = Outline.ofClass c') :
    Outline.ofClass (addMember source scope fields c t) =
      Outline.ofClass (addMember source' scope fields c' t') := by
  unfold addMember
  rw [← h.kind]
  split
  · exact addConstructor_alike h scope fields hc
  · exact addMethod_alike h scope fields hc
  · exact hc

theorem addMember_of_isRemark (h : t.isRemark = true) (scope : Scope) (fields : Types) :
    addMember source scope fields c t = c := by
  rcases kind_of_isRemark h with hkind | hkind <;> simp [addMember, hkind]

theorem classOf_alike {d d' : Declared} (h : DeclaredAlike source source' d d') (scope : Scope) :
    Outline.ofClass (classOf source scope d) = Outline.ofClass (classOf source' scope d') := by
  let addField (source : List Char) (types : Types) (m : Tree) : Types :=
    if m.kind == .fieldDeclaration then addDeclarators source m types else types
  have hremark (source : List Char) (types : Types) (u : Tree) (hu : u.isRemark = true) :
      addField source types u = types := by
    rcases kind_of_isRemark hu with hkind | hkind <;> simp [addField, hkind]
  have hadd (types types' : Types) (htypes : types = types') (u u' : Tree)
      (hu : Resembles source source' u u') : addField source types u = addField source' types' u' := by
    subst htypes
    simp only [addField, hu.kind, addDeclarators_alike hu]
  have hfields := h.decl.foldl_members hadd (hremark source) (hremark source') (rfl : (∅ : Types) = ∅)
  unfold classOf
  simp only [List.foldl_filter]
  rw [show d.decl.members.foldl (fun types m => if m.kind == .fieldDeclaration then
    addDeclarators source m types else types) ∅ = _ from hfields]
  refine h.decl.foldl_members (r := fun c c' => Outline.ofClass c = Outline.ofClass c')
    (fun c c' hc u u' hu => addMember_alike hu scope _ hc)
    (fun c u hu => addMember_of_isRemark hu scope _) (fun c u hu => addMember_of_isRemark hu scope _) ?_
  simp only [Outline.ofClass, h.fullName, h.decl.declName]

theorem classesOf_alike (h : Resembles source source' t t') :
    (classesOf source t).map Outline.ofClass = (classesOf source' t').map Outline.ofClass := by
  let same (classes classes' : Dict ClassInfo) : Prop :=
    classes.map Outline.ofClass = classes'.map Outline.ofClass
  have hadd (scope : Scope) (classes classes' : Dict ClassInfo) (hclasses : same classes classes')
      (d d' : Declared) (hd : DeclaredAlike source source' d d') :
      same (classes.insert (scope.fullName source d) (classOf source scope d))
        (classes'.insert (scope.fullName source' d') (classOf source' scope d')) := by
    have hsame : classes.map Outline.ofClass = classes'.map Outline.ofClass := hclasses
    simp only [same, Dict.map_insert, hsame, classOf_alike hd, hd.fullName]
  unfold classesOf
  rw [h.ofTree]
  exact List.rel_foldl (P := same) (hadd _) rfl h.declarations

end Index

/-! ## Comments -/

/-- The outlines of the classes of a source. -/
def outlines? (source : List Char) : Option (List Outline) :=
  (indexSource? source).map fun classes => classes.map Outline.ofClass

theorem outlines?_of_resembles {source source' : List Char} {root root' : Tree}
    (hparse : parse? source = some root) (hparse' : parse? source' = some root')
    (h : Resembles source source' root root') : outlines? source = outlines? source' := by
  have hvalues (classes : Dict ClassInfo) : (classes.map Outline.ofClass).values =
      classes.values.map Outline.ofClass := by
    simp [Dict.values, Dict.map, Dict.mapWithKey]
  simp only [outlines?, indexSource?, hparse, hparse', Option.map_some, ← hvalues,
    Outline.map_reconcileClasses, Index.classesOf_alike h]

/-- **Comments.** A comment between two tokens changes no class, no key of a method and no call, unless
it tears an operator apart or a node minds it. -/
theorem outlines?_remarked {i : Insertion} {before after : List Token} {root : Tree}
    (h : i.Between before after) (hharmless : i.Harmless (before ++ after))
    (hparse : parse? i.text = some root) (hadmits : root.Forall (Admits i.front.length)) :
    (parse? i.remarked).isSome = true ∧ outlines? i.remarked = outlines? i.text := by
  have hremarked := parse?_remarked h hharmless hparse
  have hlaid := parse?_laidOut hparse
  have hspans : root.Spans i.front.length := by
    rw [Spans, hlaid.start, hlaid.stop]
    exact ⟨h.front_nonempty, h.back_nonempty⟩
  have hunmoved : root.Unmoved i.front.length := by
    obtain ⟨ts, htokens, hformed⟩ := parse?_formed hparse
    cases htokens.symm.trans h.tokens
    refine (hadmits.and hformed).imp fun t ⟨hadmits, hformed⟩ => ⟨hadmits, fun hremark hinside => ?_⟩
    -- a comment of the tree is a token, and the new one lies beside it
    have hcomment : t.kind.isComment = true := by
      rcases kind_of_isRemark hremark with hkind | hkind <;> rw [hkind] <;> rfl
    obtain ⟨w, hw, -, hstart, hstop⟩ := hformed.token _ (Kind.lexeme?_of_isComment hcomment)
    rw [Spans, ← hstart, ← hstop] at hinside
    rcases List.mem_append.1 hw with hw | hw
    · have := h.of_mem_before hw
      omega
    · have := h.of_mem_after hw
      omega
  refine ⟨by rw [hremarked]; rfl, (outlines?_of_resembles hparse hremarked ?_).symm⟩
  exact (look_insertInto hlaid.nested hunmoved hspans).symm

namespace Insertion

variable (i : Insertion)

def tokensBefore : List Token := ((tokens? i.text).getD []).takeWhile fun t => t.stop ≤ i.front.length

def tokensAfter : List Token := ((tokens? i.text).getD []).dropWhile fun t => t.stop ≤ i.front.length

end Insertion

/-- A method hands on two numbers; a comment stands in front of its parameter. -/
def rateParameter : Insertion :=
  ⟨"class Cart \x7b\n    int total(".toList, "/* kept */".toList,
    "Tax t) \x7b return t.rate(1, 2); \x7d\n\x7d\n".toList⟩

theorem outlines?_remarked_rateParameter : ∃ before after root, rateParameter.Between before after ∧
    rateParameter.Harmless (before ++ after) ∧ parse? rateParameter.text = some root ∧
    root.Forall (Admits rateParameter.front.length) ∧
    (parse? rateParameter.remarked).isSome = true ∧
    outlines? rateParameter.remarked = outlines? rateParameter.text := by
  have hbetween : rateParameter.Between rateParameter.tokensBefore rateParameter.tokensAfter := by
    refine ⟨?_, ?_, ?_, ?_⟩ <;> decide +kernel
  have hharmless : rateParameter.Harmless (rateParameter.tokensBefore ++ rateParameter.tokensAfter) := by
    unfold Insertion.Harmless
    decide +kernel
  have hparse : (parse? rateParameter.text).map (fun root =>
      decide (root.Forall (Admits rateParameter.front.length))) = some true := by
    decide +kernel
  obtain ⟨root, hroot, hadmits⟩ := Option.map_eq_some_iff.1 hparse
  have hadmits := of_decide_eq_true hadmits
  exact ⟨_, _, root, hbetween, hharmless, hroot, hadmits,
    outlines?_remarked hbetween hharmless hroot hadmits⟩

/-- The same method, with a comment behind the first number. -/
def rateArgument : Insertion :=
  ⟨"class Cart \x7b\n    int total(Tax t) \x7b return t.rate(1 ".toList, "/* net */".toList,
    ", 2); \x7d\n\x7d\n".toList⟩

/-- The signatures that are called in the methods of a class, a method after the other. -/
def Outline.called (o : Outline) : List (List String) :=
  o.methods.values.map fun calls => calls.values.flatMap Names.toList

/-- A comment among the arguments counts as one more argument, of a type that is not known. -/
theorem outlines?_rateArgument : ¬∀ (i : Insertion) (before after : List Token), i.Between before after →
    (parse? i.text).isSome = true → (parse? i.remarked).isSome = true →
      outlines? i.remarked = outlines? i.text := by
  intro h
  have hbetween : rateArgument.Between rateArgument.tokensBefore rateArgument.tokensAfter := by
    refine ⟨?_, ?_, ?_, ?_⟩ <;> decide +kernel
  have hsame := h rateArgument _ _ hbetween (by decide +kernel) (by decide +kernel)
  have hplain : (outlines? rateArgument.text).map (·.map Outline.called) = some [[["rate(int,int)"]]] := by
    decide +kernel
  have hremark : (outlines? rateArgument.remarked).map (·.map Outline.called) =
      some [[["rate(int,?,int)"]]] := by
    decide +kernel
  rw [← hsame, hremark] at hplain
  exact absurd hplain (by decide)

end Testwright.Java
