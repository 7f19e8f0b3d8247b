import Testwright.Proofs.Java.Comments
import Testwright.Proofs.Java.Parts

/-!
# Parameters inside of a body

The types of parameters are read twice: for the signature of a declaration (`Tree.parameterTypes`) and, with their
names, for the calls in its body (`Index.addParameter`). Each parameter is taken in under one type
(`addParameter_eq`), so behind all of them a name has the type of the last parameter with that name
(`get?_parameterScope`).

Every parameter of the parser has a type and a name (`parse?_supplied`). The first reading adds the brackets behind
the name of a parameter to its type, the second one does not. So the two agree on a parameter exactly if there are
none (`sees_iff`).
-/

namespace Testwright.Java.Index

open Tree

variable {source : List Char} {root decl param : Tree} {before after params : List Tree} {types : Types} {k : String}

/-- Whether a node declares a method or a constructor. -/
def isCallable (t : Tree) : Bool := t.kind == .methodDeclaration || t.kind == .constructorDeclaration

def parameters (decl : Tree) : List Tree := ((decl.child? .parameters).map namedChildren).getD []

/-- What a body knows of the parameters of its declaration. -/
def parameterScope (source : List Char) (decl : Tree) : Types := (parameters decl).foldl (addParameter source) ∅

/-- The calls of a body are read with its parameters first and then with its local variables. -/
theorem callsIn_eq {scope : Scope} {fullName simpleName : String} {fields : Types} {body : Tree}
    (hbody : decl.child? .body = some body) :
    callsIn source scope fullName simpleName fields decl =
      Surroundings.calls
        { source, scope, className := fullName, simpleName, fields
          locals := (body.nodes fun t => t.kind == .localVariableDeclaration || t.kind == .enhancedForStatement ||
            t.kind == .resource).foldl (addLocal source) (parameterScope source decl) } body := by
  rw [callsIn, hbody]
  rfl

/-- The name of a parameter. -/
def parameterName? (param : Tree) : Option Tree :=
  match param.kind with
  | .formalParameter => param.child? .name
  | .spreadParameter =>
    (param.namedChildren.find? fun c => c.kind == .variableDeclarator).bind fun d => d.child? .name
  | _ => none

/-- The type under which a parameter is taken in. -/
def takenType? (source : List Char) (param : Tree) : Option String :=
  match param.kind with
  | .formalParameter => (param.child? .type).map (squeezed source)
  | .spreadParameter => param.spreadType?.map fun type => type.squeezed source ++ "[]"
  | _ => none

/-- The type of a parameter in the signature; the points of one for any number of arguments stand for brackets. -/
def declaredType? (source : List Char) (param : Tree) : Option String :=
  match param.kind with
  | .spreadParameter => (param.parameterType? source).bind fun type =>
    (Text.dropSuffix? "...".toList type.toList).map fun element => .ofList element ++ "[]"
  | _ => param.parameterType? source

/-- Inside of the body of a declaration a parameter has the type that the signature gives it, and it is passed on
under that type. -/
structure Sees (source : List Char) (decl param name : Tree) (type : String) : Prop where
  named : parameterName? param = some name
  declared : declaredType? source param = some type
  seen : (parameterScope source decl).get? (name.text source) = some type
  passed : ∀ s : Surroundings, s.source = source → s.locals = parameterScope source decl →
    ∀ arg : Tree, arg.kind = .identifier → arg.text source = name.text source → s.argumentType arg = type

/-! ## Taking in parameters -/

theorem addParameter_eq (source : List Char) (types : Types) (param : Tree) : addParameter source types param =
    match parameterName? param, takenType? source param with
    | some name, some type => types.insert (name.text source) type
    | _, _ => types := by
  unfold addParameter parameterName? takenType?
  cases param.kind <;> try rfl
  case formalParameter =>
    simp only [addVariable]
    cases param.child? .type <;> cases param.child? .name <;> rfl
  case spreadParameter =>
    dsimp only
    cases param.spreadType? <;>
      cases (param.namedChildren.find? fun c => c.kind == .variableDeclarator).bind fun d => d.child? .name <;> rfl

/-- Parameters with other names leave the type of a name alone. -/
theorem get?_foldl_addParameter (h : ∀ q ∈ params, (parameterName? q).map (text source) ≠ some k) :
    (params.foldl (addParameter source) types).get? k = types.get? k := by
  induction params generalizing types with
  | nil => rfl
  | cons q params ih =>
    obtain ⟨hq, hparams⟩ := List.forall_mem_cons.1 h
    rw [List.foldl_cons, ih hparams, addParameter_eq]
    split
    · next name type hname _ =>
      rw [hname] at hq
      rw [Dict.get?_insert, if_neg fun heq => hq (congrArg some heq)]
    · rfl

/-- A name has the type of the last parameter with that name. -/
theorem get?_parameterScope {name : Tree} {type : String} (hparams : parameters decl = before ++ param :: after)
    (hname : parameterName? param = some name) (htype : takenType? source param = some type)
    (hlast : ∀ q ∈ after, (parameterName? q).map (text source) ≠ some (name.text source)) :
    (parameterScope source decl).get? (name.text source) = some type := by
  rw [parameterScope, hparams, List.foldl_append, List.foldl_cons, get?_foldl_addParameter hlast, addParameter_eq,
    hname, htype]
  exact (Dict.get?_insert ..).trans (if_pos rfl)

/-! ## Parameters of the parser -/

theorem exists_child? {part : Field} {t : Tree} (h : ∃ c ∈ t.children, c.shape.part = some part) :
    ∃ c, t.child? part = some c := by
  obtain ⟨c, hc, hpart⟩ := h
  exact Option.isSome_iff_exists.1 (List.find?_isSome.2 ⟨c, hc, by simpa [shape] using hpart⟩)

theorem exists_namedChild {p : Tree → Bool} {t : Tree} (h : ∃ c ∈ t.children, c.kind.named = true ∧ p c = true) :
    ∃ c ∈ t.children, t.namedChildren.find? p = some c ∧ p c = true := by
  obtain ⟨c, hc, hnamed, hp⟩ := h
  obtain ⟨d, hd⟩ := Option.isSome_iff_exists.1
    (List.find?_isSome.2 ⟨c, List.mem_filter.2 ⟨hc, hnamed⟩, hp⟩ : (t.namedChildren.find? p).isSome)
  exact ⟨d, (List.mem_filter.1 (List.mem_of_find?_eq_some hd)).1, hd, List.find?_some hd⟩

/-- A formal parameter has a type and a name. -/
theorem exists_of_formal (h : param.Supplied) (hkind : param.kind = .formalParameter) :
    (∃ type, param.child? .type = some type) ∧ ∃ name, param.child? .name = some name := by
  have hdemands : param.kind.demands = [fun s => s.part == some .type, fun s => s.part == some .name] := by
    rw [hkind]
    rfl
  rw [Supplied, hdemands, List.forall_mem_cons, List.forall_mem_singleton] at h
  simp only [beq_iff_eq] at h
  exact ⟨exists_child? h.1, exists_child? h.2⟩

/-- So does one for any number of arguments, the name in a declarator. -/
theorem exists_of_spread (h : param.Forall Supplied) (hkind : param.kind = .spreadParameter) :
    (∃ type, param.spreadType? = some type) ∧ ∃ d name,
      (param.namedChildren.find? fun c => c.kind == .variableDeclarator) = some d ∧ d.child? .name = some name := by
  have hdemands : param.kind.demands =
      [fun s => s.kind.any fun k => k ∈ typeKinds, fun s => s.kind == some .variableDeclarator] := by
    rw [hkind]
    rfl
  have hself := h.self
  rw [Supplied, hdemands, List.forall_mem_cons, List.forall_mem_singleton] at hself
  obtain ⟨⟨type, htype, hin⟩, d, hd, hdeclarator⟩ := hself
  constructor
  · have hall : ∀ k ∈ typeKinds, k.named = true ∧ (k != .modifiers && k != .variableDeclarator) = true := by decide
    obtain ⟨hnamed, hplain⟩ := hall type.kind (by simpa [shape] using hin)
    obtain ⟨type, -, hfind, -⟩ := exists_namedChild
      (p := fun c => c.kind != .modifiers && c.kind != .variableDeclarator) ⟨type, htype, hnamed, hplain⟩
    exact ⟨type, hfind⟩
  · have hkind_d : d.kind = .variableDeclarator := by simpa [shape] using hdeclarator
    obtain ⟨d, hd, hfind, hkind_d⟩ := exists_namedChild (p := fun c => c.kind == .variableDeclarator)
      ⟨d, hd, by rw [hkind_d]; rfl, beq_iff_eq.2 hkind_d⟩
    have hnames : d.kind.demands = [fun s => s.part == some .name] := by
      rw [beq_iff_eq.1 hkind_d]
      rfl
    have hsupplied := (h.of_mem hd).self
    rw [Supplied, hnames, List.forall_mem_singleton] at hsupplied
    simp only [beq_iff_eq] at hsupplied
    obtain ⟨name, hname⟩ := exists_child? hsupplied
    exact ⟨d, name, hfind, hname⟩

/-- What both readings make of a parameter: they agree but for the brackets behind its name. -/
theorem exists_taken (source : List Char) (h : param.Forall Supplied)
    (hkind : param.kind = .formalParameter ∨ param.kind = .spreadParameter) :
    ∃ name type, parameterName? param = some name ∧ takenType? source param = some type ∧
      declaredType? source param = some (if param.kind = .formalParameter then
        type ++ ((param.child? .dimensions).map (squeezed source)).getD "" else type) := by
  rcases hkind with hkind | hkind
  · obtain ⟨⟨type, htype⟩, name, hname⟩ := exists_of_formal h.self hkind
    refine ⟨name, type.squeezed source, ?_, ?_, ?_⟩
    · simp only [parameterName?, hkind, hname]
    · simp only [takenType?, hkind, htype, Option.map_some]
    · simp only [declaredType?, parameterType?, hkind, htype, Option.map_some, if_true]
  · obtain ⟨⟨type, htype⟩, d, name, hd, hname⟩ := exists_of_spread h hkind
    refine ⟨name, type.squeezed source ++ "[]", ?_, ?_, ?_⟩
    · simp only [parameterName?, hkind, hd, Option.bind_some, hname]
    · simp only [takenType?, hkind, htype, Option.map_some]
    · have hpoints : Text.dropSuffix? "...".toList (type.squeezed source ++ "...").toList =
          some (type.squeezed source).toList :=
        Text.dropSuffix?_eq_some.2 String.toList_append
      simp only [declaredType?, parameterType?, hkind, htype, Option.map_some, Option.bind_some, hpoints,
        String.ofList_toList]
      rfl

/-- What holds of all nodes below a tree holds of those below a node found in it. -/
theorem forall_of_mem_nodes {p : Tree → Prop} {q : Tree → Bool} {t u : Tree} (h : t.Forall p) (hu : u ∈ t.nodes q) :
    u.Forall p := by
  induction h with
  | @node k f s e cs self children ih =>
    rw [nodes_eq, List.mem_append, List.mem_flatMap] at hu
    rcases hu with hu | ⟨c, hc, hu⟩
    · split at hu
      · rw [List.mem_singleton.1 hu]
        exact .node self children
      · cases hu
    · exact ih c hc hu

theorem forall_of_mem_parameters {p : Tree → Prop} (h : decl.Forall p) (hparam : param ∈ parameters decl) :
    param.Forall p := by
  unfold parameters at hparam
  cases hlist : decl.child? .parameters with
  | none =>
    rw [hlist] at hparam
    cases hparam
  | some list =>
    rw [hlist] at hparam
    exact (h.of_mem (List.mem_of_find?_eq_some hlist)).of_mem (List.mem_filter.1 hparam).1

theorem kind_of_parse? (h : parse? source = some root) : root.kind = .program := by
  obtain ⟨ts, start, stop, xs, -, -, rfl⟩ := parse?_eq_some h
  exact List.foldlRecOn (motive := fun t : Tree => t.kind = .program) _ _ rfl
    fun t ht c _ => (kind_insertInto t).trans ht

/-- The text of a node in a declaration begins with a visible character. -/
theorem begun_of_mem_nodes (hparse : parse? source = some root) (hdecl : decl ∈ root.nodes isCallable) :
    decl.Forall (Begun source) := by
  have hroot : isCallable root = false := by rw [isCallable, kind_of_parse? hparse]; rfl
  rw [nodes_eq, hroot, List.mem_append, List.mem_flatMap] at hdecl
  rcases hdecl with hdecl | ⟨t, ht, hdecl⟩
  · cases hdecl
  · exact forall_of_mem_nodes (parse?_begun hparse t ht) hdecl

/-- A parameter is seen under its declared type exactly if no brackets stand behind its name. -/
theorem sees_iff (hparse : parse? source = some root) (hdecl : decl ∈ root.nodes isCallable)
    (hparams : parameters decl = before ++ param :: after)
    (hkind : param.kind = .formalParameter ∨ param.kind = .spreadParameter)
    (hlast : ∀ q ∈ after, (parameterName? q).map (text source) ≠ (parameterName? param).map (text source)) :
    (∃ name type, Sees source decl param name type) ↔
      (param.kind = .formalParameter → param.child? .dimensions = none) := by
  have hparam : param ∈ parameters decl := by simp [hparams]
  have hsupplied := forall_of_mem_parameters (forall_of_mem_nodes (parse?_supplied hparse) hdecl) hparam
  have hbegun := forall_of_mem_parameters (begun_of_mem_nodes hparse hdecl) hparam
  obtain ⟨name, type, hname, htaken, hdeclared⟩ := exists_taken source hsupplied hkind
  rw [hname] at hlast
  have hseen := get?_parameterScope hparams hname htaken hlast
  constructor
  · rintro ⟨name', type', h⟩ hformal
    obtain rfl := Option.some.inj (hname.symm.trans h.named)
    obtain rfl := Option.some.inj (hseen.symm.trans h.seen)
    rw [h.declared, if_pos hformal] at hdeclared
    cases hdims : param.child? .dimensions with
    | none => rfl
    | some dims =>
      -- Brackets behind the name would make the declared type longer.
      have hne := (hbegun.of_mem (List.mem_of_find?_eq_some hdims)).self.squeezed_ne
      rw [hdims] at hdeclared
      have hlength := congrArg String.length (Option.some.inj hdeclared)
      simp at hlength
      exact absurd hlength hne
  · intro hdims
    have hsame : declaredType? source param = some type := by
      rw [hdeclared]
      split
      · next hformal => rw [hdims hformal, Option.map_none, Option.getD_none, String.append_empty]
      · rfl
    refine ⟨name, type, hname, hsame, hseen, fun s hsource hlocals arg harg htext => ?_⟩
    obtain ⟨k, f, start, stop, cs⟩ := arg
    obtain rfl : k = .identifier := harg
    rw [Surroundings.argumentType, hsource, htext, Surroundings.typeOf?, hlocals, hseen]
    rfl

/-- The parameter of the first method has brackets behind its name. -/
def cart : List Char :=
  "class Cart \x7b int total(int xs[]) \x7b return sum(xs); \x7d int sum(int[] a) \x7b return 1; \x7d
    int sum(int a) \x7b return 0; \x7d \x7d".toList

/-- Both readings of a parameter. -/
structure Reading where
  kind : Kind
  bracketed : Bool
  declared : Option String
  seen : Option String
  deriving DecidableEq

def reading (source : List Char) (decl param : Tree) : Reading where
  kind := param.kind
  bracketed := (param.child? .dimensions).isSome
  declared := declaredType? source param
  seen := (parameterName? param).bind fun name => (parameterScope source decl).get? (name.text source)

theorem readings_cart : (parse? cart).map (fun root => (root.nodes isCallable).map fun decl =>
      (parameters decl).map (reading cart decl)) =
    some [[⟨.formalParameter, true, some "int[]", some "int"⟩], [⟨.formalParameter, false, some "int[]", some "int[]"⟩],
      [⟨.formalParameter, false, some "int", some "int"⟩]] := by
  have hcart : cart = _ := Text.toList_literal rfl
  rw [hcart]
  decide +kernel

/-- Brackets behind the type of a parameter are seen. -/
theorem sees_array : ∃ root decl param, parse? cart = some root ∧ decl ∈ root.nodes isCallable ∧
    parameters decl = [param] ∧ ∃ name type, Sees cart decl param name type := by
  obtain ⟨root, hroot, hreadings⟩ := Option.map_eq_some_iff.1 readings_cart
  obtain ⟨total, decls, hdecls, -, hrest⟩ := List.map_eq_cons_iff.1 hreadings
  obtain ⟨sum, decls', rfl, hsum, -⟩ := List.map_eq_cons_iff.1 hrest
  obtain ⟨param, hparams, hparam⟩ := List.map_eq_singleton_iff.1 hsum
  simp only [reading, Reading.mk.injEq, Option.isSome_eq_false_iff, Option.isNone_iff_eq_none] at hparam
  have hmem : sum ∈ root.nodes isCallable := by simp [hdecls]
  have hsplit : parameters sum = [] ++ param :: [] := hparams
  exact ⟨root, sum, param, hroot, hmem, hparams,
    (sees_iff hroot hmem hsplit (.inl hparam.1) nofun).2 fun _ => hparam.2.1⟩

/-- Brackets behind the name of a parameter are not seen, and a call that the parameter is passed to is taken for
one of another method. -/
theorem brackets_unseen : (∃ root decl param, parse? cart = some root ∧ decl ∈ root.nodes isCallable ∧
      param ∈ parameters decl ∧ param.kind = .formalParameter ∧ ¬∃ name type, Sees cart decl param name type) ∧
    (indexSource? cart).map (·.map fun c => (c.methods.get? "total(int[])").map fun m => m.calls.get? "Cart") =
      some [some (some (.ofList ["sum(int)"]))] := by
  have hcart : cart = _ := Text.toList_literal rfl
  refine ⟨?_, by rw [hcart]; decide +kernel⟩
  obtain ⟨root, hroot, hreadings⟩ := Option.map_eq_some_iff.1 readings_cart
  obtain ⟨total, decls, hdecls, htotal, -⟩ := List.map_eq_cons_iff.1 hreadings
  obtain ⟨param, hparams, hparam⟩ := List.map_eq_singleton_iff.1 htotal
  simp only [reading, Reading.mk.injEq] at hparam
  obtain ⟨hkind, -, hdeclared, hseen⟩ := hparam
  refine ⟨root, total, param, hroot, by simp [hdecls], by simp [hparams], hkind, ?_⟩
  rintro ⟨name, type, h⟩
  rw [h.named, Option.bind_some, h.seen, ← h.declared, hdeclared] at hseen
  simp at hseen

end Testwright.Java.Index
