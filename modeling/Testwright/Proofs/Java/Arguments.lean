import Testwright.Proofs.Java.Angles
import Testwright.Proofs.Project.Recording

/-!
# Signatures as they are read for overloads

The index writes down a declared method with the types of its parameters (`Tree.signature?`) and a call with the
types of its arguments (`Surroundings.call?`). The name of either is a word of the source, so it has no parenthesis.
The type of a parameter is never empty, and it is balanced unless there are annotations or comments inside
(`balanced_of_mem_parameterTypes`). So as far as the types are balanced, overloads are told apart by the names and
types that were written down (`Recorded`).
-/

namespace Testwright.Java.Index

open Overload Tree

variable {source : List Char} {words : List Token} {root decl call : Tree} {s : Surroundings}
  {signature target name : String} {types : List String}

/-- A signature that is read as the name and the types it is made of. -/
structure Recorded (signature name : String) (types : List String) : Prop where
  written : Written name types
  eq : signature = Overload.signature name types
  split : splitSignature? signature = some (name, types)

theorem recorded_of_written (h : Written name types) : Recorded (Overload.signature name types) name types :=
  ⟨h, rfl, h.splitSignature?⟩

/-- The types of the arguments of a call, as far as they are known. -/
def argumentTypes (s : Surroundings) (call : Tree) : List String :=
  (((call.child? .arguments).map namedChildren).getD []).map s.argumentType

/-- Whether a node calls a method. -/
def isCall (t : Tree) : Bool := t.kind == .methodInvocation

/-! ## Names -/

theorem ne_parenthesis_of_isWordContinue {c : Char} (h : Token.isWordContinue c = true) : c ≠ '(' := by
  rintro rfl
  exact absurd h (by decide)

/-- There is no parenthesis in the name of a node. -/
theorem not_mem_name (htokens : tokens? source = some words)
    (h : decl.Forall (Formed Grammar.forms.allows words)) (hkind : decl.kind.namesFreely = false) {name : Tree}
    (hname : decl.child? .name = some name) : '(' ∉ (name.text source).toList := by
  obtain ⟨w, hw, hword, hstart, hstop⟩ := Formed.exists_word h hkind hname
  have hsuits := tokens?_suits htokens w hw
  rw [hword, hstart, hstop] at hsuits
  rw [text, String.toList_ofList]
  exact fun hmem => ne_parenthesis_of_isWordContinue (hsuits _ hmem) rfl

/-! ## Types of parameters -/

theorem parameterTypes_eq (source : List Char) (decl : Tree) :
    decl.parameterTypes source = (parameters decl).filterMap (parameterType? source) := by
  rw [parameterTypes, parameters]
  cases decl.child? .parameters <;> rfl

theorem append_ne_empty {a b : String} (h : a ≠ "" ∨ b ≠ "") : a ++ b ≠ "" := by
  rw [Ne, String.append_eq_empty_iff]
  grind

theorem parameterType?_ne {param : Tree} {type : String} (h : param.Forall (Begun source))
    (htype : param.parameterType? source = some type) : type ≠ "" := by
  unfold parameterType? at htype
  split at htype
  · obtain ⟨u, hu, rfl⟩ := Option.map_eq_some_iff.1 htype
    exact append_ne_empty (.inl (h.of_mem (List.mem_of_find?_eq_some hu)).self.squeezed_ne)
  · obtain ⟨u, -, rfl⟩ := Option.map_eq_some_iff.1 htype
    exact append_ne_empty (.inr (by decide))
  · cases htype

theorem parameterTypes_ne (h : decl.Forall (Begun source)) : ∀ type ∈ decl.parameterTypes source, type ≠ "" := by
  intro type htype
  rw [parameterTypes_eq] at htype
  obtain ⟨param, hparam, htype⟩ := List.mem_filterMap.1 htype
  exact parameterType?_ne (forall_of_mem_parameters h hparam) htype

theorem balanced_of_mem_parameterTypes (hparse : parse? source = some root) (hdecl : decl ∈ root.nodes isCallable) :
    ∀ type ∈ decl.parameterTypes source, '@' ∉ type.toList → '/' ∉ type.toList → Balanced type.toList := by
  intro type htype
  rw [parameterTypes_eq] at htype
  obtain ⟨param, hparam, htype⟩ := List.mem_filterMap.1 htype
  have hfair := forall_of_mem_parameters (forall_of_mem_nodes (parse?_fair hparse) hdecl) hparam
  exact balanced_of_parameterType? hfair.self htype

/-! ## Declarations and calls -/

theorem namesFreely_of_isCallable (h : isCallable decl = true) : decl.kind.namesFreely = false := by
  simp only [isCallable, Bool.or_eq_true, beq_iff_eq] at h
  rcases h with h | h <;> rw [h] <;> rfl

/-- The signature of a declaration is read as the name and the parameters of the declaration. -/
theorem recorded_signature? (hparse : parse? source = some root) (hdecl : decl ∈ root.nodes isCallable)
    (hsignature : decl.signature? source = some signature)
    (hbalanced : ∀ type ∈ decl.parameterTypes source, Balanced type.toList) :
    ∃ name, decl.child? .name = some name ∧ Recorded signature (name.text source) (decl.parameterTypes source) := by
  obtain ⟨words, htokens, hformed⟩ := parse?_formed hparse
  obtain ⟨hcallable, hformed⟩ := Surroundings.forall_nodes hformed decl hdecl
  obtain ⟨name, hname, rfl⟩ := Option.map_eq_some_iff.1 hsignature
  have hword := not_mem_name htokens hformed (namesFreely_of_isCallable hcallable) hname
  exact ⟨name, hname,
    recorded_of_written ⟨hword, parameterTypes_ne (begun_of_mem_nodes hparse hdecl), hbalanced⟩⟩

/-- The signature of a call is read as the name and the arguments of the call. -/
theorem recorded_call? (hparse : parse? source = some root) (hcall : call ∈ root.nodes isCall)
    (hsource : s.source = source) (h : s.call? call = some (target, signature))
    (htypes : ∀ type ∈ argumentTypes s call, type ≠ "" ∧ Balanced type.toList) :
    ∃ name, call.child? .name = some name ∧ Recorded signature (name.text source) (argumentTypes s call) := by
  obtain ⟨words, htokens, hformed⟩ := parse?_formed hparse
  obtain ⟨hkind, hformed⟩ := Surroundings.forall_nodes hformed call hcall
  unfold Surroundings.call? at h
  split at h
  · next name _ hname _ =>
    cases h
    have hword := not_mem_name htokens hformed (by rw [eq_of_beq hkind]; rfl) hname
    subst hsource
    exact ⟨name, hname, recorded_of_written ⟨hword, fun type h => (htypes type h).1, fun type h => (htypes type h).2⟩⟩
  · cases h

/-- **Reading signatures.** A signature of balanced types is read as the name and the types it was written of. So
overloads are told apart by what the index wrote down: the name of a declaration or of a call, and the number and the
types of its parameters or arguments. Parameters without annotations and comments in their types have balanced
types. -/
theorem splitSignature?_of_balanced :
    (∀ name types, '(' ∉ name.toList → (∀ type ∈ types, type ≠ "" ∧ Balanced type.toList) →
      splitSignature? (name ++ "(" ++ ",".intercalate types ++ ")") = some (name, types)) ∧
    (∀ source root, parse? source = some root →
      (∀ decl ∈ root.nodes isCallable,
        (∀ type ∈ decl.parameterTypes source, '@' ∉ type.toList → '/' ∉ type.toList → Balanced type.toList) ∧
        ∀ signature, decl.signature? source = some signature →
          (∀ type ∈ decl.parameterTypes source, Balanced type.toList) →
          ∃ name, decl.child? .name = some name ∧
            Recorded signature (name.text source) (decl.parameterTypes source)) ∧
      ∀ call ∈ root.nodes isCall, ∀ s : Surroundings, s.source = source → ∀ target signature,
        s.call? call = some (target, signature) →
        (∀ type ∈ argumentTypes s call, type ≠ "" ∧ Balanced type.toList) →
        ∃ name, call.child? .name = some name ∧ Recorded signature (name.text source) (argumentTypes s call)) ∧
    ∀ call declared name name' args params, Recorded call name args → Recorded declared name' params →
      (sameShape call declared = true ↔ name = name' ∧ args.length = params.length) ∧
      ∀ widen, binds widen call declared = true ↔
        name = name' ∧ List.Forall₂ (fun p a => fits widen p a = true) params args := by
  refine ⟨fun name types hname htypes => ?_, fun source root hparse => ⟨fun decl hdecl =>
    ⟨balanced_of_mem_parameterTypes hparse hdecl, fun signature hsignature => ?_⟩,
    fun call hcall s hsource target signature h => ?_⟩, fun call declared name name' args params h h' => ⟨?_, ?_⟩⟩
  · exact Written.splitSignature? ⟨hname, fun type h => (htypes type h).1, fun type h => (htypes type h).2⟩
  · exact recorded_signature? hparse hdecl hsignature
  · exact recorded_call? hparse hcall hsource h
  · rw [h.eq, h'.eq]
    exact sameShape_signature_iff h.written h'.written
  · intro widen
    rw [h.eq, h'.eq]
    exact binds_signature_iff h.written h'.written

/-- A method is called with a parameter whose type has type arguments. -/
def store : List Char :=
  "class Store \x7b void put(Map<String, Integer> counts, int n) \x7b \x7d
    void fill(Map<String, Integer> all) \x7b put(all, 1); \x7d \x7d".toList

/-- What is known inside of the declarations of a source about their parameters. -/
def surroundings (source : List Char) (root : Tree) : Surroundings where
  source
  scope := Scope.ofTree source root
  className := "Store"
  simpleName := "Store"
  fields := ∅
  locals := ((root.nodes isCallable).flatMap parameters).foldl (addParameter source) ∅

theorem source_surroundings (source : List Char) (root : Tree) : (surroundings source root).source = source := rfl

theorem readings_store : (parse? store).map (fun root =>
      ((root.nodes isCallable).map fun decl => (decl.signature? store, decl.parameterTypes store),
        (root.nodes isCall).map fun call =>
          ((surroundings store root).call? call, argumentTypes (surroundings store root) call))) =
    some ([(some "put(Map<String,Integer>,int)", ["Map<String,Integer>", "int"]),
        (some "fill(Map<String,Integer>)", ["Map<String,Integer>"])],
      [(some ("Store", "put(Map<String,Integer>,int)"), ["Map<String,Integer>", "int"])]) := by
  have hstore : store = _ := Text.toList_literal rfl
  rw [hstore]
  decide +kernel

/-- The type arguments of a parameter stay together, a method without parameters has none, and a call whose argument
has type arguments binds to the declaration of its method. -/
theorem recorded_store :
    splitSignature? ("put" ++ "(" ++ ",".intercalate ["Map<String,Integer>", "int"] ++ ")") =
        some ("put", ["Map<String,Integer>", "int"]) ∧
      splitSignature? ("run" ++ "(" ++ ",".intercalate [] ++ ")") = some ("run", []) ∧
      ∃ root decl call target declared called name name', parse? store = some root ∧ decl ∈ root.nodes isCallable ∧
        call ∈ root.nodes isCall ∧ decl.signature? store = some declared ∧
        (surroundings store root).call? call = some (target, called) ∧
        Recorded declared name ["Map<String,Integer>", "int"] ∧ Recorded called name' ["Map<String,Integer>", "int"] ∧
        binds false called declared = true := by
  obtain ⟨hsplit, hindex, hmatch⟩ := splitSignature?_of_balanced
  have htypes : ∀ type ∈ ["Map<String,Integer>", "int"], type ≠ "" ∧ Balanced type.toList := by decide +kernel
  refine ⟨hsplit "put" _ (by decide) htypes, hsplit "run" [] (by decide) nofun, ?_⟩
  obtain ⟨root, hroot, hreadings⟩ := Option.map_eq_some_iff.1 readings_store
  obtain ⟨hdecls, hcalls⟩ := Prod.mk.inj hreadings
  obtain ⟨decl, others, hput, hdecl, -⟩ := List.map_eq_cons_iff.1 hdecls
  obtain ⟨call, hcall, hreading⟩ := List.map_eq_singleton_iff.1 hcalls
  obtain ⟨hdeclared, hparams⟩ := Prod.mk.inj hdecl
  obtain ⟨hcalled, hargs⟩ := Prod.mk.inj hreading
  have hmem : decl ∈ root.nodes isCallable := by rw [hput]; exact List.mem_cons_self
  have hmem' : call ∈ root.nodes isCall := by rw [hcall]; exact List.mem_cons_self
  obtain ⟨hdeclarations, hinvocations⟩ := hindex store root hroot
  obtain ⟨heven, hwritten⟩ := hdeclarations decl hmem
  rw [hparams] at heven hwritten
  have hplain : ∀ type ∈ ["Map<String,Integer>", "int"], '@' ∉ type.toList ∧ '/' ∉ type.toList := by decide +kernel
  obtain ⟨name, -, hname⟩ := hwritten _ hdeclared fun type h => heven type h (hplain type h).1 (hplain type h).2
  obtain ⟨name', -, hname'⟩ := hinvocations call hmem' _ (source_surroundings store root) _ _ hcalled
    (by rw [hargs]; exact htypes)
  rw [hargs] at hname'
  have hsame : name'.text store = name.text store := by
    have hsplits := hname'.split.symm.trans hname.split
    simpa using hsplits
  refine ⟨root, decl, call, _, _, _, _, _, hroot, hmem, hmem', hdeclared, hcalled, hname, hname', ?_⟩
  exact ((hmatch _ _ _ _ _ _ hname' hname).2 false).2 ⟨hsame, List.forall₂_same.2 fun type _ => fits_self⟩

end Testwright.Java.Index
