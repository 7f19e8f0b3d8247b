import Testwright.Proofs.Attempt.Chains
import Testwright.Proofs.Java.Comments
import Testwright.Proofs.Java.Parsing
import Testwright.Proofs.Java.Signatures
import Testwright.Proofs.Project.Histories

/-!
# What the index keeps of a class

A class in which no signature is declared twice keeps no member twice, and keeps an accessor together
with the method it is (`ClassInfo.Tidy`). `Kept` carries this through the members of a declaration one
by one. The calls of a method are kept under signatures without blanks (`Calls.Squeezed`), because a
name is a word and every type of an argument is either squeezed or one of a few fixed words.
Reconciling, in a source and then in the project, changes neither.
-/

namespace Testwright

/-- Every called signature is written without blanks. -/
def Calls.Squeezed (calls : Calls) : Prop :=
  ∀ target s, calls.Asks target s → normalizeSignature s = s

/-- No constructor, accessor or method is kept twice, and an accessor is kept with the source of its
method. The source of a method has a word in it. -/
structure ClassInfo.Tidy (c : ClassInfo) : Prop where
  constructors : (c.constructors.map Member.signature).Nodup
  accessors : (c.accessors.map Member.signature).Nodup
  accessor : ∀ a ∈ c.accessors, ∃ m, c.methods.get? a.signature = some m ∧ m.source = a.source
  signature : ∀ k m, c.methods.get? k = some m → m.signature = k ∧ normalizeSignature k = k
  calls : ∀ k m, c.methods.get? k = some m → m.calls.Squeezed
  worded : ∀ k m, c.methods.get? k = some m →
    ∃ ch ∈ m.source.toList, Java.Token.isWordContinue ch = true

namespace Java

open Token

/-- A text without blanks. -/
def InkedText (s : String) : Prop := ∀ c ∈ s.toList, Inked c

theorem inkedText_append {s t : String} (hs : InkedText s) (ht : InkedText t) :
    InkedText (s ++ t) := by
  rw [InkedText, String.toList_append]
  exact List.forall_mem_append.2 ⟨hs, ht⟩

theorem inkedText_ite {p : Prop} [Decidable p] {s t : String} (hs : InkedText s)
    (ht : InkedText t) : InkedText (if p then s else t) := by
  split
  · exact hs
  · exact ht

theorem inkedText_getD {o : Option String} (h : ∀ s ∈ o, InkedText s) : InkedText (o.getD "") := by
  cases o with
  | none => exact inked_of_all rfl
  | some s => exact h s rfl

namespace Index

/-! ## Types -/

/-- All types are written without blanks. -/
def InkedTypes (types : Types) : Prop := ∀ name type, types.get? name = some type → InkedText type

variable {source : List Char} {types : Types} {t : Tree}

theorem inkedTypes_empty : InkedTypes ∅ := nofun

theorem InkedTypes.insert {name type : String} (h : InkedTypes types) (htype : InkedText type) :
    InkedTypes (types.insert name type) := by
  intro name' type' hget
  rw [Dict.get?_insert] at hget
  split at hget
  · cases hget
    exact htype
  · exact h name' type' hget

theorem inkedText_dropDiamond {type : String} (h : InkedText type) : InkedText (dropDiamond type) := by
  unfold dropDiamond
  split
  · next r hr =>
    obtain ⟨back, hback, rfl⟩ := Option.map_eq_some_iff.1 hr
    have hsplit := Text.dropPrefix?_eq_some.1 hback
    intro c hc
    rw [String.toList_ofList, List.mem_reverse] at hc
    exact h c (List.mem_reverse.1 (hsplit ▸ List.mem_append_right _ hc))
  · exact h

theorem inkedTypes_addDeclarators (h : InkedTypes types) :
    InkedTypes (addDeclarators source t types) := by
  unfold addDeclarators
  split
  · exact h
  · next type _ =>
    refine List.foldlRecOn _ _ h fun types h d _ => ?_
    split
    · exact h
    · refine h.insert (inkedText_append (inkedText_ite ?_ Tree.inked_squeezed)
        (inkedText_getD fun s hs => ?_))
      · split
        · refine inkedText_ite ?_ Tree.inked_squeezed
          split
          · exact inkedText_dropDiamond Tree.inked_squeezed
          · exact Tree.inked_squeezed
        · exact Tree.inked_squeezed
      · obtain ⟨dims, -, rfl⟩ := Option.map_eq_some_iff.1 hs
        exact Tree.inked_squeezed

theorem inkedTypes_addVariable (h : InkedTypes types) : InkedTypes (addVariable source t types) := by
  unfold addVariable
  split
  · exact h.insert Tree.inked_squeezed
  · exact h

theorem inkedTypes_addParameter (h : InkedTypes types) : InkedTypes (addParameter source types t) := by
  unfold addParameter
  split
  · exact inkedTypes_addVariable h
  · simp only
    split
    · exact h.insert (inkedText_append Tree.inked_squeezed (inked_of_all rfl))
    · exact h
  · exact h

theorem inkedTypes_addLocal (h : InkedTypes types) : InkedTypes (addLocal source types t) := by
  unfold addLocal
  split
  · exact inkedTypes_addDeclarators h
  · exact inkedTypes_addVariable h
  · exact inkedTypes_addVariable h
  · exact h

/-! ## Calls -/

namespace Surroundings

variable {s : Surroundings}

/-- What is known about names is written without blanks. -/
structure Inked (s : Surroundings) : Prop where
  simpleName : InkedText s.simpleName
  fields : InkedTypes s.fields
  locals : InkedTypes s.locals

theorem Inked.typeOf? (hs : s.Inked) {name type : String} (h : s.typeOf? name = some type) :
    InkedText type := by
  rcases Option.or_eq_some_iff.1 h with h | ⟨-, h⟩
  · exact hs.locals name type h
  · exact hs.fields name type h

theorem inkedText_writtenType : InkedText (s.writtenType t) := by
  unfold writtenType
  split
  · exact inkedText_dropDiamond Tree.inked_squeezed
  · exact inked_of_all rfl

mutual

theorem Inked.argumentType (hs : s.Inked) : ∀ t, InkedText (s.argumentType t)
  | .node k f a b cs => by
    have hvariable (name : String) : InkedText ((s.typeOf? name).getD unknownType) := by
      cases h : s.typeOf? name with
      | none => exact inked_of_all rfl
      | some type => exact hs.typeOf? h
    unfold Surroundings.argumentType
    split
    case h_1 => exact hvariable _
    case h_3 | h_4 | h_5 | h_6 => exact inkedText_ite (inked_of_all rfl) (inked_of_all rfl)
    case h_7 | h_8 => exact inkedText_ite (inked_of_all rfl) (inked_of_all rfl)
    case h_12 => exact hs.simpleName
    case h_13 | h_14 => exact inkedText_writtenType
    case h_15 => exact Inked.firstType hs cs
    all_goals
      dsimp only
      exact inked_of_all rfl

theorem Inked.firstType (hs : s.Inked) : ∀ ts, InkedText (s.firstType ts)
  | [] => by
    rw [Surroundings.firstType]
    exact inked_of_all rfl
  | t :: ts => by
    rw [Surroundings.firstType]
    split
    · exact Inked.argumentType hs t
    · exact Inked.firstType hs ts

end

theorem forall_nodes {p : Tree → Prop} {q : Tree → Bool} (h : t.Forall p) :
    ∀ u ∈ t.nodes q, q u = true ∧ u.Forall p := by
  let below (t : Tree) : Prop := t.Forall p → ∀ u ∈ t.nodes q, q u = true ∧ u.Forall p
  suffices hbelow : Tree.Forall below t from hbelow.self h
  refine Tree.forall_of_below (fun t ih ht u hu => ?_) t
  rw [nodes_eq, List.mem_append, List.mem_flatMap] at hu
  rcases hu with hu | ⟨v, hv, hu⟩
  · split at hu
    · next hq =>
      rw [List.mem_singleton.1 hu]
      exact ⟨hq, ht⟩
    · cases hu
  · exact (ih v hv).self (ht.of_mem hv) u hu

variable {words : List Token} {target signature : String}

theorem Inked.call? (hs : s.Inked) (htokens : tokens? s.source = some words)
    (ht : t.Forall (Tree.Formed Grammar.forms.allows words)) (hkind : t.kind = .methodInvocation)
    (h : s.call? t = some (target, signature)) : normalizeSignature signature = signature := by
  unfold Surroundings.call? at h
  split at h
  · next name _ hname _ =>
    cases h
    refine normalizeSignature_eq_self ?_
    simp only [String.toList_append, List.forall_mem_append]
    refine ⟨⟨⟨?_, inked_of_all rfl⟩, ?_⟩, inked_of_all rfl⟩
    · rw [Tree.text, String.toList_ofList]
      exact Tree.Formed.inked_name htokens ht (by rw [hkind]; rfl) hname
    · refine forall_mem_intercalate (inked_of_all rfl) fun type htype => ?_
      obtain ⟨arg, -, rfl⟩ := List.mem_map.1 htype
      exact hs.argumentType arg
  · cases h

theorem Inked.calls (hs : s.Inked) (htokens : tokens? s.source = some words)
    (ht : t.Forall (Tree.Formed Grammar.forms.allows words)) : (s.calls t).Squeezed := by
  unfold Surroundings.calls
  refine List.foldlRecOn _ _ ?_ fun calls hcalls e he => ?_
  · rintro target s ⟨wanted, hget, -⟩
    cases hget
  · obtain ⟨u, hu, hcall⟩ := List.mem_filterMap.1 he
    obtain ⟨hkind, hu⟩ := forall_nodes ht u hu
    have hsignature := hs.call? htokens hu (eq_of_beq hkind) hcall
    intro target s hasks
    rcases Calls.asks_add.1 hasks with ⟨-, hs⟩ | hasks
    · have hs : e.2 = s := by simpa using hs
      exact hs ▸ hsignature
    · exact hcalls target s hasks

end Surroundings

theorem squeezed_callsIn {scope : Scope} {fullName simpleName : String} {fields : Types}
    {words : List Token} (htokens : tokens? source = some words)
    (ht : t.Forall (Tree.Formed Grammar.forms.allows words)) (hname : InkedText simpleName)
    (hfields : InkedTypes fields) : (callsIn source scope fullName simpleName fields t).Squeezed := by
  unfold callsIn
  split
  · rintro target s ⟨wanted, hget, -⟩
    cases hget
  · next body hbody =>
    have hlocals := List.foldlRecOn (((t.child? .parameters).map Tree.namedChildren).getD [])
      (addParameter source) inkedTypes_empty fun types h u _ => inkedTypes_addParameter h
    refine Surroundings.Inked.calls ⟨hname, hfields, ?_⟩ htokens
      (ht.of_mem (List.mem_of_find?_eq_some hbody))
    exact List.foldlRecOn _ _ hlocals fun types h u _ => inkedTypes_addLocal h

/-! ## Members -/

/-- A member of a class as the parser finds it. -/
structure Parsed (source : List Char) (words : List Token) (m : Tree) : Prop where
  formed : m.Forall (Tree.Formed Grammar.forms.allows words)
  nested : m.WellNested
  sits : m.Forall (Tree.Sits source)

variable {words : List Token} {scope : Scope} {fields : Types} {m : Tree} {c : ClassInfo}
  {fullName simpleName : String} {info : MethodInfo} {ms : List Tree}

theorem mem_slice {start stop i : Nat} {ch : Char} (hi : source[i]? = some ch) (hstart : start ≤ i)
    (hstop : i < stop) : ch ∈ Tree.slice source start stop := by
  refine List.mem_of_getElem? (i := i - start) ?_
  rw [Tree.slice, List.getElem?_take_of_lt (by omega), List.getElem?_drop, ← hi]
  congr 1
  omega

/-- The word that names a member is in its text. -/
theorem Parsed.exists_mem_chars (h : Parsed source words m) (htokens : tokens? source = some words)
    (hkind : m.kind.namesFreely = false) {name : Tree} (hname : m.child? .name = some name) :
    ∃ ch ∈ m.chars source, isWordContinue ch = true := by
  obtain ⟨w, hw, hword, hstart, hstop⟩ := Tree.Formed.exists_word h.formed hkind hname
  have hsuits := tokens?_suits htokens w hw
  rw [hword, hstart, hstop] at hsuits
  have hmem := List.mem_of_find?_eq_some hname
  have hfirm := (h.sits.of_mem hmem).self.firm
  have hinside := (Tree.wellNested_iff.1 h.nested).2.of_mem hmem
  obtain ⟨ch, hch, -⟩ := hfirm.first
  refine ⟨ch, mem_slice hch hinside.1 ?_, hsuits ch (mem_slice hch (Nat.le_refl _) hfirm.nonempty)⟩
  exact Nat.lt_of_lt_of_le hfirm.nonempty hinside.2.1

theorem method?_eq_some (h : method? source scope fullName simpleName fields m = some info) :
    (∃ name, m.child? .name = some name) ∧ m.signature? source = some info.signature ∧
      info.source = m.text source ∧
      info.calls = callsIn source scope fullName simpleName fields m := by
  unfold method? at h
  split at h
  · next name signature hname hsignature =>
    cases h
    exact ⟨⟨name, hname⟩, hsignature, rfl, rfl⟩
  · cases h

/-- The signatures of the constructors or methods among some members. -/
def signaturesOf (source : List Char) (kind : Kind) (ms : List Tree) : List String :=
  (ms.filter fun m => m.kind == kind).filterMap (Tree.signature? source)

theorem signaturesOf_append {kind : Kind} {ms' : List Tree} : signaturesOf source kind (ms ++ ms') =
    signaturesOf source kind ms ++ signaturesOf source kind ms' := by
  simp [signaturesOf]

/-- What a class keeps of some members. -/
structure Kept (source : List Char) (ms : List Tree) (c : ClassInfo) : Prop where
  name : InkedText c.name
  constructors : c.constructors.map Member.signature =
    signaturesOf source .constructorDeclaration ms
  accessors : (c.accessors.map Member.signature).Sublist (signaturesOf source .methodDeclaration ms)
  accessor : ∀ a ∈ c.accessors, ∃ m, c.methods.get? a.signature = some m ∧ m.source = a.source
  calls : ∀ k m, c.methods.get? k = some m → m.calls.Squeezed
  worded : ∀ k m, c.methods.get? k = some m → ∃ ch ∈ m.source.toList, isWordContinue ch = true

theorem Kept.addConstructor (h : Kept source ms c) (hkind : m.kind = .constructorDeclaration) :
    Kept source (ms ++ [m]) (addConstructor source scope fields c m) := by
  have hmethods : signaturesOf source .methodDeclaration (ms ++ [m]) =
      signaturesOf source .methodDeclaration ms := by
    simp [signaturesOf, hkind]
  unfold Index.addConstructor
  cases hsignature : m.signature? source with
  | none =>
    refine ⟨h.name, ?_, hmethods ▸ h.accessors, h.accessor, h.calls, h.worded⟩
    simp [h.constructors, signaturesOf, hkind, hsignature]
  | some signature =>
    refine ⟨h.name, ?_, hmethods ▸ h.accessors, h.accessor, h.calls, h.worded⟩
    simp [h.constructors, signaturesOf, hkind, hsignature]

theorem Kept.addMethod (h : Kept source ms c) (hkind : m.kind = .methodDeclaration)
    (htokens : tokens? source = some words) (hm : Parsed source words m) (hfields : InkedTypes fields)
    (hdistinct : (signaturesOf source .methodDeclaration (ms ++ [m])).Nodup) :
    Kept source (ms ++ [m]) (addMethod source scope fields c m) := by
  have hconstructors : signaturesOf source .constructorDeclaration (ms ++ [m]) =
      signaturesOf source .constructorDeclaration ms := by
    simp [signaturesOf, hkind]
  have hfree : m.kind.namesFreely = false := by rw [hkind]; rfl
  rw [signaturesOf_append] at hdistinct
  unfold Index.addMethod
  cases hinfo : method? source scope c.fullName c.name fields m with
  | none =>
    refine ⟨h.name, hconstructors ▸ h.constructors, ?_, h.accessor, h.calls, h.worded⟩
    rw [signaturesOf_append]
    exact h.accessors.trans (List.sublist_append_left ..)
  | some info =>
    obtain ⟨⟨name, hname⟩, hsignature, hsource, hcalls⟩ := method?_eq_some hinfo
    have hkey : normalizeSignature info.signature = info.signature :=
      Tree.normalizeSignature_of_signature? htokens hm.formed hfree hsignature
    have hlast : signaturesOf source .methodDeclaration [m] = [info.signature] := by
      simp [signaturesOf, hkind, hsignature]
    rw [hlast] at hdistinct
    have hnew : info.signature ∉ signaturesOf source .methodDeclaration ms := fun hmem =>
      (List.nodup_append.1 hdistinct).2.2 _ hmem _ List.mem_cons_self rfl
    refine ⟨h.name, hconstructors ▸ h.constructors, ?_, fun a ha => ?_, fun k i hi => ?_,
      fun k i hi => ?_⟩
    · rw [signaturesOf_append, hlast]
      simp only [ClassInfo.insertMethod, List.map_append]
      refine h.accessors.append ?_
      split <;> simp
    · simp only [ClassInfo.insertMethod, hkey, Dict.get?_insert] at ha ⊢
      rcases List.mem_append.1 ha with ha | ha
      · have hne : info.signature ≠ a.signature := fun heq =>
          hnew (heq ▸ h.accessors.subset (List.mem_map_of_mem ha))
        rw [if_neg hne]
        exact h.accessor a ha
      · split at ha
        · cases List.mem_singleton.1 ha
          exact ⟨_, if_pos rfl, rfl⟩
        · cases ha
    · simp only [ClassInfo.insertMethod, Dict.get?_insert] at hi
      split at hi
      · cases hi
        simp only [hcalls]
        exact squeezed_callsIn htokens hm.formed h.name hfields
      · exact h.calls k i hi
    · simp only [ClassInfo.insertMethod, Dict.get?_insert] at hi
      split at hi
      · cases hi
        simp only [hsource, Tree.text, String.toList_ofList]
        exact hm.exists_mem_chars htokens hfree hname
      · exact h.worded k i hi

theorem Kept.skip (h : Kept source ms c) (hconstructor : m.kind ≠ .constructorDeclaration)
    (hmethod : m.kind ≠ .methodDeclaration) : Kept source (ms ++ [m]) c :=
  ⟨h.name, by simpa [signaturesOf, hconstructor] using h.constructors,
    by simpa [signaturesOf, hmethod] using h.accessors, h.accessor, h.calls, h.worded⟩

theorem Kept.addMember (h : Kept source ms c) (htokens : tokens? source = some words)
    (hm : Parsed source words m) (hfields : InkedTypes fields)
    (hdistinct : (signaturesOf source .methodDeclaration (ms ++ [m])).Nodup) :
    Kept source (ms ++ [m]) (addMember source scope fields c m) := by
  unfold Index.addMember
  split
  · next hkind => exact h.addConstructor hkind
  · next hkind => exact h.addMethod hkind htokens hm hfields hdistinct
  · next hconstructor hmethod => exact h.skip hconstructor hmethod

theorem Kept.foldl_addMember (h : Kept source ms c) (htokens : tokens? source = some words)
    (hfields : InkedTypes fields) {ms' : List Tree} (hms : ∀ m ∈ ms', Parsed source words m)
    (hdistinct : (signaturesOf source .methodDeclaration (ms ++ ms')).Nodup) :
    Kept source (ms ++ ms') (ms'.foldl (Index.addMember source scope fields) c) := by
  induction ms' generalizing ms c with
  | nil => simpa using h
  | cons m ms' ih =>
    obtain ⟨hm, hms⟩ := List.forall_mem_cons.1 hms
    have happend : ms ++ m :: ms' = ms ++ [m] ++ ms' := by simp
    rw [happend] at hdistinct ⊢
    have hfront := hdistinct
    rw [signaturesOf_append] at hfront
    exact ih (h.addMember htokens hm hfields (List.nodup_append.1 hfront).1) hms hdistinct

/-- The class of a declaration keeps its members. -/
theorem kept_classOf {d : Declared} (htokens : tokens? source = some words)
    (hclass : d.decl.isClassLike = true)
    (hdecl : d.decl.Forall (Tree.Formed Grammar.forms.allows words))
    (hms : ∀ m ∈ d.decl.members, Parsed source words m)
    (hdistinct : (signaturesOf source .methodDeclaration d.decl.members).Nodup) :
    Kept source d.decl.members (classOf source scope d) := by
  have hfree : d.decl.kind.namesFreely = false := by
    rw [Tree.isClassLike_eq] at hclass
    cases hkind : d.decl.kind <;> first | rfl | (rw [hkind] at hclass; cases hclass)
  have hname : InkedText (.ofList (Scope.declName source d.decl)) := by
    intro ch hch
    rw [String.toList_ofList, Scope.declName] at hch
    cases hname : d.decl.child? .name with
    | none => simp [hname] at hch
    | some name =>
      rw [hname] at hch
      exact Tree.Formed.inked_name htokens hdecl hfree hname ch hch
  have hfields := List.foldlRecOn (d.decl.members.filter fun m => m.kind == .fieldDeclaration)
    (fun types m => addDeclarators source m types) inkedTypes_empty
    fun types h m _ => inkedTypes_addDeclarators h
  have hempty {c : ClassInfo} (hname : InkedText c.name) (hconstructors : c.constructors = [])
      (haccessors : c.accessors = []) (hmethods : c.methods = ∅) : Kept source [] c := by
    refine ⟨hname, by simp [hconstructors, signaturesOf], by simp [haccessors], ?_, ?_, ?_⟩
    · simp [haccessors]
    · simp [hmethods]
    · simp [hmethods]
  exact (hempty hname rfl rfl rfl).foldl_addMember htokens hfields hms hdistinct

/-- The class of a declaration without a signature twice keeps nothing twice. -/
theorem tidy_classOf {d : Declared} (htokens : tokens? source = some words)
    (hclass : d.decl.isClassLike = true)
    (hdecl : d.decl.Forall (Tree.Formed Grammar.forms.allows words))
    (hms : ∀ m ∈ d.decl.members, Parsed source words m)
    (hconstructors : (signaturesOf source .constructorDeclaration d.decl.members).Nodup)
    (hmethods : (signaturesOf source .methodDeclaration d.decl.members).Nodup) :
    (classOf source scope d).Tidy := by
  have hkept : Kept source d.decl.members (classOf source scope d) :=
    kept_classOf htokens hclass hdecl hms hmethods
  have hkeyed : Keyed source d.decl.members (classOf source scope d) := keyed_classOf d
  refine ⟨hkept.constructors ▸ hconstructors, hkept.accessors.nodup hmethods, hkept.accessor,
    fun k m hm => ⟨hkeyed.signature k m hm, ?_⟩, hkept.calls, hkept.worded⟩
  obtain ⟨_, _, _, signature, _, rfl⟩ := (hkeyed.keys k).1 (Dict.contains_of_get? hm)
  exact normalizeSignature_idem signature

theorem fullName_classOf (source : List Char) (scope : Scope) (d : Declared) :
    (classOf source scope d).fullName = scope.fullName source d := by
  unfold classOf
  refine List.foldlRecOn (motive := fun (c : ClassInfo) => c.fullName = scope.fullName source d)
    _ _ rfl fun c h m _ => ?_
  split
  · unfold addConstructor
    split <;> exact h
  · unfold addMethod
    split <;> exact h
  · exact h

theorem isClassLike_declaredAt (t : Tree) : Tree.Forall (fun t => ∀ outer,
    ∀ d ∈ Tree.declaredAt outer t, d.decl.isClassLike = true) t := by
  refine Tree.forall_of_below (fun t ih outer d hd => ?_) t
  rw [Tree.declaredAt_eq] at hd
  split at hd
  · next ht =>
    rcases List.mem_cons.1 hd with rfl | hd
    · exact ht
    · obtain ⟨u, hu, hd⟩ := Tree.mem_declaredAmong.1 hd
      exact (Tree.forall_interior ih u hu).self _ d hd
  · cases hd

/-- The declarations of a source and their members are as the parser finds them. -/
theorem parsed_of_declared {root : Tree} (h : parse? source = some root) {d : Declared}
    (hd : d ∈ root.declarations) : ∃ words, tokens? source = some words ∧
      d.decl.isClassLike = true ∧ d.decl.Forall (Tree.Formed Grammar.forms.allows words) ∧
      ∀ m ∈ d.decl.members, Parsed source words m := by
  obtain ⟨words, htokens, hformed⟩ := parse?_formed h
  obtain ⟨t, ht, hd'⟩ := Tree.mem_declaredAmong.1 hd
  have hdecl : d.decl.Forall (Tree.Formed Grammar.forms.allows words) :=
    (Tree.forall_declaredAt t).self _ (hformed.of_mem ht) d hd'
  refine ⟨words, htokens, (isClassLike_declaredAt t).self _ d hd', hdecl, fun m hm => ?_⟩
  have hinterior : m ∈ d.decl.interior := by
    rw [Tree.members_eq] at hm
    exact (List.mem_filter.1 hm).1
  have hsits := (parse?_laidOut h).spread.sits m (List.mem_flatMap.2 ⟨d, hd, hm⟩)
  exact ⟨Tree.forall_interior (fun u hu => hdecl.of_mem hu) m hinterior, hsits.1, hsits.2⟩

theorem mem_of_get?_classesOf {root : Tree} {name : String}
    (h : (classesOf source root).get? name = some c) :
    ∃ d ∈ root.declarations, (Scope.ofTree source root).fullName source d = name ∧
      classOf source (Scope.ofTree source root) d = c := by
  revert h
  refine List.foldlRecOn (motive := fun (classes : Dict ClassInfo) =>
    classes.get? name = some c → ∃ d ∈ root.declarations,
      (Scope.ofTree source root).fullName source d = name ∧
        classOf source (Scope.ofTree source root) d = c)
    root.declarations _ (fun h => by cases h) fun classes ih d hd h => ?_
  rw [Dict.get?_insert] at h
  split at h
  · next hname =>
    cases h
    exact ⟨d, hd, hname, rfl⟩
  · exact ih h

end Index

end Java

/-! ## Reconciled classes -/

/-- Methods are kept under signatures without blanks. -/
def ClassInfo.NormalKeys (c : ClassInfo) : Prop :=
  ∀ k, c.methods.contains k = true → normalizeSignature k = k

namespace Overload

variable {classes : Dict ClassInfo} {calls : Calls} {c : ClassInfo}

theorem squeezed_reconcileCalls (h : calls.Squeezed)
    (hclasses : ∀ name c, classes.get? name = some c → c.NormalKeys) :
    (reconcileCalls (catalogue classes) calls).Squeezed := by
  rintro target s ⟨wanted, hget, hs⟩
  rw [get?_reconcileCalls] at hget
  obtain ⟨signatures, hsignatures, rfl⟩ := Option.map_eq_some_iff.1 hget
  cases hdeclared : catalogue classes target with
  | none =>
    rw [hdeclared] at hs
    exact h target s ⟨signatures, hsignatures, hs⟩
  | some ds =>
    rw [hdeclared] at hs
    obtain ⟨call, hcall, rfl⟩ := contains_settleAll.1 hs
    rcases settle_cases ds call with hsettle | ⟨hmem, -⟩
    · rw [hsettle]
      exact h target call ⟨signatures, hsignatures, hcall⟩
    · obtain ⟨c, hc, rfl⟩ := Option.map_eq_some_iff.1 hdeclared
      exact hclasses target c hc _ (Dict.mem_keys.1 hmem)

theorem tidy_reconcileClass (h : c.Tidy)
    (hclasses : ∀ name c, classes.get? name = some c → c.NormalKeys) :
    (reconcileClass (catalogue classes) c).Tidy := by
  have source {k : String} {m : MethodInfo}
      (hm : (reconcileClass (catalogue classes) c).methods.get? k = some m) :
      ∃ old, c.methods.get? k = some old ∧ reconcileMethod (catalogue classes) old = m :=
    Option.map_eq_some_iff.1 (Dict.get?_map.symm.trans hm)
  refine ⟨h.constructors, h.accessors, fun a ha => ?_, fun k m hm => ?_, fun k m hm => ?_,
    fun k m hm => ?_⟩
  · obtain ⟨m, hm, hsource⟩ := h.accessor a ha
    exact ⟨reconcileMethod (catalogue classes) m, by simp [reconcileClass, hm], hsource⟩
  · obtain ⟨old, hold, rfl⟩ := source hm
    exact h.signature k old hold
  · obtain ⟨old, hold, rfl⟩ := source hm
    exact squeezed_reconcileCalls (h.calls k old hold) hclasses
  · obtain ⟨old, hold, rfl⟩ := source hm
    exact h.worded k old hold

theorem normalKeys_reconcileClass {declared : String → Option (List String)} (h : c.NormalKeys) :
    (reconcileClass declared c).NormalKeys := by
  intro k hk
  rw [Java.Index.contains_methods_reconcileClass] at hk
  exact h k hk

end Overload

/-! ## Projects of sources -/

namespace Project

/-- The project of some sources; those that do not parse are passed over. -/
def ofTexts (sources : List (List Char)) : Project :=
  (ofList (sources.flatMap fun source => (Java.indexSource? source).getD [])).reconcile

/-- No declaration of a class in some sources has a signature twice. -/
def DeclaresOnce (sources : List (List Char)) (name : String) : Prop :=
  ∀ source ∈ sources, ∀ root ∈ Java.parse? source, ∀ d ∈ root.declarations,
    (Java.Scope.ofTree source root).fullName source d = name →
      (Java.Index.signaturesOf source .constructorDeclaration d.decl.members).Nodup ∧
        (Java.Index.signaturesOf source .methodDeclaration d.decl.members).Nodup

instance (sources : List (List Char)) (name : String) : Decidable (DeclaresOnce sources name) := by
  unfold DeclaresOnce
  infer_instance

variable {sources : List (List Char)} {name : String} {c : ClassInfo}

/-- A class that is recorded from some sources is a class of one of them. -/
theorem indexed_of_get?_ofList
    (h : (ofList (sources.flatMap fun source => (Java.indexSource? source).getD [])).classes.get?
      name = some c) :
    ∃ source ∈ sources, ∃ classes, Java.indexSource? source = some classes ∧ c ∈ classes ∧
      c.fullName = name := by
  have hlast := get?_ofList.1 h
  obtain ⟨source, hsource, hmem⟩ := List.mem_flatMap.1 hlast.mem
  cases hclasses : Java.indexSource? source with
  | none =>
    rw [hclasses] at hmem
    cases hmem
  | some classes =>
    rw [hclasses] at hmem
    exact ⟨source, hsource, classes, hclasses, hmem, hlast.holds⟩

open Java Overload in
/-- A class of a source is a declared one, reconciled. -/
theorem declared_of_mem_indexSource? {source : List Char} {classes : List ClassInfo}
    (h : indexSource? source = some classes) (hc : c ∈ classes) :
    ∃ root, parse? source = some root ∧ ∃ d ∈ root.declarations,
      reconcileClass (catalogue (Index.classesOf source root))
        (Index.classOf source (Scope.ofTree source root) d) = c := by
  obtain ⟨root, hroot, rfl⟩ := Option.map_eq_some_iff.1 h
  obtain ⟨name, hname⟩ := Dict.mem_values.1 hc
  rw [reconcileClasses_eq, Dict.get?_map] at hname
  obtain ⟨old, hold, rfl⟩ := Option.map_eq_some_iff.1 hname
  obtain ⟨d, hd, -, rfl⟩ := Index.mem_of_get?_classesOf hold
  exact ⟨root, hroot, d, hd, rfl⟩

open Java Overload in
/-- A class of a project of sources that has no signature twice keeps nothing twice. -/
theorem tidy_ofTexts (h : (ofTexts sources).classes.get? name = some c)
    (hdistinct : DeclaresOnce sources name) : c.Tidy := by
  have hsource {name : String} {old : ClassInfo}
      (hold : (ofList (sources.flatMap fun source => (indexSource? source).getD [])).classes.get?
        name = some old) : ∃ source ∈ sources, ∃ root, parse? source = some root ∧
          ∃ d ∈ root.declarations, (Scope.ofTree source root).fullName source d = name ∧
            reconcileClass (catalogue (Index.classesOf source root))
              (Index.classOf source (Scope.ofTree source root) d) = old := by
    obtain ⟨source, hsource, classes, hclasses, hmem, rfl⟩ := indexed_of_get?_ofList hold
    obtain ⟨root, hroot, d, hd, rfl⟩ := declared_of_mem_indexSource? hclasses hmem
    exact ⟨source, hsource, root, hroot, d, hd, (Index.fullName_classOf ..).symm, rfl⟩
  have hkeys (source : List Char) (scope : Scope) (d : Declared) :
      (Index.classOf source scope d).NormalKeys := by
    intro k hk
    obtain ⟨_, _, _, signature, _, rfl⟩ := ((Index.keyed_classOf d).keys k).1 hk
    exact normalizeSignature_idem signature
  obtain ⟨old, hold, rfl⟩ := Option.map_eq_some_iff.1 (Dict.get?_map.symm.trans h)
  obtain ⟨source, hmem, root, hroot, d, hd, hname, rfl⟩ := hsource hold
  obtain ⟨hconstructors, hmethods⟩ := hdistinct source hmem root hroot d hd hname
  obtain ⟨words, htokens, hclass, hdecl, hms⟩ := Index.parsed_of_declared hroot hd
  have htidy : (Index.classOf source (Scope.ofTree source root) d).Tidy :=
    Index.tidy_classOf htokens hclass hdecl hms hconstructors hmethods
  refine tidy_reconcileClass (tidy_reconcileClass htidy fun name c hc => ?_) fun name c hc => ?_
  · obtain ⟨d, -, -, rfl⟩ := Index.mem_of_get?_classesOf hc
    exact hkeys source _ d
  · obtain ⟨source, -, root, -, d, -, -, rfl⟩ := hsource hc
    exact normalKeys_reconcileClass (hkeys source _ d)

end Project

end Testwright
