import Testwright.Java.Index
import Testwright.Proofs.Java.Members
import Testwright.Proofs.Java.Shapes
import Testwright.Proofs.Project.Excerpt
import Testwright.Proofs.Project.Reconciling
import Testwright.Proofs.Text.Cutting

/-!
# Signatures under which methods are found

Pruning looks for the signatures that a source declares, and the index keeps methods under their
signatures without blanks. The name of a method is a word and the types of its parameters are written
without blanks, so the two are the same (`normalizeSignature_of_signature?`), and the methods declared in
a source are those of its classes (`declaredSignatures?_eq_keys`).
-/

namespace Testwright

/-! ## Texts without blanks -/

theorem normalizeSignature_eq_self {s : String} (h : ∀ c ∈ s.toList, Text.isBlank c = false) :
    normalizeSignature s = s := by
  rw [← String.toList_inj, normalizeSignature, toList_onChars, Text.squeeze]
  exact List.filter_eq_self.2 fun c hc => by simp [h c hc]

theorem forall_mem_intercalate {p : Char → Prop} {sep : String} {l : List String}
    (hsep : ∀ c ∈ sep.toList, p c) (h : ∀ s ∈ l, ∀ c ∈ s.toList, p c) :
    ∀ c ∈ (sep.intercalate l).toList, p c := by
  induction l with
  | nil => simp
  | cons s l ih =>
    have hl := ih fun t ht => h t (List.mem_cons_of_mem s ht)
    cases l with
    | nil => simpa using h s List.mem_cons_self
    | cons t l =>
      rw [String.intercalate_cons_cons]
      simp only [String.toList_append, List.mem_append]
      rintro c ((hc | hc) | hc)
      · exact h s List.mem_cons_self c hc
      · exact hsep c hc
      · exact hl c hc

namespace Java

open Token

namespace Tree

variable {source : List Char} {words : List Token} {t decl : Tree} {signature : String}

theorem inked_squeezed : ∀ c ∈ (t.squeezed source).toList, Inked c := by
  intro c hc
  rw [squeezed, String.toList_ofList] at hc
  simpa [Inked] using (List.mem_filter.1 hc).2

theorem inked_parameterType? {type : String} (h : t.parameterType? source = some type) :
    ∀ c ∈ type.toList, Inked c := by
  unfold parameterType? at h
  split at h
  · obtain ⟨u, -, rfl⟩ := Option.map_eq_some_iff.1 h
    rw [String.toList_append]
    refine List.forall_mem_append.2 ⟨inked_squeezed, ?_⟩
    cases t.child? .dimensions with
    | none => simp
    | some dims => exact inked_squeezed
  · obtain ⟨u, -, rfl⟩ := Option.map_eq_some_iff.1 h
    rw [String.toList_append]
    exact List.forall_mem_append.2 ⟨inked_squeezed, inked_of_all rfl⟩
  · cases h

theorem inked_parameterTypes {type : String} (h : type ∈ decl.parameterTypes source) :
    ∀ c ∈ type.toList, Inked c := by
  unfold parameterTypes at h
  split at h
  · cases h
  · obtain ⟨param, -, htype⟩ := List.mem_filterMap.1 h
    exact inked_parameterType? htype

/-- The name of a declaration is a word. -/
theorem Formed.inked_name (htokens : tokens? source = some words)
    (h : decl.Forall (Formed Grammar.forms.allows words)) (hkind : decl.kind.namesFreely = false)
    {name : Tree} (hname : decl.child? .name = some name) : ∀ c ∈ name.chars source, Inked c := by
  obtain ⟨w, hw, hword, hstart, hstop⟩ := Formed.exists_word h hkind hname
  have hsuits := tokens?_suits htokens w hw
  rw [hword, hstart, hstop] at hsuits
  exact fun c hc => inked_of_isWordContinue (hsuits c hc)

/-- The signature of a declaration has no blanks. -/
theorem normalizeSignature_of_signature? (htokens : tokens? source = some words)
    (h : decl.Forall (Formed Grammar.forms.allows words)) (hkind : decl.kind.namesFreely = false)
    (hsignature : decl.signature? source = some signature) :
    normalizeSignature signature = signature := by
  obtain ⟨name, hname, rfl⟩ := Option.map_eq_some_iff.1 hsignature
  refine normalizeSignature_eq_self ?_
  simp only [String.toList_append, List.forall_mem_append]
  refine ⟨⟨⟨?_, inked_of_all rfl⟩, ?_⟩, inked_of_all rfl⟩
  · rw [text, String.toList_ofList]
    exact Formed.inked_name htokens h hkind hname
  · exact forall_mem_intercalate (inked_of_all rfl) fun type htype => inked_parameterTypes htype

/-! ## All declarations of a source -/

theorem mem_declaredAmong {outer : List Tree} {ts : List Tree} {d : Declared} :
    d ∈ declaredAmong outer ts ↔ ∃ t ∈ ts, d ∈ declaredAt outer t := by
  rw [declaredAmong_eq_flatMap, List.mem_flatMap]

theorem forall_declaredAt {p : Tree → Prop} (t : Tree) :
    Forall (fun t => ∀ outer, t.Forall p → ∀ d ∈ declaredAt outer t, d.decl.Forall p) t := by
  refine forall_of_below (fun t ih outer ht d hd => ?_) t
  rw [declaredAt_eq] at hd
  split at hd
  · rcases List.mem_cons.1 hd with rfl | hd
    · exact ht
    · obtain ⟨u, hu, hd⟩ := mem_declaredAmong.1 hd
      have hbelow := forall_interior (t := t) fun u hu => ht.of_mem hu
      exact (forall_interior ih u hu).self _ (hbelow u hu) d hd
  · cases hd

theorem forall_members {p : Tree → Prop} {root m : Tree} (h : ∀ t ∈ root.children, t.Forall p) {d : Declared}
    (hd : d ∈ root.declarations) (hm : m ∈ d.decl.members) : m.Forall p := by
  obtain ⟨t, ht, hd⟩ := mem_declaredAmong.1 hd
  have hdecl := (forall_declaredAt t).self _ (h t ht) d hd
  rw [members_eq] at hm
  exact forall_interior (fun u hu => hdecl.of_mem hu) m (List.mem_filter.1 hm).1

theorem forall_methods {p : Tree → Prop} {root m : Tree} (h : root.Forall p) {d : Declared}
    (hd : d ∈ root.declarations) (hm : m ∈ d.decl.methods) : m.Forall p :=
  forall_members (fun _ ht => h.of_mem ht) hd (List.mem_filter.1 hm).1

end Tree

/-! ## The methods of a class -/

namespace Index

variable {source : List Char} {scope : Scope} {fields : Types} {ms : List Tree} {c : ClassInfo}

/-- The methods of a class are kept under the signatures of some members. -/
structure Keyed (source : List Char) (ms : List Tree) (c : ClassInfo) : Prop where
  keys : ∀ k, c.methods.contains k = true ↔ ∃ m ∈ ms, m.kind = .methodDeclaration ∧
    ∃ signature, m.signature? source = some signature ∧ normalizeSignature signature = k
  signature : ∀ k m, c.methods.get? k = some m → m.signature = k

theorem methods_addConstructor {decl : Tree} :
    (addConstructor source scope fields c decl).methods = c.methods := by
  unfold addConstructor
  split <;> rfl

theorem methods_addMethod_of_none {decl : Tree} (h : decl.signature? source = none) :
    (addMethod source scope fields c decl).methods = c.methods := by
  have hnone : method? source scope c.fullName c.name fields decl = none := by
    unfold method?
    rw [h]
    split <;> first | rfl | contradiction
  rw [addMethod, hnone]

theorem methods_addMethod {decl : Tree} {signature : String}
    (h : decl.signature? source = some signature) :
    ∃ m, m.signature = normalizeSignature signature ∧
      (addMethod source scope fields c decl).methods =
        c.methods.insert (normalizeSignature signature) m := by
  obtain ⟨name, hname, -⟩ := Option.map_eq_some_iff.1 h
  obtain ⟨m, hm, hsignature⟩ : ∃ m, method? source scope c.fullName c.name fields decl = some m ∧
      m.signature = signature := by
    simp [method?, hname, h]
  refine ⟨{ m with signature := normalizeSignature signature }, rfl, ?_⟩
  rw [addMethod, hm]
  subst hsignature
  rfl

/-- Take in a member of a class. -/
def addMember (source : List Char) (scope : Scope) (fields : Types) (c : ClassInfo) (m : Tree) :
    ClassInfo :=
  match m.kind with
  | .constructorDeclaration => addConstructor source scope fields c m
  | .methodDeclaration => addMethod source scope fields c m
  | _ => c

theorem Keyed.addMember (h : Keyed source ms c) (m : Tree) :
    Keyed source (ms ++ [m]) (addMember source scope fields c m) := by
  have same {c' : ClassInfo} (hmethods : c'.methods = c.methods)
      (hnone : m.kind = .methodDeclaration → m.signature? source = none) :
      Keyed source (ms ++ [m]) c' := by
    refine ⟨fun k => ?_, by rw [hmethods]; exact h.signature⟩
    rw [hmethods, h.keys]
    constructor
    · rintro ⟨u, hu, hrest⟩
      exact ⟨u, List.mem_append_left _ hu, hrest⟩
    · rintro ⟨u, hu, hkind, signature, hsignature, hkey⟩
      rcases List.mem_append.1 hu with hu | hu
      · exact ⟨u, hu, hkind, signature, hsignature, hkey⟩
      · cases List.mem_singleton.1 hu
        cases (hnone hkind).symm.trans hsignature
  unfold Index.addMember
  split
  · next hkind => exact same methods_addConstructor fun h => by cases hkind.symm.trans h
  · next hkind =>
    cases hsignature : m.signature? source with
    | none => exact same (methods_addMethod_of_none hsignature) fun _ => hsignature
    | some signature =>
      obtain ⟨info, hinfo, hmethods⟩ : ∃ info : MethodInfo,
          info.signature = normalizeSignature signature ∧
            (addMethod source scope fields c m).methods =
              c.methods.insert (normalizeSignature signature) info := methods_addMethod hsignature
      refine ⟨fun k => ?_, fun k m' hm' => ?_⟩
      · rw [hmethods, Dict.contains_insert, Bool.or_eq_true, decide_eq_true_eq, h.keys]
        constructor
        · rintro (rfl | ⟨u, hu, hrest⟩)
          · exact ⟨m, by simp, hkind, signature, hsignature, rfl⟩
          · exact ⟨u, List.mem_append_left _ hu, hrest⟩
        · rintro ⟨u, hu, hrest⟩
          rcases List.mem_append.1 hu with hu | hu
          · exact .inr ⟨u, hu, hrest⟩
          · cases List.mem_singleton.1 hu
            obtain ⟨-, signature', hsignature', hkey⟩ := hrest
            cases hsignature.symm.trans hsignature'
            exact .inl hkey
      · rw [hmethods, Dict.get?_insert] at hm'
        split at hm'
        · next hkey =>
          cases hm'
          exact hinfo.trans hkey
        · exact h.signature k m' hm'
  · next hkind => exact same rfl fun h => absurd h hkind

theorem Keyed.foldl_addMember (h : Keyed source ms c) (ms' : List Tree) :
    Keyed source (ms ++ ms') (ms'.foldl (Index.addMember source scope fields) c) := by
  induction ms' generalizing ms c with
  | nil => simpa using h
  | cons m ms' ih => simpa using ih (h.addMember m)

theorem keyed_classOf (d : Declared) : Keyed source d.decl.members (classOf source scope d) := by
  have hempty {c : ClassInfo} (hc : c.methods = ∅) : Keyed source [] c := by
    refine ⟨fun k => ?_, fun k m hm => ?_⟩
    · simp [hc]
    · simp [hc] at hm
  exact (hempty rfl).foldl_addMember d.decl.members

/-- The classes of a source are those declared in it if no two have one full name. -/
theorem get?_classesOf {root : Tree} {name : String}
    (h : (root.declarations.map ((Scope.ofTree source root).fullName source)).Nodup) :
    (classesOf source root).get? name = some c ↔
      ∃ d ∈ root.declarations, (Scope.ofTree source root).fullName source d = name ∧
        classOf source (Scope.ofTree source root) d = c := by
  unfold classesOf
  rw [Dict.get?_foldl_insert_of_nodup h]
  simp

/-- The classes of the index are those declared, their calls reconciled. -/
theorem mem_values_reconcileClasses {root : Tree}
    (h : (root.declarations.map ((Scope.ofTree source root).fullName source)).Nodup) :
    c ∈ (Overload.reconcileClasses (classesOf source root)).values ↔
      ∃ d ∈ root.declarations,
        Overload.reconcileClass (Overload.catalogue (classesOf source root))
          (classOf source (Scope.ofTree source root) d) = c := by
  simp only [Dict.mem_values, Overload.reconcileClasses_eq, Dict.get?_map, Option.map_eq_some_iff]
  constructor
  · rintro ⟨_, _, hc, rfl⟩
    obtain ⟨d, hd, -, rfl⟩ := (get?_classesOf h).1 hc
    exact ⟨d, hd, rfl⟩
  · rintro ⟨d, hd, rfl⟩
    exact ⟨_, _, (get?_classesOf h).2 ⟨d, hd, rfl, rfl⟩, rfl⟩

theorem contains_methods_reconcileClass {declared : String → Option (List String)} {k : String} :
    (Overload.reconcileClass declared c).methods.contains k = c.methods.contains k := by
  simp [Overload.reconcileClass, Dict.contains]

end Index

/-- A class with a nested interface, an enumeration and a record, and blanks in the types of
parameters. -/
def fleet : List Char :=
  ("package sea;\nclass Fleet \x7b\n  interface Port \x7b void dock(Map<String , int[]> m, Ship... s); \x7d\n" ++
    "  enum Flag \x7b RED, BLUE; public int code() \x7b return 1; \x7d \x7d\n" ++
    "  record Ship(String name) \x7b int load(int  tons []) \x7b return tons[0]; \x7d \x7d\n" ++
    "  void sail(/* where */ Port to) \x7b to.dock(null); \x7d\n  void sail() \x7b \x7d\n\x7d\n").toList

example : declaredSignatures? fleet =
    some ["sail(Port)", "sail()", "dock(Map<String,int[]>,Ship...)", "code()", "load(int[])"] := by
  have hfleet : fleet = _ := Text.toList_append_literal (Text.toList_append_literal (Text.toList_append_literal
    (Text.toList_literal rfl) (Text.toList_literal rfl)) (Text.toList_literal rfl)) (Text.toList_literal rfl)
  rw [hfleet]
  decide +kernel

end Java

end Testwright
