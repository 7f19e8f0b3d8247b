import Testwright.Proofs.Project.Recording

/-!
# What the index copies

The index keeps a class as texts of its source: the package and the imports, the header of its declaration and
the fields, constructors and methods among the members (`Java.Index.Copies`). No text is written anew, blanks
around fields and imports are only left out (`Java.Index.Quotes`). Reconciling changes calls, not texts.
-/

namespace Testwright

namespace Java.Index

variable {source : List Char} {scope : Scope} {fields : Types} {d : Declared} {c : ClassInfo}
  {t : Tree} {ts : List Tree} {kinds : List Kind} {s : String}

/-- A text is that of a node of one of some kinds, as it is or without blanks around it. -/
def Quotes (source : List Char) (kinds : List Kind) (ts : List Tree) (s : String) : Prop :=
  ∃ t ∈ ts, t.kind ∈ kinds ∧ (s = t.text source ∨ s = .ofList (Text.trim (t.chars source)))

/-- The kinds of members that are copied. -/
def memberKinds : List Kind := [.fieldDeclaration, .constructorDeclaration, .methodDeclaration]

/-- A class as the texts of a declaration in a scope. A method has a name. -/
structure Copies (source : List Char) (scope : Scope) (d : Declared) (c : ClassInfo) : Prop where
  package : c.package = scope.packageLine
  imports : c.imports = scope.importLines
  header : c.header = .ofList (d.decl.header source)
  fields : ∀ f ∈ c.fields, Quotes source memberKinds d.decl.members f
  constructors : ∀ k ∈ c.constructors, Quotes source memberKinds d.decl.members k.source
  accessors : ∀ a ∈ c.accessors, Quotes source memberKinds d.decl.members a.source
  methods : ∀ k m, c.methods.get? k = some m → ∃ t ∈ d.decl.members, t.kind = .methodDeclaration ∧
    (∃ name, t.child? .name = some name) ∧ m.source = t.text source

namespace Copies

theorem addConstructor (h : Copies source scope d c) (ht : t ∈ d.decl.members)
    (hkind : t.kind = .constructorDeclaration) :
    Copies source scope d (addConstructor source scope fields c t) := by
  unfold Index.addConstructor
  split
  · exact h
  · refine { h with constructors := fun k hk => ?_ }
    rcases List.mem_append.1 hk with hk | hk
    · exact h.constructors k hk
    · cases List.mem_singleton.1 hk
      exact ⟨t, ht, by simp [hkind, memberKinds], .inl rfl⟩

theorem addMethod (h : Copies source scope d c) (ht : t ∈ d.decl.members)
    (hkind : t.kind = .methodDeclaration) :
    Copies source scope d (addMethod source scope fields c t) := by
  unfold Index.addMethod
  split
  · exact h
  · next info hinfo =>
    obtain ⟨hname, -, hsource, -⟩ := method?_eq_some hinfo
    refine ⟨h.package, h.imports, h.header, h.fields, h.constructors, fun a ha => ?_, fun k m hm => ?_⟩
    · rcases List.mem_append.1 ha with ha | ha
      · exact h.accessors a ha
      · split at ha
        · cases List.mem_singleton.1 ha
          exact ⟨t, ht, by simp [hkind, memberKinds], .inl hsource⟩
        · cases ha
    · simp only [ClassInfo.insertMethod, Dict.get?_insert] at hm
      split at hm
      · cases hm
        exact ⟨t, ht, hkind, hname, hsource⟩
      · exact h.methods k m hm

theorem addMember (h : Copies source scope d c) (ht : t ∈ d.decl.members) :
    Copies source scope d (addMember source scope fields c t) := by
  unfold Index.addMember
  split
  · next hkind => exact h.addConstructor ht hkind
  · next hkind => exact h.addMethod ht hkind
  · exact h

theorem method (h : Copies source scope d c) {k : String} {m : MethodInfo}
    (hm : c.methods.get? k = some m) : Quotes source memberKinds d.decl.members m.source := by
  obtain ⟨t, ht, hkind, -, hsource⟩ := h.methods k m hm
  exact ⟨t, ht, by simp [hkind, memberKinds], .inl hsource⟩

end Copies

theorem copies_classOf (source : List Char) (scope : Scope) (d : Declared) :
    Copies source scope d (classOf source scope d) := by
  refine List.foldlRecOn (motive := Copies source scope d) d.decl.members
    (Index.addMember source scope _) ?_ fun c h t ht => h.addMember ht
  refine ⟨rfl, rfl, rfl, fun f hf => ?_, nofun, nofun, nofun⟩
  obtain ⟨t, ht, rfl⟩ := List.mem_map.1 hf
  obtain ⟨ht, hkind⟩ := List.mem_filter.1 ht
  exact ⟨t, ht, by simp [eq_of_beq hkind, memberKinds], .inr rfl⟩

theorem Copies.reconcileClass (h : Copies source scope d c) (declared : String → Option (List String)) :
    Copies source scope d (Overload.reconcileClass declared c) := by
  refine { h with methods := fun k m hm => ?_ }
  obtain ⟨old, hold, rfl⟩ := Option.map_eq_some_iff.1 (Dict.get?_map.symm.trans hm)
  exact h.methods k old hold

/-! ## Packages and imports -/

/-- The kinds of nodes from which a scope is read. -/
def scopeKinds : List Kind := [.packageDeclaration, .importDeclaration]

/-- The package and imports of a scope are those of some nodes; there may be no package. -/
structure Surveys (source : List Char) (ts : List Tree) (scope : Scope) : Prop where
  package : scope.packageLine = "" ∨ Quotes source scopeKinds ts scope.packageLine
  imports : ∀ i ∈ scope.importLines, Quotes source scopeKinds ts i

theorem Surveys.addPackage (h : Surveys source ts scope) (ht : t ∈ ts) (hkind : t.kind = .packageDeclaration) :
    Surveys source ts (scope.addPackage (t.chars source)) :=
  { h with package := .inr ⟨t, ht, by simp [hkind, scopeKinds], .inr rfl⟩ }

theorem Surveys.addImport (h : Surveys source ts scope) (ht : t ∈ ts) (hkind : t.kind = .importDeclaration) :
    Surveys source ts (scope.addImport (t.chars source)) := by
  have hlines : (scope.addImport (t.chars source)).importLines =
      scope.importLines ++ [.ofList (Text.trim (t.chars source))] := by
    unfold Scope.addImport
    dsimp only
    split <;> rfl
  have hpackage : (scope.addImport (t.chars source)).packageLine = scope.packageLine := by
    unfold Scope.addImport
    dsimp only
    split <;> rfl
  constructor
  · rw [hpackage]
    exact h.package
  · rw [hlines]
    refine List.forall_mem_append.2 ⟨h.imports, fun i hi => ?_⟩
    exact ⟨t, ht, by simp [hkind, scopeKinds], .inr (List.mem_singleton.1 hi)⟩

theorem surveys_ofHeader (source : List Char) (root : Tree) :
    Surveys source root.children (Scope.ofHeader source root) := by
  refine List.foldlRecOn (motive := Surveys source root.children) root.children _ ⟨.inl rfl, nofun⟩
    fun scope h t ht => ?_
  split
  · next hkind => exact h.addPackage ht hkind
  · next hkind => exact h.addImport ht hkind
  · exact h

theorem surveys_ofTree (source : List Char) (root : Tree) :
    Surveys source root.children (Scope.ofTree source root) :=
  ⟨(surveys_ofHeader source root).package, (surveys_ofHeader source root).imports⟩

end Java.Index

namespace Project

variable {source : List Char} {sources : List (List Char)} {classes : List ClassInfo} {c : ClassInfo}
  {name : String}

open Java Overload in
/-- The classes of a source are copied from its declarations. -/
theorem copies_of_mem_indexSource? (h : indexSource? source = some classes) (hc : c ∈ classes) :
    ∃ root, parse? source = some root ∧ ∃ d ∈ root.declarations,
      (Scope.ofTree source root).fullName source d = c.fullName ∧
        Index.Copies source (Scope.ofTree source root) d c := by
  obtain ⟨root, hroot, d, hd, rfl⟩ := declared_of_mem_indexSource? h hc
  exact ⟨root, hroot, d, hd, (Index.fullName_classOf ..).symm, (Index.copies_classOf ..).reconcileClass _⟩

open Java in
/-- So are the classes of a project of sources. -/
theorem copies_of_get?_ofTexts (h : (ofTexts sources).classes.get? name = some c) :
    ∃ source ∈ sources, ∃ root, parse? source = some root ∧ ∃ d ∈ root.declarations,
      (Scope.ofTree source root).fullName source d = name ∧
        Index.Copies source (Scope.ofTree source root) d c := by
  obtain ⟨old, hold, rfl⟩ := Option.map_eq_some_iff.1 (Dict.get?_map.symm.trans h)
  obtain ⟨source, hsource, classes, hclasses, hmem, rfl⟩ := indexed_of_get?_ofList hold
  obtain ⟨root, hroot, d, hd, hname, hcopies⟩ := copies_of_mem_indexSource? hclasses hmem
  exact ⟨source, hsource, root, hroot, d, hd, hname, hcopies.reconcileClass _⟩

end Project

end Testwright
