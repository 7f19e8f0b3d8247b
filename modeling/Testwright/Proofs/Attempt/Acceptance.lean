import Testwright.Proofs.Attempt.Inclusion
import Testwright.Proofs.Java.Spelling
import Testwright.Proofs.Project.Copying

/-!
# Contexts that are accepted

A full context is glued from texts that the index has copied. Each of them spells what it stands for wherever it
is put (`Spelled`), so they spell a class together (`Spelled.context`), and the parser accepts the context. The
header is the exception: a line comment at its end takes in the brace behind it, and an enumeration would need
its constants in front of the members (`HeaderCloses`).
-/

namespace Testwright

open Java Java.Grammar

namespace Assembly

variable {σ : Type} {ν : Rule Variable} {c : ClassInfo} {m : MethodInfo} {source : List Char}
  {all : List Token} {ts : List Tree} {kinds : List Kind} {s k : String} {l : List String}

/-! ## Texts one after the other -/

theorem spells_join (h : ∀ s ∈ l, Spells ν s.toList) : Spells ν (String.join l).toList := by
  rw [String.toList_join, List.flatMap_def]
  refine .flatten fun u hu => ?_
  obtain ⟨s, hs, rfl⟩ := List.mem_map.1 hu
  exact h s hs

theorem spells_between {front back : String} (h : Spells ν s.toList)
    (hfront : ∀ ch ∈ front.toList, Token.isSpace ch = true)
    (hback : ∀ ch ∈ back.toList, Token.isSpace ch = true) : Spells ν (front ++ s ++ back).toList := by
  rw [String.toList_append, String.toList_append]
  exact ((Spells.blank hfront).append h).append (.blank hback)

theorem past_join (h : ∀ s ∈ l, Neat s.toList) :
    Text.Past Text.isBlank (String.join (l.map fun s => s ++ "\n\n")).toList := by
  cases l with
  | nil => exact nofun
  | cons s l =>
    have hs := h s List.mem_cons_self
    rw [String.toList_join, List.map_cons, List.flatMap_cons, String.toList_append, List.append_assoc]
    exact Text.past_append_of_ne_nil hs.first hs.full

/-- A list of sources has no other blanks around it than those that are put there. -/
theorem spaced_join (h : ∀ s ∈ l, Neat s.toList) :
    spaced (String.join (l.map fun s => s ++ "\n\n")) = String.join (l.map fun s => s ++ "\n\n") := by
  rcases List.eq_nil_or_concat l with rfl | ⟨l, s, rfl⟩
  · rfl
  · rw [List.concat_eq_append] at h ⊢
    have hs := h s (by simp)
    have hl := past_join fun s hs => h s (List.mem_append_left _ hs)
    generalize hu : (String.join (l.map fun s => s ++ "\n\n")).toList = u at hl
    have htext : (String.join ((l ++ [s]).map fun s => s ++ "\n\n")).toList =
        u ++ s.toList ++ ['\n', '\n'] := by
      rw [← hu]
      simp [String.toList_join]
    have hne : u ++ s.toList ≠ [] := by simp [hs.full]
    have hlast : Text.Past Text.isBlank (u ++ s.toList).reverse := by
      rw [List.reverse_append]
      exact Text.past_append_of_ne_nil hs.last (by simpa using hs.full)
    have htrim : Text.trim ([] ++ (u ++ s.toList ++ ['\n', '\n'])) = u ++ s.toList :=
      Text.trim_append nofun (by decide) hne (Text.past_append hl hs.first) hlast
    rw [List.nil_append] at htrim
    rw [← String.toList_inj, spaced, htext, htrim]
    split
    · contradiction
    · exact String.toList_ofList

/-! ## The texts of a class -/

/-- The texts of a class may be put together: a package and imports stand in front of a declaration, a header
closes around members, and fields, constructors and methods are members. -/
structure Spelled (ν : Rule Variable) (c : ClassInfo) : Prop where
  package : Spells element c.package.toList
  imports : ∀ i ∈ c.imports, Spells element i.toList
  closes : ∀ u, Spells ν u → Spells element (c.header.toList ++ ([' ', '\x7b'] ++ (u ++ ['\x7d'])))
  fields : ∀ f ∈ c.fields, Spells ν f.toList
  constructors : ∀ k ∈ c.constructors, Spells ν k.source.toList ∧ Neat k.source.toList
  accessors : ∀ a ∈ c.accessors, Spells ν a.source.toList ∧ Neat a.source.toList
  methods : ∀ k m, c.methods.get? k = some m → Spells ν m.source.toList ∧ Neat m.source.toList

theorem Spelled.others (h : Spelled ν c) :
    ∀ s ∈ (otherMembers c m).map Prod.snd, Spells ν s.toList ∧ Neat s.toList := by
  intro s hs
  simp only [otherMembers, List.map_append, List.map_map, List.mem_append, List.mem_map,
    Function.comp_apply] at hs
  rcases hs with (⟨k, hk, rfl⟩ | ⟨a, ha, rfl⟩) | ⟨callee, hcallee, rfl⟩
  · exact h.constructors k hk
  · exact h.accessors a ha
  · obtain ⟨_, _, hmethod⟩ := List.mem_flatMap.1 (List.mem_of_mem_filter hcallee)
    obtain ⟨signature, -, hmethod⟩ := List.mem_filterMap.1 hmethod
    exact h.methods _ _ hmethod

/-- The head of a class, other members, a method and a brace spell a class. -/
theorem Spelled.context (h : Spelled ν c) (hm : c.methods.get? k = some m) :
    Spells element (classHead c ++ spaced (String.join ((otherMembers c m).map fun o => o.2 ++ "\n\n")) ++
      m.source ++ "\n\x7d").toList := by
  have hothers := h.others (m := m)
  have hmap : (otherMembers c m).map (fun o => o.2 ++ "\n\n") =
      ((otherMembers c m).map Prod.snd).map fun s => s ++ "\n\n" := by
    rw [List.map_map]
    rfl
  rw [hmap, spaced_join fun s hs => (hothers s hs).2]
  generalize (otherMembers c m).map Prod.snd = others at hothers
  have hpackage : Spells element ("" ++ c.package ++ "\n").toList :=
    spells_between h.package nofun (by decide)
  have himports : Spells element (String.join (c.imports.map fun i => "" ++ i ++ "\n")).toList :=
    spells_join (List.forall_mem_map.2 fun i hi => spells_between (h.imports i hi) nofun (by decide))
  have hfields : Spells ν (String.join (c.fields.map fun f => "    " ++ f ++ "\n")).toList :=
    spells_join (List.forall_mem_map.2 fun f hf =>
      spells_between (h.fields f hf) (by decide) (by decide))
  have hmembers : Spells ν (String.join (others.map fun s => "" ++ s ++ "\n\n")).toList :=
    spells_join (List.forall_mem_map.2 fun s hs => spells_between (hothers s hs).1 nofun (by decide))
  have hmethod : Spells ν ("" ++ m.source ++ "\n").toList :=
    spells_between (h.methods k m hm).1 nofun (by decide)
  have hbreak : Spells ν ['\n'] := .blank (by decide)
  have hbody := hbreak.append (hfields.append (hbreak.append (hmembers.append hmethod)))
  have hall := hpackage.append (himports.append (h.closes _ hbody))
  simpa [classHead] using hall

/-- The texts of members or of a scope spell what they stand for. -/
theorem spells_of_quotes (htokens : tokens? source = some all) (hready : (Rule.many ν).Ready known cost)
    (h : Index.Quotes source kinds ts s)
    (hts : ∀ t ∈ ts, t.kind ∈ kinds → ∃ X, Segment ν X t.stripped ∧ X <:+: code all) :
    Spells ν s.toList ∧ Neat s.toList := by
  obtain ⟨t, ht, hkind, hs⟩ := h
  obtain ⟨X, hX, hinfix⟩ := hts t ht hkind
  have hspells := hX.spells htokens hready hinfix
  rw [Tree.chars_stripped] at hspells
  rcases hs with rfl | rfl
  · rwa [Tree.text, String.toList_ofList]
  · rwa [String.toList_ofList, hspells.2.trim]

/-- A class that has a method and is copied from a declaration that is no enumeration and whose header does not
end in a line comment may be put together. -/
theorem exists_spelled {root : Tree} {d : Declared} (hroot : parse? source = some root)
    (hd : d ∈ root.declarations) (hcopies : Index.Copies source (Scope.ofTree source root) d c)
    (hm : c.methods.get? k = some m) (hkind : d.decl.kind ≠ .enumDeclaration)
    (hopen : d.decl.hasOpenHeader source = false) : ∃ ν, Spelled ν c := by
  obtain ⟨all, htokens, hclass, -, -⟩ := Index.parsed_of_declared hroot hd
  obtain ⟨μ, X, hkept, hinfix⟩ := exists_kept_of_declared hroot htokens hd
  have hmember {t : Tree} (ht : t ∈ d.decl.members) (htkind : t.kind ∈ Index.memberKinds) :
      t.stripped ∈ d.decl.stripped.members := by
    have hnone : ∀ kind ∈ Index.memberKinds, kind.isComment = false := by decide
    exact Tree.mem_members_stripped ht (Tree.isNote_of_kind (hnone _ htkind))
  obtain ⟨t, ht, htkind, -⟩ := hcopies.methods k m hm
  obtain ⟨ν, H, hframe, hmembers⟩ := hkept.exists_frame (by rwa [Tree.isClassLike_stripped])
    (by rwa [Tree.kind_stripped])
    (List.ne_nil_of_mem (hmember ht (by simp [htkind, Index.memberKinds])))
  have member {s : String} (h : Index.Quotes source Index.memberKinds d.decl.members s) :
      Spells ν s.toList ∧ Neat s.toList := by
    refine spells_of_quotes htokens hframe.ready h fun t ht htkind => ?_
    obtain ⟨Y, hY, hsub⟩ := hmembers _ (hmember ht htkind)
    exact ⟨Y, hY, hsub.trans hinfix⟩
  have scope {s : String} (h : Index.Quotes source Index.scopeKinds root.children s) :
      Spells element s.toList := by
    refine (spells_of_quotes htokens ready_elements h fun t ht htkind => ?_).1
    have hindexed : ∀ kind ∈ Index.scopeKinds, isIndexed kind = true := by decide
    obtain ⟨Y, hY, hsub⟩ := exists_kept_of_child hroot htokens ht (hindexed _ htkind)
    exact ⟨Y, hY.segment.element, hsub⟩
  have hsurveys := Index.surveys_ofTree source root
  refine ⟨ν, ?_, fun i hi => ?_, fun u hu => ?_, fun f hf => (member (hcopies.fields f hf)).1,
    fun k hk => member (hcopies.constructors k hk), fun a ha => member (hcopies.accessors a ha),
    fun k m hm => member (hcopies.method hm)⟩
  · rw [hcopies.package]
    rcases hsurveys.package with hnone | hpackage
    · rw [hnone]
      exact .blank fun ch hch => absurd hch List.not_mem_nil
    · exact scope hpackage
  · rw [hcopies.imports] at hi
    exact scope (hsurveys.imports i hi)
  · have hportable := (hframe.portable htokens hkept.segment.spanned hinfix
      (by rwa [Tree.hasOpenHeader_stripped])).1
    rw [Tree.header_stripped] at hportable
    rw [hcopies.header, String.toList_ofList]
    exact hframe.spells hportable hu

/-! ## Full contexts -/

/-- No class of a name in a source is an enumeration or has a header that ends in a line comment. -/
def HeaderCloses (source : List Char) (name : String) : Prop :=
  ∀ root ∈ parse? source, ∀ d ∈ root.declarations, (Scope.ofTree source root).fullName source d = name →
    d.decl.kind ≠ .enumDeclaration ∧ d.decl.hasOpenHeader source = false

instance (source : List Char) (name : String) : Decidable (HeaderCloses source name) := by
  unfold HeaderCloses
  infer_instance

/-- The full context of a method of a class in a source is accepted by the parser if the class is no
enumeration and its header does not end in a line comment. -/
theorem fullContext_parsed (p : Project) (resolve : Resolve σ) (depth attempt : Nat) (s : σ)
    {classes : List ClassInfo} (h : indexSource? source = some classes) (hc : c ∈ classes)
    (hheader : HeaderCloses source c.fullName) (hm : c.methods.get? k = some m) :
    (parse? (assemble p resolve depth c m attempt s).1.fullContext.toList).isSome = true := by
  obtain ⟨root, hroot, d, hd, hname, hcopies⟩ := Project.copies_of_mem_indexSource? h hc
  obtain ⟨hkind, hopen⟩ := hheader root hroot d hd hname
  obtain ⟨ν, hspelled⟩ := exists_spelled hroot hd hcopies hm hkind hopen
  obtain ⟨words, htokens, -, -, hparsed⟩ := Index.parsed_of_declared hroot hd
  obtain ⟨t, ht, htkind, ⟨name, htname⟩, hsource⟩ := hcopies.methods k m hm
  obtain ⟨ch, hch, hword⟩ := (hparsed t ht).exists_mem_chars htokens (by rw [htkind]; rfl) htname
  rw [fullContext_assemble p resolve depth attempt s]
  · exact (hspelled.context hm).isSome_parse?
  · exact unclosed_of_worded ⟨ch, by rwa [hsource, Tree.text, String.toList_ofList], hword⟩

/-- A class with a package, imports and comments, and a record in it. -/
def stall : List Char :=
  ("package fair; // of the town\nimport java.util.List;\n\n/** Sells. */\nclass Stall /* small */ \x7b\n" ++
    "  int sum; // so far\n  Stall(int n) \x7b sum = n; \x7d\n  int total() \x7b return tax() + sum; \x7d\n" ++
    "  int tax() \x7b /* none */ return 0; \x7d\n" ++
    "  record Lot(int size) \x7b int half() \x7b return size / 2; \x7d \x7d\n\x7d\n").toList

theorem fullContext_parsed_stall : ∃ classes c m, indexSource? stall = some classes ∧ c ∈ classes ∧
    HeaderCloses stall c.fullName ∧ c.methods.get? "total()" = some m ∧
    (parse? (assemble {} (Resolver.resolve {} {}) 1 c m 0 {}).1.fullContext.toList).isSome = true := by
  have hsome : ((indexSource? stall).any fun classes => classes.any fun c =>
      decide (HeaderCloses stall c.fullName) && c.methods.contains "total()") = true := by
    have hstall : stall = _ := Text.toList_append_literal (Text.toList_append_literal (Text.toList_append_literal
      (Text.toList_literal rfl) (Text.toList_literal rfl)) (Text.toList_literal rfl)) (Text.toList_literal rfl)
    rw [hstall]
    decide +kernel
  obtain ⟨classes, hclasses, hany⟩ := (Option.any_eq_true _ _).1 hsome
  obtain ⟨c, hc, hfound⟩ := List.any_eq_true.1 hany
  obtain ⟨hcloses, hcontains⟩ := Bool.and_eq_true_iff.1 hfound
  have hcloses : HeaderCloses stall c.fullName := of_decide_eq_true hcloses
  obtain ⟨m, hm⟩ := Option.isSome_iff_exists.1 hcontains
  exact ⟨classes, c, m, hclasses, hc, hcloses, hm,
    fullContext_parsed {} (Resolver.resolve {} {}) 1 0 {} hclasses hc hcloses hm⟩

end Assembly

end Testwright
