import Testwright.Proofs.Java.Briefs
import Testwright.Proofs.Project.Copying

/-!
# Methods without their bodies

The index keeps every method, as an accessor or under its signature, with the text of some method of the
declaration and with that text in front of the body, ended by a semicolon (`Java.Index.Abridges`). Alone in a class,
the latter declares a method of the same signature (`Project.declaresAlone_of_kept`), if no line comment stands
between the header and the body. That of a constructor does not, since there are no constructors without bodies.
-/

namespace Testwright

/-- A method without what it calls. -/
def MethodInfo.toMember (m : MethodInfo) : Member := ⟨m.signature, m.brief, m.source⟩

/-- The methods of a class, those that it keeps as accessors included. -/
def ClassInfo.keptMethods (c : ClassInfo) : List Member := c.accessors ++ c.methods.values.map MethodInfo.toMember

namespace Java.Index

variable {source : List Char} {scope : Scope} {fields : Types} {root t : Tree} {ts : List Tree} {d : Declared}
  {c : ClassInfo} {m : MethodInfo}

/-- What is kept of one of some methods. -/
structure Abridged (source : List Char) (t : Tree) (a : Testwright.Member) : Prop where
  signature : t.signature? source = some a.signature
  brief : a.brief = t.brief source
  source : a.source = t.text source

/-- Every method of a class is kept as one of some nodes. -/
structure Abridges (source : List Char) (ts : List Tree) (c : ClassInfo) : Prop where
  accessors : ∀ a ∈ c.accessors, ∃ t ∈ ts, t.kind = .methodDeclaration ∧ Abridged source t a
  methods : ∀ k m, c.methods.get? k = some m → ∃ t ∈ ts, t.kind = .methodDeclaration ∧ Abridged source t m.toMember

theorem abridged_of_method? {fullName simpleName : String}
    (h : method? source scope fullName simpleName fields t = some m) : Abridged source t m.toMember := by
  unfold method? at h
  split at h
  · next name signature hname hsignature =>
    cases h
    exact ⟨hsignature, rfl, rfl⟩
  · cases h

namespace Abridges

theorem addMethod (h : Abridges source ts c) (ht : t ∈ ts) (hkind : t.kind = .methodDeclaration)
    (hsettled : ∀ s, t.signature? source = some s → normalizeSignature s = s) :
    Abridges source ts (addMethod source scope fields c t) := by
  unfold Index.addMethod
  split
  · exact h
  · next info hinfo =>
    have habridged := abridged_of_method? hinfo
    refine ⟨fun a ha => ?_, fun k m hm => ?_⟩
    · rcases List.mem_append.1 ha with ha | ha
      · exact h.accessors a ha
      · split at ha
        · cases List.mem_singleton.1 ha
          exact ⟨t, ht, hkind, habridged⟩
        · cases ha
    · simp only [ClassInfo.insertMethod, Dict.get?_insert] at hm
      split at hm
      · cases hm
        have hkey : normalizeSignature info.signature = info.signature := hsettled _ habridged.signature
        rw [hkey]
        exact ⟨t, ht, hkind, habridged⟩
      · exact h.methods k m hm

theorem addMember (h : Abridges source ts c) (ht : t ∈ ts)
    (hsettled : t.kind = .methodDeclaration → ∀ s, t.signature? source = some s → normalizeSignature s = s) :
    Abridges source ts (addMember source scope fields c t) := by
  unfold Index.addMember
  split
  · unfold Index.addConstructor
    split
    · exact h
    · exact ⟨h.accessors, h.methods⟩
  · next hkind => exact h.addMethod ht hkind (hsettled hkind)
  · exact h

theorem reconcileClass (h : Abridges source ts c) (declared : String → Option (List String)) :
    Abridges source ts (Overload.reconcileClass declared c) := by
  refine ⟨h.accessors, fun k m hm => ?_⟩
  obtain ⟨old, hold, rfl⟩ := Option.map_eq_some_iff.1 (Dict.get?_map.symm.trans hm)
  exact h.methods k old hold

theorem of_mem_keptMethods {a : Testwright.Member} (h : Abridges source ts c) (ha : a ∈ c.keptMethods) :
    ∃ t ∈ ts, t.kind = .methodDeclaration ∧ Abridged source t a := by
  rcases List.mem_append.1 ha with ha | ha
  · exact h.accessors a ha
  · obtain ⟨m, hm, rfl⟩ := List.mem_map.1 ha
    obtain ⟨k, hk⟩ := Dict.mem_values.1 hm
    exact h.methods k m hk

end Abridges

theorem abridges_classOf (h : parse? source = some root) (hd : d ∈ root.declarations) :
    Abridges source d.decl.members (classOf source scope d) := by
  obtain ⟨words, htokens, -, -, hmembers⟩ := parsed_of_declared h hd
  refine List.foldlRecOn (motive := Abridges source d.decl.members) d.decl.members
    (Index.addMember source scope _) ⟨nofun, nofun⟩ fun c hc t ht => hc.addMember ht fun hkind s hs => ?_
  exact Tree.normalizeSignature_of_signature? htokens (hmembers t ht).formed (by rw [hkind]; rfl) hs

end Java.Index

namespace Project

open Java

variable {source : List Char} {classes : List ClassInfo} {c : ClassInfo} {a : Testwright.Member}

/-- **Briefs.** Every method that is kept of a source is one of the declaration of its class, with the text in front
of its body. Unless the header ends in a line comment, this text and a semicolon, alone in a class, declare a method
of the same signature. -/
theorem declaresAlone_of_kept (h : indexSource? source = some classes) (hc : c ∈ classes) (ha : a ∈ c.keptMethods) :
    ∃ root, parse? source = some root ∧ ∃ d ∈ root.declarations,
      (Scope.ofTree source root).fullName source d = c.fullName ∧ ∃ t ∈ d.decl.methods, Index.Abridged source t a ∧
        (t.hasOpenBrief source = false → DeclaresAlone (inClass a.brief.toList) a.signature) := by
  obtain ⟨root, hroot, d, hd, rfl⟩ := declared_of_mem_indexSource? h hc
  obtain ⟨t, ht, hkind, habridged⟩ := ((Index.abridges_classOf hroot hd).reconcileClass _).of_mem_keptMethods ha
  refine ⟨root, hroot, d, hd, (Index.fullName_classOf ..).symm, t, List.mem_filter.2 ⟨ht, by simp [hkind]⟩, habridged,
    fun hopen => ?_⟩
  rw [habridged.brief]
  exact declaresAlone_brief hroot hd ht hkind hopen habridged.signature

/-- Headers with an annotation, with comments, brackets and a clause behind the parameters, and with a line comment
that does not end the header. -/
def depot : List Char :=
  ("class Depot \x7b\n  @Old(1) /* late */ int load(final String... crates) /* all; */ [ ] throws Full /* \x7b */ " ++
    "\x7b\n    return null;\n  \x7d\n  boolean getOpen() // now\n  throws Shut /* ; */;\n\x7d\n").toList

theorem declaresAlone_of_kept_depot :
    (indexSource? depot).map (fun classes => classes.flatMap fun c =>
      c.keptMethods.map fun a => (a.signature, a.brief)) = some
        [("getOpen()", "boolean getOpen() // now\n  throws Shut /* ; */;"),
          ("getOpen()", "boolean getOpen() // now\n  throws Shut /* ; */;"),
          ("load(String...)",
            "@Old(1) /* late */ int load(final String... crates) /* all; */ [ ] throws Full /* \x7b */;")] ∧
    ∀ classes, indexSource? depot = some classes → ∀ c ∈ classes, ∀ a ∈ c.keptMethods,
      DeclaresAlone (inClass a.brief.toList) a.signature := by
  have hdepot : depot = _ := Text.toList_append_literal (Text.toList_literal rfl) (Text.toList_literal rfl)
  refine ⟨by rw [hdepot]; decide +kernel, fun classes hclasses c hc a ha => ?_⟩
  have hopen : ((parse? depot).map fun root => root.declarations.all fun d =>
      d.decl.methods.all fun t => !t.hasOpenBrief depot) = some true := by
    rw [hdepot]
    decide +kernel
  obtain ⟨root, hroot, d, hd, -, t, ht, -, hdeclares⟩ := declaresAlone_of_kept hclasses hc ha
  rw [hroot, Option.map_some, Option.some.injEq] at hopen
  have hmember := List.all_eq_true.1 (List.all_eq_true.1 hopen d hd) t ht
  exact hdeclares (by simpa using hmember)

/-- A class with a constructor. -/
def cartSource : List Char := "class Cart \x7b\nCart(int n) \x7b \x7d\n\x7d".toList

/-- A constructor without its body is no member of a class. -/
theorem constructor_not_alone : ∃ classes, indexSource? cartSource = some classes ∧ ∃ c ∈ classes, ∃ k ∈ c.constructors,
    k.brief = "Cart(int n);" ∧ parse? (inClass k.brief.toList) = none := by
  have hindex : ((indexSource? cartSource).map fun classes => classes.any fun c => c.constructors.any fun k =>
      k.brief == "Cart(int n);") = some true := by
    have hcart : cartSource = _ := Text.toList_literal rfl
    rw [hcart]
    decide +kernel
  have hparse : (parse? (inClass "Cart(int n);".toList)).isNone = true := by decide +kernel
  obtain ⟨classes, hclasses, hany⟩ := Option.map_eq_some_iff.1 hindex
  obtain ⟨c, hc, hany⟩ := List.any_eq_true.1 hany
  obtain ⟨k, hk, hbrief⟩ := List.any_eq_true.1 hany
  have hbrief := eq_of_beq hbrief
  exact ⟨classes, hclasses, c, hc, k, hk, hbrief, by rw [hbrief]; exact Option.isNone_iff_eq_none.1 hparse⟩

end Project

end Testwright
