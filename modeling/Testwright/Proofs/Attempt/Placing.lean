import Testwright.Proofs.Attempt.Inclusion
import Testwright.Proofs.Java.Spelling
import Testwright.Proofs.Project.Copying

/-!
# The place of the other members

The full context of a method is its context with the other members in front of the method. The place is that
of the last occurrence of its text. What the head of the class holds does not matter, it may have the same
text; but behind the method stands a closing brace on a line of its own, and an occurrence that begins later
ends in it. There is none if the text begins with another character than these two (`Findable`), as the text
of every method in a source does (`findable_ofTexts`).
-/

namespace Testwright.Assembly

open Java Java.Grammar

variable {σ : Type} {c : ClassInfo} {m : MethodInfo} {k name : String} {source : List Char}
  {sources : List (List Char)}

/-- A text begins neither with a line break nor with a closing brace, nor is it empty. -/
def Findable (s : String) : Prop := ∃ ch ∈ s.toList.head?, ch ≠ '\n' ∧ ch ≠ '\x7d'

theorem Findable.exists_mem {s : String} (h : Findable s) :
    ∃ ch ∈ s.toList, ch ≠ '\n' ∧ ch ≠ '\x7d' := by
  obtain ⟨ch, hch, hne⟩ := h
  exact ⟨ch, List.mem_of_mem_head? hch, hne⟩

/-! ## Methods of sources -/

/-- The text of a method begins with a token of its own, and no member begins with a closing brace. -/
theorem findable_of_copies {root : Tree} {d : Declared} (hroot : parse? source = some root)
    (hd : d ∈ root.declarations) (hcopies : Index.Copies source (Scope.ofTree source root) d c)
    (hm : c.methods.get? k = some m) : Findable m.source := by
  obtain ⟨all, htokens, hclass, -, -⟩ := Index.parsed_of_declared hroot hd
  obtain ⟨μ, X, hkept, hinfix⟩ := exists_kept_of_declared hroot htokens hd
  obtain ⟨t, ht, hkind, -, hsource⟩ := hcopies.methods k m hm
  have hmember : t.stripped ∈ d.decl.stripped.members :=
    Tree.mem_members_stripped ht (Tree.isNote_of_kind (by rw [hkind]; rfl))
  obtain ⟨ν, -, P, Y, Q, hY, rfl, -⟩ := hkept.exists_segment (by rwa [Tree.isClassLike_stripped]) hmember
  have hsub : Y <:+: P ++ (Y ++ Q) := (List.prefix_append Y Q).isInfix.trans (List.suffix_append P _).isInfix
  obtain ⟨ch, hch, hblank, hbrace⟩ := hY.exists_first htokens (hsub.trans hinfix)
  rw [Tree.chars_stripped] at hch
  refine ⟨ch, by rwa [hsource, Tree.text, String.toList_ofList], ?_, hbrace⟩
  rintro rfl
  exact absurd hblank (by decide)

theorem findable_ofTexts (hc : (Project.ofTexts sources).classes.get? name = some c)
    (hm : c.methods.get? k = some m) : Findable m.source := by
  obtain ⟨source, -, root, hroot, d, hd, -, hcopies⟩ := Project.copies_of_get?_ofTexts hc
  exact findable_of_copies hroot hd hcopies hm

/-! ## Contexts -/

/-- The context of a dossier has its target behind some text, and the full context has the other members
between the two, without blanks around them and with a blank line behind them. -/
structure Placed (d : Dossier) (head bodies : String) : Prop where
  context : d.context = head ++ d.methodSource ++ "\n\x7d"
  trimmed : bodies.toList = if Text.trim d.otherBodies.toList = [] then []
    else Text.trim d.otherBodies.toList ++ ['\n', '\n']
  fullContext : d.fullContext = head ++ bodies ++ d.methodSource ++ "\n\x7d"

theorem toList_spaced (s : String) : (spaced s).toList =
    if Text.trim s.toList = [] then [] else Text.trim s.toList ++ ['\n', '\n'] := by
  unfold spaced
  split
  · next htrim =>
    rw [if_pos htrim]
    rfl
  · next hne => rw [if_neg hne, String.toList_ofList]

/-- In the full context of a method whose text begins neither with a line break nor with a closing brace,
the other members stand right in front of the last copy of the method; and every method of a class in some
sources has such a text. -/
theorem fullContext_placed (p : Project) (resolve : Resolve σ) (depth attempt : Nat) (s : σ) (c : ClassInfo)
    (m : MethodInfo) :
    (Findable m.source → (assemble p resolve depth c m attempt s).1.methodSource = m.source ∧
      ∃ bodies, Placed (assemble p resolve depth c m attempt s).1 (classHead c) bodies) ∧
    ∀ sources name k, (Project.ofTexts sources).classes.get? name = some c → c.methods.get? k = some m →
      Findable m.source := by
  refine ⟨fun hfind => ?_, fun sources name k hc hm => findable_ofTexts hc hm⟩
  obtain ⟨hsource, hcontext, -⟩ := texts_assemble p resolve depth c m attempt s
  rw [← hsource] at hfind hcontext
  exact ⟨hsource, _, hcontext, toList_spaced _, fullContext_of_context hfind.exists_mem hcontext⟩

/-- A field that has the text of a method in it. -/
def twins : List (List Char) :=
  [("class Cart \x7b\n  Object twin = new Object() \x7b int total() \x7b return 1; \x7d \x7d;\n" ++
    "  Cart() \x7b \x7d\n  int total() \x7b return 1; \x7d\n\x7d\n").toList]

theorem fullContext_placed_twins : ∃ c m, (Project.ofTexts twins).classes.get? "Cart" = some c ∧
    c.methods.get? "total()" = some m ∧ Findable m.source ∧
    (∃ bodies, Placed (assemble {} (Resolver.resolve {} {}) 0 c m 0 {}).1 (classHead c) bodies) ∧
    (assemble {} (Resolver.resolve {} {}) 0 c m 0 {}).1.fullContext =
      "\nclass Cart \x7b\n    Object twin = new Object() \x7b int total() \x7b return 1; \x7d \x7d;\n\n" ++
        "Cart() \x7b \x7d\n\nint total() \x7b return 1; \x7d\n\x7d" := by
  have hfound : ((Project.ofTexts twins).classes.get? "Cart").bind (fun c =>
      (c.methods.get? "total()").map fun m =>
        (assemble {} (Resolver.resolve {} {}) 0 c m 0 {}).1.fullContext) =
      some ("\nclass Cart \x7b\n    Object twin = new Object() \x7b int total() \x7b return 1; \x7d \x7d;\n\n" ++
        "Cart() \x7b \x7d\n\nint total() \x7b return 1; \x7d\n\x7d") := by
    have htwins : twins = [_] := congrArg (fun source => [source])
      (Text.toList_append_literal (Text.toList_literal rfl) (Text.toList_literal rfl))
    rw [htwins]
    decide +kernel
  obtain ⟨c, hc, hfound⟩ := Option.bind_eq_some_iff.1 hfound
  obtain ⟨m, hm, hcontext⟩ := Option.map_eq_some_iff.1 hfound
  obtain ⟨hplaced, hindexed⟩ := fullContext_placed {} (Resolver.resolve {} {}) 0 0 {} c m
  have hfind := hindexed twins "Cart" "total()" hc hm
  exact ⟨c, m, hc, hm, hfind, (hplaced hfind).2, hcontext⟩

end Testwright.Assembly
