import Testwright.Author.Prompt
import Testwright.Proofs.Attempt.Dependencies
import Testwright.Proofs.Text.Cutting

/-!
# What a prompt holds

A place holder has no brace inside, so two of them never overlap and a template can be cut at its
place holders in one way only (`Cut`). `pieces` follows this cut (`piecesFrom_text`), hence
`render` puts the values between the texts of the template and never looks into them.

In the part on dependencies every class has one section, since no class is in two of the maps.
-/

namespace Testwright.Prompt

/-! ## Place holders -/

/-- What can stand between the braces of a place holder. -/
def IsName (name : List Char) : Prop := name ≠ [] ∧ ∀ c ∈ name, isNameChar c = true

def braced (name : List Char) : List Char := '\x7b' :: (name ++ ['\x7d'])

/-- No place holder occurs in a text. -/
def Plain (s : List Char) : Prop := ∀ name, IsName name → ¬ braced name <:+: s

variable {name s r : List Char} {c : Char}

theorem placeholder?_braced (h : IsName name) (r : List Char) :
    placeholder? (braced name ++ r) = some name := by
  have hstop : Text.Past isNameChar ('\x7d' :: r) := by
    intro c hc
    cases hc
    decide
  obtain ⟨d, name, rfl⟩ := List.exists_cons_of_ne_nil h.1
  simp only [braced, List.cons_append, List.append_assoc, List.nil_append, placeholder?]
  rw [← List.cons_append, Text.takeWhile_run h.2 hstop, Text.dropWhile_run h.2 hstop]
  rfl

theorem placeholder?_eq_some : placeholder? s = some name ↔ IsName name ∧ braced name <+: s := by
  constructor
  · intro h
    unfold placeholder? at h
    split at h
    · next rest =>
      split at h
      · cases h
      · next back hdrop hne =>
        cases h
        refine ⟨⟨hne, fun c hc => List.all_eq_true.1 List.all_takeWhile c hc⟩, back, ?_⟩
        have hsplit := List.takeWhile_append_dropWhile (p := isNameChar) (l := rest)
        rw [hdrop] at hsplit
        simp [braced, hsplit]
      · cases h
    · cases h
  · rintro ⟨hname, r, rfl⟩
    exact placeholder?_braced hname r

/-! ## Pieces -/

theorem piecesFrom_skip (s r : List Char) : piecesFrom s.length (s ++ r) = piecesFrom 0 r := by
  induction s with
  | nil => rfl
  | cons c s ih => exact ih

theorem piecesFrom_braced (h : IsName name) (r : List Char) :
    piecesFrom 0 (braced name ++ r) = .placeholder name :: piecesFrom 0 r := by
  have hskip := piecesFrom_skip (name ++ ['\x7d']) r
  rw [List.length_append, List.length_singleton] at hskip
  have hfound := placeholder?_braced h r
  rw [braced, List.cons_append] at hfound ⊢
  rw [piecesFrom, hfound]
  exact congrArg _ hskip

theorem piecesFrom_cons (h : placeholder? (c :: s) = none) :
    piecesFrom 0 (c :: s) = .text c :: piecesFrom 0 s := by
  rw [piecesFrom, h]

/-- A place holder behind a text does not reach into it. -/
theorem placeholder?_append (hs : Plain (c :: s)) (hr : Text.Past (· != '\x7b') r) :
    placeholder? (c :: s ++ r) = none := by
  refine Option.eq_none_iff_forall_ne_some.2 fun name h => ?_
  obtain ⟨hname, t, ht⟩ := placeholder?_eq_some.1 h
  rcases List.append_eq_append_iff.1 ht with ⟨rest, hcs, -⟩ | ⟨rest, hbraced, hrest⟩
  · exact hs name hname ⟨[], rest, hcs.symm⟩
  · cases rest with
    | nil => exact hs name hname ⟨[], [], by simpa using hbraced⟩
    | cons d rest =>
      have hd : d = '\x7b' := by
        have := hr d (by simp [hrest])
        simpa using this
      subst hd
      have hmem : '\x7b' ∈ name ++ ['\x7d'] := by
        rw [braced, List.cons_append, List.cons.injEq] at hbraced
        simp [hbraced.2]
      rcases List.mem_append.1 hmem with hmem | hmem
      · exact absurd (hname.2 _ hmem) (by decide)
      · exact absurd hmem (by decide)

theorem plain_nil : Plain [] := fun _ _ h => by simp [braced] at h

theorem plain_tail (h : Plain (c :: s)) : Plain s :=
  fun name hname hs => h name hname (hs.trans (List.suffix_cons c s).isInfix)

theorem piecesFrom_plain (hs : Plain s) (hr : Text.Past (· != '\x7b') r) :
    piecesFrom 0 (s ++ r) = s.map .text ++ piecesFrom 0 r := by
  induction s with
  | nil => rfl
  | cons c s ih =>
    have hnone := placeholder?_append hs hr
    rw [List.cons_append] at hnone ⊢
    rw [piecesFrom_cons hnone, ih (plain_tail hs)]
    rfl

/-! ## Cuts -/

/-- A text cut at some names in braces. -/
inductive Cut where
  | last (text : String)
  | slot (text name : String) (rest : Cut)
  deriving DecidableEq, Repr

/-- The first of some values with a name; without one, the name in its braces. -/
def valueOf (values : List (String × String)) (name : String) : String :=
  (values.lookup name).getD ("\x7b" ++ name ++ "\x7d")

namespace Cut

/-- The text that was cut. -/
def text : Cut → String
  | last s => s
  | slot s name rest => s ++ "\x7b" ++ name ++ "\x7d" ++ rest.text

/-- The text with values in place of the names. -/
def filled (values : List (String × String)) : Cut → String
  | last s => s
  | slot s name rest => s ++ valueOf values name ++ rest.filled values

/-- The names stand in place holders and there are no other place holders. -/
def Sound : Cut → Prop
  | last s => Plain s.toList
  | slot s name rest => Plain s.toList ∧ IsName name.toList ∧ rest.Sound

def pieces : Cut → List Piece
  | last s => s.toList.map .text
  | slot s name rest => s.toList.map .text ++ .placeholder name.toList :: rest.pieces

/-- A character in front of the text that was cut. -/
def cons (c : Char) : Cut → Cut
  | last s => last (.ofList (c :: s.toList))
  | slot s name rest => slot (.ofList (c :: s.toList)) name rest

/-- The cut with given pieces. -/
def ofPieces : List Piece → Cut
  | [] => last ""
  | .text c :: rest => (ofPieces rest).cons c
  | .placeholder name :: rest => slot "" (.ofList name) (ofPieces rest)

theorem toList_text_slot (s name : String) (rest : Cut) :
    (slot s name rest).text.toList = s.toList ++ (braced name.toList ++ rest.text.toList) := by
  simp [text, braced]

theorem toList_text_cons (c : Char) (k : Cut) : (k.cons c).text.toList = c :: k.text.toList := by
  cases k with
  | last s => exact String.toList_ofList
  | slot s name rest =>
    rw [cons, toList_text_slot, toList_text_slot, String.toList_ofList, List.cons_append]

theorem ofPieces_pieces (k : Cut) : ofPieces k.pieces = k := by
  have prepend (s : List Char) (ps : List Piece) :
      ofPieces (s.map .text ++ ps) = s.foldr cons (ofPieces ps) := by
    induction s with
    | nil => rfl
    | cons c s ih => exact congrArg (cons c) ih
  induction k with
  | last s =>
    have fold (s : List Char) : s.foldr cons (last "") = last (.ofList s) := by
      induction s with
      | nil => rfl
      | cons c s ih => rw [List.foldr_cons, ih, cons, String.toList_ofList]
    have := prepend s.toList []
    rwa [List.append_nil, ofPieces, fold, String.ofList_toList] at this
  | slot s name rest ih =>
    have fold (s : List Char) : s.foldr cons (slot "" name rest) = slot (.ofList s) name rest := by
      induction s with
      | nil => rfl
      | cons c s ih => rw [List.foldr_cons, ih, cons, String.toList_ofList]
    rw [pieces, prepend, ofPieces, String.ofList_toList, ih, fold, String.ofList_toList]

/-- The pieces of a text are those of its cut. -/
theorem piecesFrom_text {k : Cut} (h : k.Sound) : piecesFrom 0 k.text.toList = k.pieces := by
  induction k with
  | last s =>
    have hpieces := piecesFrom_plain (r := []) h nofun
    rwa [List.append_nil, piecesFrom, List.append_nil] at hpieces
  | slot s name rest ih =>
    obtain ⟨hs, hname, hrest⟩ := h
    have hpast : Text.Past (· != '\x7b') (braced name.toList ++ rest.text.toList) := by
      intro c hc
      cases hc
      decide
    rw [toList_text_slot, piecesFrom_plain hs hpast, piecesFrom_braced hname, ih hrest, pieces]

theorem sound_cons {k : Cut} (h : k.Sound) (hnone : placeholder? (c :: k.text.toList) = none) :
    (k.cons c).Sound := by
  have plain {s r : List Char} (hs : Plain s) (hnone : placeholder? (c :: (s ++ r)) = none) :
      Plain (String.ofList (c :: s)).toList := by
    intro name hname hin
    rw [String.toList_ofList] at hin
    rcases List.infix_cons_iff.1 hin with hpre | hin
    · have hsome : placeholder? (c :: (s ++ r)) = some name :=
        placeholder?_eq_some.2 ⟨hname, hpre.trans (List.prefix_append (c :: s) r)⟩
      simp [hnone] at hsome
    · exact hs name hname hin
  cases k with
  | last s => exact plain (r := []) h (by rwa [List.append_nil])
  | slot s name rest =>
    rw [toList_text_slot] at hnone
    exact ⟨plain h.1 hnone, h.2⟩

/-- Every text can be cut at its place holders. -/
theorem exists_sound (s : List Char) : ∃ k : Cut, k.Sound ∧ k.text.toList = s := by
  match s with
  | [] => exact ⟨last "", plain_nil, rfl⟩
  | c :: s =>
    cases hfound : placeholder? (c :: s) with
    | none =>
      obtain ⟨k, hk, htext⟩ := exists_sound s
      exact ⟨k.cons c, sound_cons hk (htext ▸ hfound), by rw [toList_text_cons, htext]⟩
    | some name =>
      obtain ⟨hname, r, hr⟩ := placeholder?_eq_some.1 hfound
      have hshort : r.length ≤ s.length := by
        have hlength := congrArg List.length hr
        rw [List.length_append, braced, List.length_cons, List.length_cons] at hlength
        omega
      obtain ⟨k, hk, htext⟩ := exists_sound r
      refine ⟨slot "" (.ofList name) k, ⟨plain_nil, ?_, hk⟩, ?_⟩
      · rwa [String.toList_ofList]
      · simp [toList_text_slot, htext, ← hr]
termination_by s.length

/-- A text can be cut at its place holders in one way only. -/
theorem sound_unique {k k' : Cut} (h : k.Sound) (h' : k'.Sound) (htext : k.text = k'.text) :
    k = k' := by
  rw [← ofPieces_pieces k, ← piecesFrom_text h, htext, piecesFrom_text h', ofPieces_pieces]

end Cut

/-! ## Rendering -/

theorem fill_placeholder (values : List (String × String)) (name : String) :
    fill values (.placeholder name.toList) = (valueOf values name).toList := by
  induction values with
  | nil => simp [fill, valueOf]
  | cons v values ih =>
    obtain ⟨n, value⟩ := v
    by_cases h : name = n
    · subst h
      simp [fill, valueOf]
    · have hne : n.toList ≠ name.toList := fun heq => h (String.toList_inj.1 heq).symm
      simpa [fill, valueOf, List.lookup_cons, hne, beq_false_of_ne h] using ih

theorem flatMap_fill (values : List (String × String)) (k : Cut) :
    k.pieces.flatMap (fill values) = (k.filled values).toList := by
  have texts (s : List Char) : (s.map Piece.text).flatMap (fill values) = s := by
    induction s with
    | nil => rfl
    | cons c s ih => exact congrArg (c :: ·) ih
  induction k with
  | last s => exact texts s.toList
  | slot s name rest ih =>
    rw [Cut.pieces, List.flatMap_append, texts, List.flatMap_cons, ih, fill_placeholder,
      Cut.filled, String.toList_append, String.toList_append, List.append_assoc]

theorem render_text {k : Cut} (h : k.Sound) (values : List (String × String)) :
    render k.text values = k.filled values := by
  rw [render, pieces, Cut.piecesFrom_text h, flatMap_fill, String.ofList_toList]

/-! ## Requests -/

theorem plain_of_not_mem (h : '\x7b' ∉ s) : Plain s :=
  fun _ _ hin => h (hin.subset List.mem_cons_self)

namespace Cut

/-- A check that is enough for soundness: no text has an opening brace. -/
def isBraceless : Cut → Bool
  | last s => !s.toList.contains '\x7b'
  | slot s name rest =>
    !s.toList.contains '\x7b' && !name.toList.isEmpty && name.toList.all isNameChar &&
      rest.isBraceless

theorem sound_of_isBraceless {k : Cut} (h : k.isBraceless = true) : k.Sound := by
  induction k with
  | last s => exact plain_of_not_mem (by simpa [isBraceless] using h)
  | slot s name rest ih =>
    simp only [isBraceless, Bool.and_eq_true, Bool.not_eq_true', List.all_eq_true] at h
    obtain ⟨⟨⟨hs, hne⟩, hname⟩, hrest⟩ := h
    exact ⟨plain_of_not_mem (by simpa using hs), ⟨by simpa using hne, hname⟩, ih hrest⟩

end Cut

/-- The template of the request for a first test, cut at its place holders. -/
def generationCut : Cut :=
  .slot "Write unit tests for `" "method_signature" <|
  .slot "` in class `" "class_name" <|
  .slot "`.\n\nName the test class `" "test_class_name" <|
  .slot "` and declare it in package `" "package" <|
  .slot "`.\n\n## Class under test\n\n```java\n" "context" <|
  .slot "\n```\n\n## Other members of the class\n\n```java\n" "other_method_brief" <|
  .slot "\n```\n" "dependencies" <|
  .last "\n"

/-- The template of the request to repair a test, cut at its place holders. -/
def repairCut : Cut :=
  .slot "The test class below for `" "method_signature" <|
  .slot "` in `" "class_name" <|
  .slot "` failed (round " "round" <|
  .slot ").\n\n## Failing test\n\n```java\n" "test_source" <|
  .slot "\n```\n\n## Compiler and test runner output\n\n```\n" "diagnostics" <|
  .slot "\n```\n\nFix the test so it compiles and passes. Keep the class name `"
    "test_class_name" <|
  .slot "` and package `" "package" <|
  .slot ("`.\nRemove assertions you cannot justify from the code under test rather than " ++
      "guessing.\n\n## Class under test\n\n```java\n") "context" <|
  .slot "\n```\n" "dependencies" <|
  .last "\n"

theorem generationCut_spec : generationCut.text = generationTemplate ∧ generationCut.isBraceless = true := by
  decide +kernel

theorem repairCut_spec : repairCut.text = repairTemplate ∧ repairCut.isBraceless = true := by
  decide +kernel

/-! ## Dependencies -/

open Assembly

/-- The maps of dependencies with their titles. -/
def chapters (d : Dossier) : List (String × Dict String) :=
  [("Constructor dependencies", d.constructorDeps),
    ("Constructor dependencies (from compiled libraries)", d.externalConstructorDeps),
    ("Called classes", d.methodDeps),
    ("Called classes (from compiled libraries)", d.externalMethodDeps)]

/-- The section of one class. -/
def classSection (e : String × String) : String :=
  "\n### `" ++ e.1 ++ "`\n\n" ++ javaBlock e.2

theorem dependencies_eq (d : Dossier) :
    dependencies d = String.join ((chapters d).map fun chapter =>
      if chapter.2.isEmpty then ""
      else "\n## " ++ chapter.1 ++ "\n" ++ String.join (chapter.2.entries.map classSection)) := by
  have hjoin : dependencies d = String.join ((chapters d).map fun chapter =>
      depsSection chapter.1 chapter.2) := by
    simp only [dependencies, chapters, List.map_cons, List.map_nil, String.join_cons,
      String.join_nil, String.append_empty, String.append_assoc]
  exact hjoin

theorem count_keys (map : Dict String) (name : String) :
    map.keys.count name = if map.contains name then 1 else 0 := by
  simp only [map.nodup_keys.count, Dict.mem_keys]

theorem count_chapters {d : Dossier} (h : d.maps.Pairwise Dict.Disjoint) (name : String) :
    ((chapters d).flatMap (·.2.keys)).count name = if d.hasDependency name then 1 else 0 := by
  obtain ⟨⟨hab, hac, had⟩, ⟨hbc, hbd⟩, hcd⟩ := Dossier.pairwise_maps.1 h
  simp only [chapters, List.flatMap_cons, List.flatMap_nil, List.count_append, count_keys,
    List.count_nil, Dossier.hasDependency]
  have := hab name
  have := hac name
  have := had name
  have := hbc name
  have := hbd name
  have := hcd name
  grind

/-- Every template can be cut at its place holders in exactly one way, and rendering puts for each
the first value of its name, or keeps it. So the requests are the fixed texts between the values as
they are. The part on dependencies of an assembled and enriched dossier is made of the sections of
the classes it depends on, one for each. -/
theorem requests_verbatim :
    (∀ (template : String) (values : List (String × String)), ∃ cut : Cut,
      (∀ other : Cut, other.Sound ∧ other.text = template ↔ other = cut) ∧
        render template values = cut.filled values) ∧
    (∀ d : Dossier, generation d =
      "Write unit tests for `" ++ d.methodSignature ++ "` in class `" ++ d.className ++
      "`.\n\nName the test class `" ++ d.testClassName ++ "` and declare it in package `" ++
      packageOf d ++ "`.\n\n## Class under test\n\n```java\n" ++ d.fullContext ++
      "\n```\n\n## Other members of the class\n\n```java\n" ++ onChars Text.trim d.otherBriefs ++
      "\n```\n" ++ dependencies d ++ "\n") ∧
    (∀ (d : Dossier) (test : UnitTest) (diagnostics : String), repair d test diagnostics =
      "The test class below for `" ++ d.methodSignature ++ "` in `" ++ d.className ++
      "` failed (round " ++ toString d.round ++ ").\n\n## Failing test\n\n```java\n" ++
      onChars Text.trim test.source ++
      "\n```\n\n## Compiler and test runner output\n\n```\n" ++
      onChars (fun s => clip maxDiagnostics (Text.trim s)) diagnostics ++
      "\n```\n\nFix the test so it compiles and passes. Keep the class name `" ++
      d.testClassName ++ "` and package `" ++ packageOf d ++
      ("`.\nRemove assertions you cannot justify from the code under test rather than " ++
        "guessing.\n\n## Class under test\n\n```java\n") ++ d.fullContext ++
      "\n```\n" ++ dependencies d ++ "\n") ∧
    ∀ (σ : Type) (p : Project) (resolve : Resolve σ) (depth : Nat) (c : ClassInfo) (m : MethodInfo)
      (attempt : Nat) (s : σ) (calls : List (Names × σ)),
      let d := enrichAll p resolve (assemble p resolve depth c m attempt s).1 calls
      dependencies d = String.join ((chapters d).map fun chapter =>
        if chapter.2.isEmpty then ""
        else
          "\n## " ++ chapter.1 ++ "\n" ++ String.join (chapter.2.entries.map classSection)) ∧
      ∀ name, ((chapters d).flatMap (·.2.keys)).count name =
        if d.hasDependency name then 1 else 0 := by
  refine ⟨fun template values => ?_, fun d => ?_, fun d test diagnostics => ?_,
    fun σ p resolve depth c m attempt s calls => ⟨dependencies_eq _, count_chapters ?_⟩⟩
  · obtain ⟨cut, hsound, htext⟩ := Cut.exists_sound template.toList
    have htext : cut.text = template := String.toList_inj.1 htext
    refine ⟨cut, fun other => ⟨fun ⟨hother, heq⟩ => ?_, ?_⟩, ?_⟩
    · exact Cut.sound_unique hother hsound (heq.trans htext.symm)
    · rintro rfl
      exact ⟨hsound, htext⟩
    · rw [← htext, render_text hsound]
  · obtain ⟨htext, hbraceless⟩ := generationCut_spec
    rw [generation, ← htext, render_text (Cut.sound_of_isBraceless hbraceless)]
    simp only [generationCut, Cut.filled, valueOf, List.lookup_cons, String.reduceBEq,
      Option.getD_some, String.append_assoc]
  · obtain ⟨htext, hbraceless⟩ := repairCut_spec
    rw [repair, ← htext, render_text (Cut.sound_of_isBraceless hbraceless)]
    simp only [repairCut, Cut.filled, valueOf, List.lookup_cons, String.reduceBEq,
      Option.getD_some, String.append_assoc]
  · exact (wellFiled_enrichAll (wellFiled_assemble p resolve depth c m attempt s) calls).disjoint

example : render "\x7ba\x7d \x7bb\x7d \x7bc\x7d" [("a", "\x7bb\x7d"), ("b", "x"), ("a", "y")] =
    "\x7bb\x7d x \x7bc\x7d" := by
  decide +kernel

end Testwright.Prompt
