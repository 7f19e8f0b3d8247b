import Testwright.Proofs.Author.Headings

/-!
# Tests and their names

The name of a test in an answer is what its own source says (`test?_named`): a package line in front of
the code is found where the code has none, hides no class, and nothing that reads in the code reads
otherwise behind it.
-/

namespace Testwright.Answer

open Text (Past)

variable {s r rest front name package line : List Char}

/-! ## A line feed at the end -/

theorem trimStart_append_feed :
    Text.trimStart (s ++ ['\n']) = if Text.trimStart s = [] then [] else Text.trimStart s ++ ['\n'] := by
  rw [Text.trimStart, Text.trimStart, List.dropWhile_append]
  simp only [List.isEmpty_iff]
  rfl

theorem eq_of_append_feed {c : Char} (h : rest ++ [c] = s ++ ['\n']) : rest = s ∧ c = '\n' := by
  obtain ⟨hfront, hlast⟩ := List.append_inj' h rfl
  exact ⟨hfront, List.singleton_inj.1 hlast⟩

theorem Heading.append_feed (h : Heading name s) : Heading name (s ++ ['\n']) := by
  induction h with
  | @keyword gap rest gapped ends =>
    rw [List.append_assoc, List.append_assoc, List.append_assoc]
    refine .keyword gapped ?_
    cases rest with
    | nil => exact fun c hc => Option.some.inj hc ▸ rfl
    | cons d rest => exact ends
  | @modifier word gap rest mem gapped others ih =>
    rw [List.append_assoc, List.append_assoc]
    exact .modifier mem gapped ih

theorem Heading.of_append_feed (hname : IsName name) (h : Heading name (s ++ ['\n'])) :
    Heading name s := by
  generalize ht : s ++ ['\n'] = t at h
  induction h generalizing s with
  | @keyword gap rest gapped ends =>
    rcases List.eq_nil_or_concat rest with rfl | ⟨rest, c, rfl⟩
    · -- the name would end in the line feed
      rcases List.eq_nil_or_concat name with rfl | ⟨name, c, rfl⟩
      · cases hname
      · rw [List.append_nil, List.concat_eq_append, ← List.append_assoc, ← List.append_assoc] at ht
        obtain ⟨-, rfl⟩ := eq_of_append_feed ht.symm
        have hfeed := hname.chars '\n' (by simp)
        cases hfeed
    · rw [List.concat_eq_append, ← List.append_assoc, ← List.append_assoc, ← List.append_assoc] at ht
      obtain ⟨rfl, rfl⟩ := eq_of_append_feed ht.symm
      rw [List.append_assoc, List.append_assoc]
      refine .keyword gapped ?_
      cases rest with
      | nil => nofun
      | cons d rest => exact ends
  | @modifier word gap rest mem gapped others ih =>
    rcases List.eq_nil_or_concat rest with rfl | ⟨rest, c, rfl⟩
    · cases others.ne_nil rfl
    · rw [List.concat_eq_append, ← List.append_assoc, ← List.append_assoc] at ht
      obtain ⟨rfl, rfl⟩ := eq_of_append_feed ht.symm
      rw [List.append_assoc]
      exact .modifier mem gapped (ih List.concat_eq_append.symm)

theorem clause_append_feed : Clause name (s ++ ['\n']) ↔ Clause name s := by
  constructor
  · rintro ⟨gap, blanks, rest, hgap, hblanks, hs⟩
    refine ⟨gap, blanks, rest.dropLast, hgap, hblanks, ?_⟩
    rcases List.eq_nil_or_concat rest with rfl | ⟨rest, c, rfl⟩
    · rw [← List.append_assoc, ← List.append_assoc, ← List.append_assoc] at hs
      cases (eq_of_append_feed hs.symm).2
    · rw [List.concat_eq_append, ← List.cons_append, ← List.append_assoc, ← List.append_assoc,
        ← List.append_assoc, ← List.append_assoc] at hs
      rw [(eq_of_append_feed hs.symm).1.symm]
      simp
  · rintro ⟨gap, blanks, rest, hgap, hblanks, rfl⟩
    exact ⟨gap, blanks, rest ++ ['\n'], hgap, hblanks, by simp⟩

theorem classAt?_blank (s : List Char) : classAt? ('\n' :: s) = classAt? s := by
  refine Option.ext fun name => ?_
  rw [classAt?_eq_some, classAt?_eq_some]
  rfl

theorem classAt?_append_feed (s : List Char) : classAt? (s ++ ['\n']) = classAt? s := by
  refine Option.ext fun name => ?_
  rw [classAt?_eq_some, classAt?_eq_some, trimStart_append_feed]
  split
  · next hnil => rw [hnil]
  · exact and_congr_right fun hname => ⟨Heading.of_append_feed hname, Heading.append_feed⟩

theorem packageAt?_append_feed (s : List Char) : packageAt? (s ++ ['\n']) = packageAt? s := by
  refine Option.ext fun name => ?_
  rw [packageAt?_eq_some, packageAt?_eq_some, trimStart_append_feed]
  split
  · next hnil => rw [hnil]
  · rw [clause_append_feed]

/-! ## Lines in front -/

theorem laterLines_append : laterLines (s ++ r) = (laterLines s).map (· ++ r) ++ laterLines r := by
  induction s with
  | nil => rfl
  | cons c s ih =>
    rw [List.cons_append, laterLines, laterLines]
    split
    · rw [ih]
      rfl
    · exact ih

section
variable {α : Type} {f : List Char → Option α}

theorem atLine?_append_feed (hf : ∀ t, f (t ++ ['\n']) = f t) (hnil : f [] = none) (s : List Char) :
    atLine? f (s ++ ['\n']) = atLine? f s := by
  have hlast : fromLines (s ++ ['\n']) = (fromLines s).map (· ++ ['\n']) ++ [[]] := by
    rw [fromLines, laterLines_append, fromLines, List.map_cons, List.cons_append]
    rfl
  rw [atLine?_eq_findSome?, atLine?_eq_findSome?, hlast, List.findSome?_append, List.findSome?_map]
  have hsame : f ∘ (· ++ ['\n']) = f := funext hf
  rw [hsame, List.findSome?_singleton, hnil, Option.or_none]

/-- Behind a whole line the reader goes on as if the text began there. -/
theorem atLine?_behind (hfront : '\n' ∉ front) :
    atLine? f (front ++ '\n' :: s) = (f (front ++ '\n' :: s)).or (atLine? f s) := by
  have hnone : laterLines front = [] := by
    rw [List.eq_nil_iff_forall_not_mem]
    intro r hr
    obtain ⟨i, -, hfeed, -⟩ := mem_laterLines.1 hr
    exact hfront (List.mem_of_getElem? hfeed)
  rw [atLine?_eq_findSome?, fromLines, laterLines_append, hnone, List.findSome?_cons,
    atLine?_eq_findSome?]
  cases f (front ++ '\n' :: s) <;> rfl

theorem atLine?_blank (hf : f ('\n' :: s) = f s) : atLine? f ('\n' :: s) = atLine? f s := by
  have hbehind : atLine? f ([] ++ '\n' :: s) = (f ([] ++ '\n' :: s)).or (atLine? f s) :=
    atLine?_behind List.not_mem_nil
  rw [List.nil_append, hf] at hbehind
  rw [hbehind, atLine?]
  cases f s <;> rfl

end

/-! ## Package lines -/

/-- A line declares a package, or is empty without one. -/
def Declares (line package : List Char) : Prop :=
  (∀ c ∈ package, isPathChar c = true) ∧
    line = if package = [] then [] else "package ".toList ++ package ++ [';']

theorem past_of_isPathChar (h : ∀ c ∈ s, isPathChar c = true) : Past Text.isBlank s := by
  intro c hc
  refine Bool.eq_false_iff.2 fun hblank => ?_
  have hpath := h c (List.mem_of_mem_head? hc)
  rw [isPathChar_of_isBlank hblank] at hpath
  cases hpath

/-- The reader finds the package that a line declares. -/
theorem packageName_of_declares (h : Declares line package) : packageName line = package := by
  obtain ⟨hchars, rfl⟩ := h
  split
  · next hnil =>
    subst hnil
    rfl
  · next hne =>
    have hline : Text.trim ("package ".toList ++ package ++ [';']) =
        "package ".toList ++ package ++ [';'] := by
      apply Text.trim_of_past
      · exact List.append_ne_nil_of_right_ne_nil _ nofun
      · exact fun c hc => Option.some.inj hc ▸ rfl
      · rw [List.reverse_append]
        exact fun c hc => Option.some.inj hc ▸ rfl
    have hwords : dropWords "package".toList ("package ".toList ++ package ++ [';']).length
        ("package ".toList ++ package ++ [';']) = ' ' :: package ++ [';'] := rfl
    have hback : Past (· == ';') (' ' :: package).reverse := by
      intro c hc
      rw [List.head?_reverse, List.getLast?_cons, Option.mem_def, Option.some_inj] at hc
      subst hc
      rw [beq_eq_false_iff_ne]
      intro hsemi
      obtain ⟨last, hlast⟩ := List.getLast?_isSome.2 hne |> Option.isSome_iff_exists.1
      rw [hlast] at hsemi
      have hpath := hchars last (List.mem_of_getLast? hlast)
      rw [show last = ';' from hsemi] at hpath
      cases hpath
    have hsemicolon : Text.dropEndWhile (· == ';') (' ' :: package ++ [';']) = ' ' :: package := by
      rw [Text.dropEndWhile, List.reverse_append,
        Text.dropWhile_run (fun c hc => by rw [List.mem_singleton.1 hc]; rfl) hback,
        List.reverse_reverse]
    have hblank : Text.trim (' ' :: package) = Text.trim package := rfl
    rw [packageName, hline, hwords, hsemicolon, hblank]
    apply Text.trim_of_past hne (past_of_isPathChar hchars)
    exact past_of_isPathChar fun c hc => hchars c (List.mem_reverse.1 hc)

/-- A package line is read where it stands, and it is the line of no class. -/
theorem packageAt?_line (hpath : IsPath package) :
    packageAt? ("package ".toList ++ package ++ ';' :: rest) = some package := by
  rw [packageAt?_eq_some]
  refine ⟨hpath, [' '], [], rest, ⟨nofun, fun c hc => ?_⟩, nofun, ?_⟩
  · rw [List.mem_singleton.1 hc]
    rfl
  · rw [List.append_assoc]
    rfl

theorem classAt?_line : classAt? ("package ".toList ++ s) = none := rfl

/-! ## Tests -/

/-- The source of a test: the code and a line feed, behind a package line where the code has none. -/
def sourceOf (package code : List Char) : List Char :=
  (if package? code = none ∧ package ≠ [] then "package ".toList ++ package ++ [';', '\n', '\n'] else []) ++
    code ++ ['\n']

theorem className?_sourceOf (hchars : ∀ c ∈ package, isPathChar c = true) (code : List Char) :
    className? (sourceOf package code) = className? code := by
  have hcode : className? (code ++ ['\n']) = className? code :=
    atLine?_append_feed classAt?_append_feed rfl code
  unfold sourceOf
  split
  · have hfront : '\n' ∉ "package ".toList ++ package ++ [';'] := by
      simp only [List.mem_append, not_or]
      refine ⟨⟨by decide, fun hmem => ?_⟩, by decide⟩
      cases hchars '\n' hmem
    have hsource : "package ".toList ++ package ++ [';', '\n', '\n'] ++ code ++ ['\n'] =
        ("package ".toList ++ package ++ [';']) ++ '\n' :: '\n' :: (code ++ ['\n']) := by simp
    rw [className?, hsource, atLine?_behind hfront, List.append_assoc, List.append_assoc, classAt?_line,
      Option.none_or, atLine?_blank (classAt?_blank _)]
    exact hcode
  · exact hcode

theorem package?_sourceOf (hchars : ∀ c ∈ package, isPathChar c = true) (code : List Char) :
    package? (sourceOf package code) =
      (package? code).or (if package = [] then none else some package) := by
  have hcode : package? (code ++ ['\n']) = package? code :=
    atLine?_append_feed packageAt?_append_feed rfl code
  unfold sourceOf
  split
  · next h =>
    have hsource : "package ".toList ++ package ++ [';', '\n', '\n'] ++ code ++ ['\n'] =
        "package ".toList ++ package ++ ';' :: '\n' :: '\n' :: (code ++ ['\n']) := by simp
    rw [hsource, package?, atLine?, packageAt?_line ⟨h.2, hchars⟩, h.1, Option.none_or, if_neg h.2]
  · next h =>
    rw [List.nil_append, hcode]
    cases hfound : package? code with
    | some found => rfl
    | none =>
      have hnil : package = [] := Decidable.byContradiction fun hne => h ⟨hfound, hne⟩
      rw [if_pos hnil, Option.none_or]

theorem IsName.no_point (h : IsName name) : '.' ∉ name := by
  intro hmem
  cases h.chars '.' hmem

theorem isName_of_className? {code : List Char} (h : className? code = some name) : IsName name := by
  rw [className?, atLine?_eq_findSome?] at h
  obtain ⟨r, -, hr⟩ := List.exists_of_findSome?_eq_some h
  exact (classAt?_eq_some.1 hr).1

theorem isPath_of_package? {code : List Char} (h : package? code = some name) : IsPath name := by
  rw [package?, atLine?_eq_findSome?] at h
  obtain ⟨r, -, hr⟩ := List.exists_of_findSome?_eq_some h
  exact (packageAt?_eq_some.1 hr).1

/-- **Names.** The package and the class that the source of a test declares are the package and the
simple part of its name, and the source is the code of the answer, with a package line where the code
has none and the dossier has one. -/
theorem test?_named {d : Dossier} {answer : String} {t : UnitTest}
    (hline : Declares d.package.toList package) (h : test? d answer = .ok t) :
    ∃ code, codeBlock? answer.toList = some code ∧ t.source.toList = sourceOf package code ∧
      package? t.source.toList = (Text.cutAtLast? '.' t.className.toList).map Prod.fst ∧
      className? t.source.toList = some (Text.afterLast '.' t.className.toList) := by
  unfold test? at h
  split at h
  · cases h
  next code hcode =>
  split at h
  · cases h
  next name hname =>
  have hpoint := (isName_of_className? hname).no_point
  have hsource : t.source.toList = sourceOf package code := by
    cases h
    rw [packageName_of_declares hline, String.toList_ofList, sourceOf]
    cases hfound : package? code with
    | some found => rfl
    | none =>
      cases package with
      | nil => rfl
      | cons c package => rfl
  have hclass : t.className.toList =
      (package? t.source.toList).elim name fun found => found ++ '.' :: name := by
    rw [hsource, package?_sourceOf hline.1]
    cases h
    rw [packageName_of_declares hline, String.toList_ofList]
    cases hfound : package? code with
    | some found =>
      obtain ⟨c, path, rfl⟩ := List.exists_cons_of_ne_nil (isPath_of_package? hfound).1
      rfl
    | none =>
      cases package with
      | nil => rfl
      | cons c package => rfl
  refine ⟨code, hcode, hsource, ?_, ?_⟩
  · rw [hclass]
    cases package? t.source.toList with
    | some found =>
      rw [Option.elim_some, Text.cutAtLast?_append hpoint]
      rfl
    | none =>
      rw [Option.elim_none, Text.cutAtLast?_eq_none hpoint]
      rfl
  · rw [hclass, hsource, className?_sourceOf hline.1, hname]
    cases package? (sourceOf package code) with
    | some found => rw [Option.elim_some, Text.afterLast_append hpoint]
    | none => rw [Option.elim_none, Text.afterLast_of_not_mem hpoint]

/-- A test of a class in a package, in an answer that leaves the package out. -/
theorem test?_named_cart :
    let d : Dossier := { package := "package acme.shop;" }
    let answer := "Here:\n\x60\x60\x60java\npublic final class CartTest \x7b\x7d\n\x60\x60\x60\n"
    let t : UnitTest := ⟨"acme.shop.CartTest",
      "package acme.shop;\n\npublic final class CartTest \x7b\x7d\n"⟩
    test? d answer = .ok t ∧ package? t.source.toList = some "acme.shop".toList ∧
      className? t.source.toList = some "CartTest".toList := by
  intro d answer t
  have htest : test? d answer = .ok t := by decide
  have hline : Declares d.package.toList "acme.shop".toList :=
    ⟨List.all_eq_true.1 (by decide), by decide⟩
  obtain ⟨code, -, -, hpackage, hclass⟩ := test?_named hline htest
  refine ⟨htest, hpackage.trans ?_, hclass.trans ?_⟩
  · decide
  · decide

end Testwright.Answer
