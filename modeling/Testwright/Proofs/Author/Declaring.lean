import Testwright.Proofs.Author.Headings
import Testwright.Proofs.Java.Boundaries
import Testwright.Proofs.Java.Shapes

/-!
# Declarations and where they are read

`className?` and `package?` look for declarations at the beginnings of lines and know nothing of tokens.
They find the declaration of a parsed code if it stands in view (`InView`), that is behind nothing but
blanks in a line of its own, and if no line in front of it reads like one (`Unread`): lines inside of
comments and text blocks do not, and the keyword has something else in front of it in its line wherever
it occurs. What is read in front of the declaration then begins with modifiers and no keyword, so that it
reaches the declaration itself (`Heading.reaches`).
-/

namespace Testwright.Answer

open Java (Token Tree Scanned Bare)
open Text (Past)

variable {source s word words rest name : List Char} {ts : List Token} {i j q : Nat}

/-! ## Declarations in view -/

/-- The words of a declaration up to its name. -/
inductive Lead (modifiers : List (List Char)) (keyword : List Char) : List Char → Prop
  | keyword {gap : List Char} (gapped : Gap gap) : Lead modifiers keyword (keyword ++ gap)
  | modifier {word gap rest : List Char} (mem : word ∈ modifiers) (gapped : Gap gap)
    (others : Lead modifiers keyword rest) : Lead modifiers keyword (word ++ (gap ++ rest))

/-- A name has only the words of its declaration between itself and the beginning of a line. -/
structure InView (modifiers : List (List Char)) (keyword source : List Char) (i : Nat)
    (name : Tree) : Prop where
  line : LineStart source i
  led : ∃ q ≤ name.start, Bare source i q ∧ Lead modifiers keyword (Tree.slice source q name.start)

/-- A token has one in front of it in its line that is none of some words. -/
def Preceded (source : List Char) (ts : List Token) (words : List (List Char)) (t : Token) : Prop :=
  ∃ u ∈ ts, u.stop ≤ t.start ∧ u.text.toList ∉ words ∧
    ∀ k < t.start, u.stop ≤ k + 1 → source[k]? ≠ some '\n'

/-- In front of a position nothing looks like a declaration that a reader finds: no line that begins
inside of a token does, and the keyword never comes first in its line, modifiers apart. -/
structure Unread (read? : List Char → Option (List Char)) (modifiers : List (List Char))
    (keyword source : List Char) (ts : List Token) (i : Nat) : Prop where
  silent : ∀ j < i, LineStart source j → (∃ t ∈ ts, t.start < j ∧ j < t.stop) →
    read? (source.drop j) = none
  preceded : ∀ t ∈ ts, t.start < i → t.text.toList = keyword → Preceded source ts modifiers t

instance : Decidable (LineStart s i) := inferInstanceAs (Decidable (_ ∧ _))

instance (source : List Char) (ts : List Token) (words : List (List Char)) (t : Token) :
    Decidable (Preceded source ts words t) :=
  inferInstanceAs (Decidable (∃ u ∈ ts, _))

/-! ## From the beginning of a line to a token -/

theorem Gap.past {gap : List Char} (h : Gap gap) : Past Token.isWordContinue (gap ++ rest) := by
  obtain ⟨hne, hblanks⟩ := h
  obtain ⟨c, gap, rfl⟩ := List.exists_cons_of_ne_nil hne
  intro d hd
  cases hd
  refine Bool.eq_false_iff.2 fun hword => ?_
  have hinked := Token.inked_of_isWordContinue hword
  rw [Token.Inked, hblanks _ List.mem_cons_self] at hinked
  cases hinked

/-- The words that a declaration can begin with. -/
def openers : List (List Char) := "package".toList :: "class".toList :: classModifiers

theorem package_mem_openers : "package".toList ∈ openers := List.mem_cons_self

theorem class_mem_openers : "class".toList ∈ openers := List.mem_cons_of_mem _ List.mem_cons_self

theorem modifier_mem_openers (h : word ∈ classModifiers) : word ∈ openers :=
  List.mem_cons_of_mem _ (List.mem_cons_of_mem _ h)

theorem chars_of_opener (h : word ∈ openers) :
    ∀ c ∈ word, Token.isWordContinue c = true ∧ c ≠ '\n' := by
  have hall : ∀ word ∈ openers, (word.all fun c => Token.isWordContinue c && c != '\n') = true := by
    decide
  intro c hc
  simpa using List.all_eq_true.1 (hall word h) c hc

theorem first_of_opener (h : word ∈ openers) (rest : List Char) :
    ∃ c ∈ (word ++ rest).head?, Token.isWordStart c = true := by
  have hall : ∀ word ∈ openers, word.head?.any Token.isWordStart = true := by decide
  obtain ⟨c, hc, hstart⟩ := (Option.any_eq_true ..).1 (hall word h)
  exact ⟨c, by rw [List.head?_append, hc]; rfl, hstart⟩

/-- The token where such a word stands with blanks behind it is that word. -/
theorem token_of_opener (hscan : Scanned source ts) {t : Token} (ht : t ∈ ts) (hword : word ∈ openers)
    {gap : List Char} (hgap : Gap gap) (hdrop : source.drop t.start = word ++ (gap ++ rest)) :
    t.stop = t.start + word.length ∧ t.text.toList = word := by
  have hfirst := first_of_opener hword []
  rw [List.append_nil] at hfirst
  obtain ⟨hstop, htext⟩ :=
    hscan.word_at ht hdrop hfirst (fun c hc => (chars_of_opener hword c hc).1) hgap.past
  exact ⟨hstop, by rw [htext, String.toList_ofList]⟩

theorem Heading.first (h : Heading name s) : ∃ c ∈ s.head?, Token.isWordStart c = true := by
  cases h with
  | keyword => exact first_of_opener class_mem_openers _
  | modifier mem => exact first_of_opener (modifier_mem_openers mem) _

/-- What is read at a line outside of all tokens begins with a token, and between that and a keyword
stands something other than modifiers. -/
theorem Unread.begins {read? : List Char → Option (List Char)} {modifiers : List (List Char)}
    {keyword a : List Char} (hscan : Scanned source ts)
    (h : Unread read? modifiers keyword source ts i) (hj : LineStart source j) (hlt : j < i)
    (hread : read? (source.drop j) = some a)
    (hfirst : ∃ c ∈ (Text.trimStart (source.drop j)).head?, Token.isWordStart c = true) :
    ∃ q, Bare source j q ∧ source.drop q = Text.trimStart (source.drop j) ∧
      (∃ t ∈ ts, t.start = q) ∧
      ∀ t ∈ ts, q ≤ t.start → t.start < i → t.text.toList = keyword →
        ∃ u ∈ ts, q ≤ u.start ∧ u.start < t.start ∧ u.text.toList ∉ modifiers := by
  have houtside : ∀ t ∈ ts, ¬(t.start < j ∧ j < t.stop) := by
    intro t ht hinside
    rw [h.silent j hlt hj ⟨t, ht, hinside⟩] at hread
    cases hread
  obtain ⟨q, hbare, hdrop⟩ := Java.exists_bare source j
  rw [← hdrop] at hfirst
  refine ⟨q, hbare, hdrop, hscan.token_at houtside hbare hfirst, ?_⟩
  intro t ht hqt hti hkeyword
  obtain ⟨u, hu, hstop, hother, hline⟩ := h.preceded t ht hti hkeyword
  have hnonempty := hscan.nonempty hu
  refine ⟨u, hu, Nat.le_of_not_lt fun huq => ?_, by omega, hother⟩
  -- in front of the line there is a line feed between the two tokens
  have huj : u.start < j := Nat.lt_of_not_le fun hle => hscan.not_bare hu hle huq hbare
  have hstop_j : u.stop ≤ j := Nat.le_of_not_lt fun hlt => houtside u hu ⟨huj, hlt⟩
  have hjq := hbare.le
  have hfeed := hj.2.resolve_left (by omega)
  exact hline (j - 1) (by omega) (by omega) hfeed

/-! ## Classes -/

/-- A heading in front of a line begins with modifiers and the keyword, or it reaches the line. -/
theorem Heading.reaches (hscan : Scanned source ts) (hi : LineStart source i) (h : Heading name s)
    (hs : source.drop q = s) (htoken : ∃ t ∈ ts, t.start = q) (hlt : q < i) :
    (∃ t ∈ ts, q ≤ t.start ∧ t.start < i ∧ t.text.toList = "class".toList ∧
      ∀ u ∈ ts, q ≤ u.start → u.start < t.start → u.text.toList ∈ classModifiers) ∨
    Heading name (Text.trimStart (source.drop i)) := by
  induction h generalizing q with
  | @keyword gap rest gapped =>
    obtain ⟨t, ht, rfl⟩ := htoken
    have htext := (token_of_opener hscan ht class_mem_openers gapped hs).2
    exact .inl ⟨t, ht, Nat.le_refl _, hlt, htext, fun u _ => by omega⟩
  | @modifier word gap rest mem gapped others ih =>
    obtain ⟨t, ht, rfl⟩ := htoken
    have hopener := modifier_mem_openers mem
    obtain ⟨hstop, htext⟩ := token_of_opener hscan ht hopener gapped hs
    have hgap : source.drop t.stop = gap ++ rest := by
      rw [hstop, ← List.drop_drop, hs, List.drop_left]
    have hrest : source.drop (t.stop + gap.length) = rest := by
      rw [← List.drop_drop, hgap, List.drop_left]
    have hbare := Bare.of_drop gapped.2 hgap
    rcases Nat.lt_or_ge (t.stop + gap.length) i with hbefore | hbehind
    · have hbetween : ∀ u ∈ ts, ¬(u.start < t.stop ∧ t.stop < u.stop) := by
        intro u hu hinside
        have hnonempty := hscan.nonempty ht
        rw [hscan.eq_of_overlap ht hu (by omega) hinside.1] at hinside
        exact absurd hinside.2 (Nat.lt_irrefl _)
      have hnext := hscan.token_at hbetween hbare (hrest.symm ▸ others.first)
      refine (ih hrest hnext hbefore).imp_left fun ⟨k, hk, hle, hki, hkeyword, hmodifiers⟩ => ?_
      refine ⟨k, hk, by omega, hki, hkeyword, fun u hu htu huk => ?_⟩
      -- a token from here up to the keyword is this modifier or behind the blanks
      rcases Nat.lt_or_ge u.start t.stop with hinside | hbehind
      · have hnonempty := hscan.nonempty hu
        rw [← hscan.eq_of_overlap ht hu (by omega) hinside, htext]
        exact mem
      · refine hmodifiers u hu (Nat.le_of_not_lt fun hlt => ?_) huk
        exact hscan.not_bare hu hbehind hlt hbare
    · -- the line begins among the blanks, for there is no line feed in a word
      have hafter : t.stop ≤ i := by
        refine Nat.le_of_not_lt fun hinside => ?_
        have hfeed := hi.2.resolve_left (by omega)
        have hword : word[i - 1 - t.start]? = some '\n' := by
          rw [← hfeed, ← Nat.add_sub_cancel' (show t.start ≤ i - 1 by omega), ← List.getElem?_drop,
            hs, Nat.add_sub_cancel_left, List.getElem?_append_left (by omega)]
        exact (chars_of_opener hopener _ (List.mem_of_getElem? hword)).2 rfl
      right
      rw [(hbare.mono hafter hbehind).trimStart (hrest.symm ▸ others.past), hrest]
      exact others

/-- A class that is read in front of a line is the one of the line. -/
theorem classAt?_behind (hscan : Scanned source ts) (hi : LineStart source i)
    (h : Unread classAt? classModifiers "class".toList source ts i) (hj : LineStart source j)
    (hlt : j < i) (hread : classAt? (source.drop j) = some name) :
    classAt? (source.drop i) = some name := by
  obtain ⟨hname, hheading⟩ := classAt?_eq_some.1 hread
  obtain ⟨q, hbare, hdrop, htoken, hbetween⟩ := h.begins hscan hj hlt hread hheading.first
  refine classAt?_eq_some.2 ⟨hname, ?_⟩
  rcases Nat.lt_or_ge q i with hqi | hiq
  · refine (hheading.reaches hscan hi hdrop htoken hqi).resolve_left ?_
    rintro ⟨t, ht, hqt, hti, hkeyword, hmodifiers⟩
    obtain ⟨u, hu, hqu, hut, hother⟩ := hbetween t ht hqt hti hkeyword
    exact hother (hmodifiers u hu hqu hut)
  · rw [(hbare.mono (Nat.le_of_lt hlt) hiq).trimStart (hdrop.symm ▸ hheading.past), hdrop]
    exact hheading

theorem Lead.heading (h : Lead classModifiers "class".toList words) (hrest : Past isNameChar rest) :
    Heading name (words ++ (name ++ rest)) := by
  induction h with
  | keyword gapped =>
    rw [List.append_assoc]
    exact .keyword gapped hrest
  | modifier mem gapped _ ih =>
    rw [List.append_assoc, List.append_assoc]
    exact .modifier mem gapped ih

/-! ## Packages -/

theorem Clause.past (h : Clause name s) : Past Text.isBlank s := by
  obtain ⟨gap, blanks, rest, -, -, rfl⟩ := h
  intro c hc
  cases hc
  rfl

/-- A package that is read in front of a position is the one that is read there. -/
theorem packageAt?_behind (hscan : Scanned source ts)
    (h : Unread packageAt? [] "package".toList source ts i) (hj : LineStart source j) (hlt : j < i)
    (hread : packageAt? (source.drop j) = some name) : packageAt? (source.drop i) = some name := by
  obtain ⟨hpath, hclause⟩ := packageAt?_eq_some.1 hread
  obtain ⟨gap, blanks, rest, hgap, hblanks, hs⟩ := hclause
  obtain ⟨q, hbare, hdrop, ⟨t, ht, rfl⟩, hbetween⟩ :=
    h.begins hscan hj hlt hread (hs ▸ first_of_opener package_mem_openers _)
  rcases Nat.lt_or_ge t.start i with hti | hit
  · have htext := (token_of_opener hscan ht package_mem_openers hgap (hdrop.trans hs)).2
    obtain ⟨u, -, hle, hlt, -⟩ := hbetween t ht (Nat.le_refl _) hti htext
    omega
  · have hclause : Clause name (source.drop t.start) := ⟨gap, blanks, rest, hgap, hblanks, hdrop.trans hs⟩
    refine packageAt?_eq_some.2 ⟨hpath, ?_⟩
    rw [(hbare.mono (Nat.le_of_lt hlt) hit).trimStart hclause.past]
    exact hclause

/-! ## Names in view -/

theorem InView.drop {modifiers : List (List Char)} {keyword : List Char} {name : Tree}
    (h : InView modifiers keyword source i name) (hname : name.chars source ≠ []) :
    ∃ q words, Bare source i q ∧ Lead modifiers keyword words ∧
      source.drop q = words ++ (name.chars source ++ source.drop name.stop) := by
  obtain ⟨q, hq, hbare, hlead⟩ := h.led
  have hle : name.start ≤ name.stop := by
    refine Nat.le_of_not_lt fun hlt => hname ?_
    rw [Tree.chars, Tree.slice, Nat.sub_eq_zero_of_le (Nat.le_of_lt hlt), List.take_zero]
  refine ⟨q, _, hbare, hlead, ?_⟩
  rw [Tree.chars, Java.Edit.slice_append_drop hle, Java.Edit.slice_append_drop hq]

/-- The name of a class ends where the reader stops. -/
theorem past_name (hscan : Scanned source ts) {t : Token} (ht : t ∈ ts) (hword : t.lexeme = .word) :
    Past isNameChar (source.drop t.stop) := by
  intro c hc
  rw [Option.mem_def, List.head?_drop] at hc
  obtain ⟨hout, hkind⟩ := hscan.behind_word ht hword hc
  rcases hkind with hspace | rfl | hascii
  · exact isNameChar_of_isBlank (Token.isBlank_of_isSpace hspace)
  · decide +kernel
  · simp only [Token.isWordContinue, Text.isIdentContinue, show c.toNat < 0x80 from hascii, if_true,
      Bool.or_eq_false_iff] at hout
    simp only [isNameChar, Text.isWord, show c.toNat < 0x80 from hascii, if_true, hout, Bool.or_self]

theorem className?_of_inView {name : Tree} (hscan : Scanned source ts)
    (hview : InView classModifiers "class".toList source i name) (hname : IsName (name.chars source))
    (hpast : Past isNameChar (source.drop name.stop))
    (hunread : Unread classAt? classModifiers "class".toList source ts i) :
    className? source = some (name.chars source) := by
  have hne : name.chars source ≠ [] := by
    intro hnil
    rw [hnil] at hname
    cases hname
  obtain ⟨q, words, hbare, hlead, hdrop⟩ := hview.drop hne
  have hheading : Heading (name.chars source) (source.drop q) := hdrop ▸ hlead.heading hpast
  have hread : classAt? (source.drop i) = some (name.chars source) := by
    rw [classAt?_eq_some, hbare.trimStart hheading.past]
    exact ⟨hname, hheading⟩
  refine atLine?_eq_some hview.line hread fun j hj hlt other hother => ?_
  exact Option.some.inj ((classAt?_behind hscan hview.line hunread hj hlt hother).symm.trans hread)

theorem package?_of_inView {name : Tree} (hscan : Scanned source ts)
    (hview : InView [] "package".toList source i name) (hpath : IsPath (name.chars source))
    (hbehind : Bare source name.stop j) (hsemicolon : source[j]? = some ';')
    (hunread : Unread packageAt? [] "package".toList source ts i) :
    package? source = some (name.chars source) := by
  obtain ⟨q, words, hbare, hlead, hdrop⟩ := hview.drop hpath.1
  have hclause : Clause (name.chars source) (source.drop q) := by
    cases hlead with
    | modifier mem => cases mem
    | @keyword gap gapped =>
      obtain ⟨hlt, hget⟩ := List.getElem?_eq_some_iff.1 hsemicolon
      refine ⟨gap, Tree.slice source name.stop j, source.drop (j + 1), gapped, hbehind.slice, ?_⟩
      rw [← hget, ← List.drop_eq_getElem_cons hlt, Java.Edit.slice_append_drop hbehind.le, hdrop,
        List.append_assoc]
  have hread : packageAt? (source.drop i) = some (name.chars source) := by
    rw [packageAt?_eq_some, hbare.trimStart hclause.past]
    exact ⟨hpath, hclause⟩
  refine atLine?_eq_some hview.line hread fun j hj hlt other hother => ?_
  exact Option.some.inj ((packageAt?_behind hscan hunread hj hlt hother).symm.trans hread)

theorem package?_eq_none (hscan : Scanned source ts)
    (hunread : Unread packageAt? [] "package".toList source ts source.length) :
    package? source = none := by
  refine atLine?_eq_none fun j hj => Option.eq_none_iff_forall_ne_some.2 fun name hread => ?_
  rcases Nat.lt_or_eq_of_le hj.1 with hlt | rfl
  · have hend := packageAt?_behind hscan hunread hj hlt hread
    rw [List.drop_length] at hend
    cases hend
  · rw [List.drop_length] at hread
    cases hread

/-- **Declarations.** In a code that the parser accepts, the reader finds the first class and the
package that are declared, provided that they stand in view with names that the reader takes and that
nothing in front of them reads like a declaration. It finds no package where nothing reads like one. -/
theorem declarations_read {root : Tree} (htokens : Java.tokens? source = some ts)
    (hparse : Java.parse? source = some root) :
    (∀ decl name i, root.children.find? (·.kind == .classDeclaration) = some decl →
      decl.child? .name = some name → InView classModifiers "class".toList source i name →
      IsName (name.chars source) → Unread classAt? classModifiers "class".toList source ts i →
      className? source = some (name.chars source)) ∧
    (∀ decl name i j, root.children.find? (·.kind == .packageDeclaration) = some decl →
      name ∈ decl.children → name.kind = .identifier ∨ name.kind = .scopedIdentifier →
      InView [] "package".toList source i name → IsPath (name.chars source) →
      Bare source name.stop j → source[j]? = some ';' →
      Unread packageAt? [] "package".toList source ts i →
      package? source = some (name.chars source)) ∧
    (Unread packageAt? [] "package".toList source ts source.length → package? source = none) := by
  have hscan := Java.tokens?_scanned htokens
  refine ⟨?_, ?_, package?_eq_none hscan⟩
  · intro decl name i hdecl hname hview hchars hunread
    obtain ⟨ts', htokens', hformed⟩ := Java.parse?_formed hparse
    obtain rfl : ts = ts' := Option.some.inj (htokens.symm.trans htokens')
    have hkind : decl.kind = .classDeclaration := by simpa using List.find?_some hdecl
    obtain ⟨t, ht, hword, -, hstop⟩ := Tree.Formed.exists_word
      (hformed.of_mem (List.mem_of_find?_eq_some hdecl)) (by rw [hkind]; rfl) hname
    exact className?_of_inView hscan hview hchars (hstop ▸ past_name hscan ht hword) hunread
  · intro decl name i j _ _ _ hview hpath hbehind hsemicolon hunread
    exact package?_of_inView hscan hview hpath hbehind hsemicolon hunread

/-- A test with a package behind a comment, a class behind an annotation and one inside of it. -/
def cartTest : List Char :=
  "/* Tests of\n * the class Cart */\npackage com.acme ;\n\n@Tag(Cart.class)\n".toList ++
    "public final class CartTest \x7b class Inner \x7b\x7d \x7d\n".toList

/-- A test without a package. -/
def plainTest : List Char := "// no package\nclass CartTest \x7b\x7d\n".toList

theorem gap_blank : Gap [' '] := ⟨List.cons_ne_nil _ _, List.all_eq_true.1 rfl⟩

theorem cartTest_class {name : Tree} (hstart : name.start = 89) :
    InView classModifiers "class".toList cartTest 70 name := by
  have hline : LineStart cartTest 70 := by decide +kernel
  have hwords : Tree.slice cartTest 70 89 = "public".toList ++
      ([' '] ++ ("final".toList ++ ([' '] ++ ("class".toList ++ [' '])))) := by decide +kernel
  refine ⟨hline, 70, by omega, Bare.refl cartTest 70, ?_⟩
  rw [hstart, hwords]
  exact .modifier (by decide) gap_blank (.modifier (by decide) gap_blank (.keyword gap_blank))

theorem cartTest_package {path : Tree} (hstart : path.start = 41) :
    InView [] "package".toList cartTest 33 path := by
  have hline : LineStart cartTest 33 := by decide +kernel
  have hwords : Tree.slice cartTest 33 41 = "package".toList ++ [' '] := by decide +kernel
  refine ⟨hline, 33, by omega, Bare.refl cartTest 33, ?_⟩
  rw [hstart, hwords]
  exact .keyword gap_blank

theorem declarations_read_cart : className? cartTest = some "CartTest".toList ∧
    package? cartTest = some "com.acme".toList ∧ package? plainTest = none := by
  have htokens : Java.tokens? cartTest = some ((Java.tokens? cartTest).getD []) := by decide +kernel
  have hclass : ((Java.parse? cartTest).any fun root =>
      (root.children.find? (·.kind == .classDeclaration)).any fun decl =>
        (decl.child? .name).any fun name => name.start == 89 && name.stop == 97) = true := by
    decide +kernel
  have hpackage : ((Java.parse? cartTest).any fun root =>
      (root.children.find? (·.kind == .packageDeclaration)).any fun decl =>
        decl.children.any fun path =>
          path.kind == .scopedIdentifier && path.start == 41 && path.stop == 49) = true := by
    decide +kernel
  obtain ⟨root, hparse, hclass⟩ := (Option.any_eq_true ..).1 hclass
  simp only [hparse, Option.any_some, Option.any_eq_true, List.any_eq_true, Bool.and_eq_true,
    beq_iff_eq] at hclass hpackage
  obtain ⟨decl, hdecl, name, hname, hstart, hstop⟩ := hclass
  obtain ⟨line, hline, path, hpath, ⟨hkind, hpathStart⟩, hpathStop⟩ := hpackage
  obtain ⟨classes, packages, -⟩ := declarations_read htokens hparse
  refine ⟨?_, ?_, ?_⟩
  · have hchars : name.chars cartTest = "CartTest".toList := by
      rw [Tree.chars, hstart, hstop]
      decide +kernel
    rw [← hchars]
    apply classes decl name 70 hdecl hname (cartTest_class hstart)
    · rw [hchars]
      decide +kernel
    · exact ⟨by decide +kernel, by decide +kernel⟩
  · have hchars : path.chars cartTest = "com.acme".toList := by
      rw [Tree.chars, hpathStart, hpathStop]
      decide +kernel
    have hbehind : Bare cartTest path.stop 50 := by
      have hdrop : cartTest.drop 49 = [' '] ++ cartTest.drop 50 := by decide +kernel
      rw [hpathStop]
      exact .of_drop gap_blank.2 hdrop
    rw [← hchars]
    apply packages line path 33 50 hline hpath (.inr hkind) (cartTest_package hpathStart)
    · rw [hchars]
      exact ⟨by decide, List.all_eq_true.1 (by decide +kernel)⟩
    · exact hbehind
    · decide +kernel
    · exact ⟨by decide +kernel, by decide +kernel⟩
  · have hsome : (Java.parse? plainTest).isSome = true := by decide +kernel
    obtain ⟨root, hparse⟩ := Option.isSome_iff_exists.1 hsome
    have htokens : Java.tokens? plainTest = some ((Java.tokens? plainTest).getD []) := by
      decide +kernel
    exact (declarations_read htokens hparse).2.2 ⟨by decide +kernel, by decide +kernel⟩

/-- A class in a comment, in a line of its own. -/
def commentedTest : List Char := "/*\nclass Old \x7b\x7d\n*/\nclass CartTest \x7b\x7d\n".toList

/-- The reader takes the class in the comment for the one that the code declares. -/
theorem comment_read_for_class : ∃ root decl name, Java.parse? commentedTest = some root ∧
    root.children.find? (·.kind == .classDeclaration) = some decl ∧
    decl.child? .name = some name ∧ name.chars commentedTest = "CartTest".toList ∧
    className? commentedTest ≠ some (name.chars commentedTest) := by
  have hclass : ((Java.parse? commentedTest).any fun root =>
      (root.children.find? (·.kind == .classDeclaration)).any fun decl =>
        (decl.child? .name).any fun name => name.start == 25 && name.stop == 33) = true := by
    decide +kernel
  simp only [Option.any_eq_true, Bool.and_eq_true, beq_iff_eq] at hclass
  obtain ⟨root, hparse, decl, hdecl, name, hname, hstart, hstop⟩ := hclass
  have hchars : name.chars commentedTest = "CartTest".toList := by
    rw [Tree.chars, hstart, hstop]
    decide +kernel
  refine ⟨root, decl, name, hparse, hdecl, hname, hchars, ?_⟩
  rw [hchars]
  decide +kernel

end Testwright.Answer
