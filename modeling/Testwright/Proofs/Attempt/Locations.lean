import Testwright.Attempt.Diagnostics
import Testwright.Proofs.Data.Dict
import Testwright.Proofs.Text.Cutting

/-!
# Lines of diagnostics

Most forms of a location line are matched within a line. The arguments of a method or constructor are
not: they go on up to the next closing parenthesis, in whatever line that stands. So the classes of two
texts, one behind the other in lines of their own, are those of both (`classNames_append`) unless the
first text ends inside of such arguments and the second one closes them.
-/

namespace Testwright.Diagnostics

open Text (Past dropWhile_run takeWhile_run not_mem_run past_self takeWhile_append_of_past
  dropWhile_append_of_past)

variable {form : Form} {s t a b rest name found : List Char}

/-! ## Matches one after the other -/

/-- The classes of the matches of a form in a text. -/
def hits (form : Form) (s : List Char) : List (List Char) := matchesFrom form 0 s

theorem matchesFrom_eq_hits (skip : Nat) (s : List Char) :
    matchesFrom form skip s = hits form (s.drop skip) := by
  induction s generalizing skip with
  | nil => cases skip <;> rfl
  | cons c s ih =>
    cases skip with
    | zero => rfl
    | succ skip => exact ih skip

/-- A match takes the beginning of a text. -/
theorem matchAt?_suffix (h : matchAt? found form s = some (name, rest)) : rest <:+ s := by
  fun_induction matchAt? found form s with
  | case1 found s =>
    cases h
    exact List.suffix_rfl
  | case2 found t parts s r hr ih | case4 found t u parts s r hr ih
  | case5 found t u parts s _ r hr ih =>
    exact (ih h).trans ⟨_, (Text.dropPrefix?_eq_some.1 hr).symm⟩
  | case3 | case6 | case7 | case9 | case11 => cases h
  | case8 found parts s _ ih | case10 found parts s _ ih =>
    exact (ih h).trans (List.dropWhile_suffix _)
  | case12 found parts s c r hr ih =>
    have hsuffix := List.dropWhile_suffix (l := s) (· != ')')
    rw [hr] at hsuffix
    exact (ih h).trans ((List.suffix_cons c r).trans hsuffix)

/-- What every form begins with. -/
def heading : List Char := "location: ".toList

theorem begins_of_mem_forms (h : form ∈ forms) :
    ∃ t parts u, form = .text t :: parts ∧ t.toList = heading ++ u := by
  simp only [forms, List.mem_cons, List.not_mem_nil, or_false] at h
  rcases h with rfl | rfl | rfl | rfl | rfl | rfl
  · exact ⟨_, _, _, rfl, rfl⟩
  · exact ⟨_, _, _, rfl, rfl⟩
  · exact ⟨_, _, _, rfl, rfl⟩
  · exact ⟨_, _, _, rfl, rfl⟩
  · exact ⟨_, _, _, rfl, rfl⟩
  · exact ⟨_, _, _, rfl, rfl⟩

theorem heading_of_matchAt? (hform : form ∈ forms)
    (h : matchAt? found form s = some (name, rest)) : ∃ r, s = heading ++ r ∧ rest <:+ r := by
  obtain ⟨t, parts, u, rfl, ht⟩ := begins_of_mem_forms hform
  rw [matchAt?] at h
  split at h
  · next r hr =>
    have hs := Text.dropPrefix?_eq_some.1 hr
    rw [ht, List.append_assoc] at hs
    exact ⟨u ++ r, hs, (matchAt?_suffix h).trans (List.suffix_append u r)⟩
  · cases h

theorem length_lt_of_matchAt? (hform : form ∈ forms)
    (h : matchAt? found form s = some (name, rest)) : rest.length < s.length := by
  obtain ⟨r, rfl, hrest⟩ := heading_of_matchAt? hform h
  have hle := hrest.length_le
  have hpos : 0 < heading.length := by decide
  rw [List.length_append]
  omega

theorem hits_cons (hform : form ∈ forms) (c : Char) (s : List Char) :
    hits form (c :: s) =
      match matchAt? [] form (c :: s) with
      | some (name, rest) => name :: hits form rest
      | none => hits form s := by
  rw [hits, matchesFrom]
  cases hmatch : matchAt? [] form (c :: s) with
  | none => rfl
  | some m =>
    obtain ⟨name, rest⟩ := m
    obtain ⟨r, hr, hrest⟩ := heading_of_matchAt? hform hmatch
    have hsuffix : rest <:+ s := by
      cases hr
      exact hrest.trans (List.suffix_append _ r)
    change name :: matchesFrom form (s.length - rest.length) s = name :: hits form rest
    rw [matchesFrom_eq_hits, ← List.suffix_iff_eq_drop.1 hsuffix]

theorem hits_of_matchAt? (hform : form ∈ forms) (h : matchAt? [] form s = some (name, rest)) :
    hits form s = name :: hits form rest := by
  cases s with
  | nil =>
    obtain ⟨r, hr, -⟩ := heading_of_matchAt? hform h
    cases hr
  | cons c s => rw [hits_cons hform, h]

/-- A text without one of the characters that every form begins with matches no form. -/
theorem hits_eq_nil (hform : form ∈ forms) {c : Char} (hc : c ∈ heading) (h : c ∉ s) :
    hits form s = [] := by
  induction s with
  | nil => rfl
  | cons d s ih =>
    have hnone : matchAt? [] form (d :: s) = none := by
      refine Option.eq_none_iff_forall_ne_some.2 fun m hm => h ?_
      obtain ⟨r, hr, -⟩ := heading_of_matchAt? hform hm
      rw [hr]
      exact List.mem_append_left r hc
    rw [hits_cons hform, hnone]
    exact ih fun hmem => h (List.mem_cons_of_mem d hmem)

/-! ## Matches and line breaks -/

/-- Where a form stops in a text that leaves its arguments open: the class found so far and the parts
behind the arguments. -/
def pending? (found : List Char) : Form → List Char → Option (List Char × Form)
  | [], _ => none
  | .text t :: parts, s =>
    match Text.dropPrefix? t.toList s with
    | some rest => pending? found parts rest
    | none => none
  | .either t u :: parts, s =>
    match Text.dropPrefix? t.toList s with
    | some rest => pending? found parts rest
    | none =>
      match Text.dropPrefix? u.toList s with
      | some rest => pending? found parts rest
      | none => none
  | .word :: parts, s =>
    if (s.takeWhile Text.isWord).isEmpty then none else pending? found parts (s.dropWhile Text.isWord)
  | .name :: parts, s =>
    match s.takeWhile isNameChar with
    | [] => none
    | name => pending? name parts (s.dropWhile isNameChar)
  | .arguments :: parts, s =>
    match s.dropWhile (· != ')') with
    | [] => some (found, parts)
    | _ :: rest => pending? found parts rest

/-- The texts of a part are within a line. -/
def Part.InLine : Part → Prop
  | .text t => '\n' ∉ t.toList
  | .either t u => '\n' ∉ t.toList ∧ '\n' ∉ u.toList
  | _ => True

theorem inLine_of_mem_forms (h : form ∈ forms) : ∀ part ∈ form, part.InLine := by
  simp only [forms, List.mem_cons, List.not_mem_nil, or_false] at h
  rcases h with rfl | rfl | rfl | rfl | rfl | rfl <;> simp [Part.InLine]

theorem dropPrefix?_append {p : List Char} (hp : '\n' ∉ p) (s b : List Char) :
    Text.dropPrefix? p (s ++ '\n' :: b) = (Text.dropPrefix? p s).map (· ++ '\n' :: b) := by
  induction p generalizing s with
  | nil => rfl
  | cons c p ih =>
    rw [List.mem_cons, not_or] at hp
    cases s with
    | nil => exact if_neg (Ne.symm hp.1)
    | cons d s =>
      rw [List.cons_append, Text.dropPrefix?, Text.dropPrefix?, ih hp.2]
      split <;> rfl

theorem past_line {p : Char → Bool} (hp : p '\n' = false) : Past p ('\n' :: b) := by
  intro c hc
  cases hc
  exact hp

/-- In front of further lines a form matches as it does in the text itself; if the text leaves its
arguments open, they go on in the further lines. -/
theorem matchAt?_append (hform : ∀ part ∈ form, part.InLine) (found s b : List Char) :
    matchAt? found form (s ++ '\n' :: b) =
      ((matchAt? found form s).map fun m => (m.1, m.2 ++ '\n' :: b)).or
        ((pending? found form s).bind fun p => matchAt? p.1 (.arguments :: p.2) b) := by
  induction form generalizing found s with
  | nil => rfl
  | cons part form ih =>
    rw [List.forall_mem_cons] at hform
    have ih := ih hform.2
    cases part with
    | text t =>
      rw [matchAt?, matchAt?, pending?, dropPrefix?_append hform.1]
      cases Text.dropPrefix? t.toList s with
      | none => rfl
      | some r => exact ih found r
    | either t u =>
      rw [matchAt?, matchAt?, pending?, dropPrefix?_append hform.1.1, dropPrefix?_append hform.1.2]
      cases Text.dropPrefix? t.toList s with
      | some r => exact ih found r
      | none =>
        cases Text.dropPrefix? u.toList s with
        | none => rfl
        | some r => exact ih found r
    | word =>
      have hpast : Past Text.isWord ('\n' :: b) := past_line (by decide)
      rw [matchAt?, matchAt?, pending?, takeWhile_append_of_past hpast, dropWhile_append_of_past hpast]
      split
      · rfl
      · exact ih found _
    | name =>
      have hpast : Past isNameChar ('\n' :: b) := past_line (by decide)
      rw [matchAt?, matchAt?, pending?, takeWhile_append_of_past hpast, dropWhile_append_of_past hpast]
      cases s.takeWhile isNameChar with
      | nil => rfl
      | cons c name => exact ih (c :: name) _
    | arguments =>
      rw [matchAt?, matchAt?, pending?, List.dropWhile_append]
      cases hopen : s.dropWhile (· != ')') with
      | nil =>
        change _ = matchAt? found (.arguments :: form) b
        rw [matchAt?]
        rfl
      | cons c r => exact ih found r

/-! ## Arguments left open -/

theorem pending?_eq_none (h : Part.arguments ∉ form) : pending? found form s = none := by
  fun_induction pending? found form s with
  | case1 | case3 | case6 | case7 | case9 => rfl
  | case2 found t parts s r _ ih | case4 found t u parts s r _ ih | case5 found t u parts s _ r _ ih
  | case8 found parts s _ ih | case10 found parts s _ ih =>
    exact ih fun hmem => h (List.mem_cons_of_mem _ hmem)
  | case11 | case12 => exact absurd List.mem_cons_self h

theorem dropWhile_eq_nil {c : Char} : s.dropWhile (· != c) = [] ↔ c ∉ s := by
  simp [List.forall_mem_ne']

/-- What a location line with arguments is about. -/
inductive Callable where
  | method
  | constructor
  deriving DecidableEq, Repr

namespace Callable

/-- The beginning of the line. -/
def opening : Callable → String
  | method => "location: method "
  | constructor => "location: constructor "

/-- The name in front of the arguments: that of a method, or of the class of a constructor. -/
def subject : Callable → Part
  | method => .word
  | constructor => .name

def isSubjectChar : Callable → Char → Bool
  | method => Text.isWord
  | constructor => isNameChar

/-- What is read behind the arguments. -/
def behind : Callable → Form
  | method => [.text " of class ", .name]
  | constructor => []

/-- The form of the line. -/
def line (k : Callable) : Form :=
  [.text k.opening, k.subject, .text "(", .arguments] ++ k.behind

/-- The class that is known once the name in front of the arguments is read. -/
def classOf : Callable → List Char → List Char
  | method, _ => []
  | constructor, name => name

variable {k : Callable}

theorem line_mem (k : Callable) : k.line ∈ forms := by
  cases k <;> simp [line, opening, subject, behind, forms]

/-- The text begins with a location line and ends inside of its arguments. -/
def Unclosed (k : Callable) (s : List Char) : Prop :=
  ∃ name args, s = k.opening.toList ++ (name ++ '(' :: args) ∧ name ≠ [] ∧
    (∀ c ∈ name, k.isSubjectChar c = true) ∧ ')' ∉ args

/-- The text goes on where arguments end, as the line is read. -/
def GoesOn : Callable → List Char → Prop
  | method, s => ∃ c rest, s = " of class ".toList ++ c :: rest ∧ isNameChar c = true
  | constructor, _ => True

/-- The text closes arguments that were left open in front of it. -/
def Closes (k : Callable) (s : List Char) : Prop :=
  ∃ args rest, s = args ++ ')' :: rest ∧ ')' ∉ args ∧ k.GoesOn rest

theorem isSubjectChar_paren (k : Callable) : k.isSubjectChar '(' = false := by
  cases k <;> decide

theorem pending?_subject (parts : Form) (s : List Char) :
    pending? [] (k.subject :: parts) s =
      if (s.takeWhile k.isSubjectChar).isEmpty then none
      else pending? (k.classOf (s.takeWhile k.isSubjectChar)) parts (s.dropWhile k.isSubjectChar) := by
  cases k with
  | method => rfl
  | constructor =>
    change pending? [] (.name :: parts) s = if (s.takeWhile isNameChar).isEmpty then none
      else pending? (s.takeWhile isNameChar) parts (s.dropWhile isNameChar)
    rw [pending?]
    cases s.takeWhile isNameChar <;> rfl

theorem pending?_behind (name s : List Char) : pending? name k.behind s = none :=
  pending?_eq_none (by cases k <;> decide)

theorem pending?_line {p : List Char × Form} : pending? [] k.line s = some p ↔
    ∃ name args, s = k.opening.toList ++ (name ++ '(' :: args) ∧ name ≠ [] ∧
      (∀ c ∈ name, k.isSubjectChar c = true) ∧ ')' ∉ args ∧ p = (k.classOf name, k.behind) := by
  change pending? [] (.text k.opening :: k.subject :: .text "(" :: .arguments :: k.behind) s = some p ↔ _
  constructor
  · intro h
    rw [pending?] at h
    split at h
    · next r hr =>
      rw [pending?_subject] at h
      split at h
      · cases h
      next hname =>
      rw [pending?] at h
      split at h
      · next args hargs =>
        rw [pending?] at h
        split at h
        · next hopen =>
          cases h
          refine ⟨r.takeWhile k.isSubjectChar, args, ?_, by simpa using hname,
            fun c hc => List.mem_takeWhile_imp hc, dropWhile_eq_nil.1 hopen, rfl⟩
          have hparen : r.dropWhile k.isSubjectChar = '(' :: args := Text.dropPrefix?_eq_some.1 hargs
          rw [Text.dropPrefix?_eq_some.1 hr, ← hparen, List.takeWhile_append_dropWhile]
        · rw [pending?_behind] at h
          cases h
      · cases h
    · cases h
  · rintro ⟨name, args, rfl, hne, hname, hargs, rfl⟩
    have hpast : Past k.isSubjectChar ('(' :: args) := fun c hc => by
      cases hc
      exact k.isSubjectChar_paren
    have hopened : Text.dropPrefix? k.opening.toList (k.opening.toList ++ (name ++ '(' :: args)) =
        some (name ++ '(' :: args) := Text.dropPrefix?_eq_some.2 rfl
    have hparen : Text.dropPrefix? "(".toList ('(' :: args) = some args :=
      Text.dropPrefix?_eq_some.2 rfl
    rw [pending?, hopened]
    simp only
    rw [pending?_subject, takeWhile_run hname hpast, dropWhile_run hname hpast,
      if_neg (by simpa using hne), pending?, hparen]
    simp only
    rw [pending?, dropWhile_eq_nil.2 hargs]

theorem not_closes_of_not_mem (h : ')' ∉ s) : ¬ k.Closes s := by
  rintro ⟨args, rest, rfl, -, -⟩
  exact h (by simp)

theorem closes_append_iff (h : ')' ∉ s) : k.Closes (s ++ ')' :: rest) ↔ k.GoesOn rest := by
  refine ⟨?_, fun hgoes => ⟨s, rest, rfl, h, hgoes⟩⟩
  rintro ⟨args, rest', hsplit, hargs, hgoes⟩
  have hcut := congrArg (Text.cutAt? ')') hsplit
  rw [Text.cutAt?_append h, Text.cutAt?_append hargs] at hcut
  cases hcut
  exact hgoes

theorem goesOn_iff (name : List Char) : k.GoesOn s ↔ (matchAt? name k.behind s).isSome = true := by
  cases k with
  | constructor => exact iff_of_true trivial rfl
  | method =>
    change _ ↔ (matchAt? name [.text " of class ", .name] s).isSome = true
    rw [matchAt?]
    cases hdrop : Text.dropPrefix? " of class ".toList s with
    | none =>
      refine iff_of_false ?_ nofun
      rintro ⟨c, rest, rfl, -⟩
      rw [Text.dropPrefix?_eq_some.2 rfl] at hdrop
      cases hdrop
    | some r =>
      obtain rfl := Text.dropPrefix?_eq_some.1 hdrop
      simp only [matchAt?]
      cases r with
      | nil =>
        refine iff_of_false ?_ nofun
        rintro ⟨c, rest, hrest, -⟩
        cases List.append_cancel_left hrest
      | cons c r =>
        cases hc : isNameChar c with
        | true =>
          rw [List.takeWhile_cons_of_pos hc]
          exact iff_of_true ⟨c, r, rfl, hc⟩ rfl
        | false =>
          rw [List.takeWhile_cons_of_neg (by simp [hc])]
          refine iff_of_false ?_ nofun
          rintro ⟨d, rest, hrest, hd⟩
          cases List.append_cancel_left hrest
          rw [hc] at hd
          cases hd

theorem closes_iff (name : List Char) :
    k.Closes s ↔ (matchAt? name (.arguments :: k.behind) s).isSome = true := by
  by_cases hmem : ')' ∈ s
  · obtain ⟨args, rest, rfl, hargs⟩ := List.eq_append_cons_of_mem hmem
    rw [closes_append_iff hargs, matchAt?, dropWhile_run (not_mem_run hargs) past_self]
    exact goesOn_iff name
  · rw [matchAt?, dropWhile_eq_nil.2 hmem]
    exact iff_of_false (not_closes_of_not_mem hmem) nofun

end Callable

theorem mem_forms_cases (h : form ∈ forms) :
    Part.arguments ∉ form ∨ ∃ k : Callable, form = k.line := by
  simp only [forms, List.mem_cons, List.not_mem_nil, or_false] at h
  rcases h with rfl | rfl | rfl | rfl | rfl | rfl
  · exact .inl (by decide)
  · exact .inl (by decide)
  · exact .inr ⟨.method, rfl⟩
  · exact .inr ⟨.constructor, rfl⟩
  · exact .inl (by decide)
  · exact .inl (by decide)

/-! ## Searches -/

/-- The rests of a text at which a search for a form looks: behind each match, and otherwise a
character further on. -/
inductive Comes (form : Form) : List Char → List Char → Prop
  | here {s : List Char} : Comes form s s
  | on {c : Char} {s t : List Char} (fails : matchAt? [] form (c :: s) = none) (later : Comes form s t) :
    Comes form (c :: s) t
  | behind {s rest name t : List Char} (succeeds : matchAt? [] form s = some (name, rest))
    (later : Comes form rest t) : Comes form s t

/-- A text ends inside of the arguments of a location line that the search comes to. -/
def Callable.LeavesOpen (k : Callable) (s : List Char) : Prop := ∃ t, Comes k.line s t ∧ k.Unclosed t

theorem matchAt?_line (hform : form ∈ forms) : matchAt? [] form ('\n' :: b) = none := by
  refine Option.eq_none_iff_forall_ne_some.2 fun m hm => ?_
  obtain ⟨r, hr, -⟩ := heading_of_matchAt? hform hm
  cases hr

/-- Unless arguments are left open and closed, the hits in two texts in lines of their own are those of
the one and those of the other. -/
theorem hits_append (hform : form ∈ forms)
    (h : ∀ t p, Comes form s t → pending? [] form t = some p →
      matchAt? p.1 (.arguments :: p.2) b = none) :
    hits form (s ++ '\n' :: b) = hits form s ++ hits form b := by
  induction hlength : s.length using Nat.strong_induction_on generalizing s with
  | _ n ih =>
  subst hlength
  cases s with
  | nil => rw [List.nil_append, hits_cons hform, matchAt?_line hform]; rfl
  | cons c s =>
    have happend := matchAt?_append (inLine_of_mem_forms hform) [] (c :: s) b
    rw [hits_cons hform, List.cons_append, hits_cons hform, ← List.cons_append, happend]
    cases hmatch : matchAt? [] form (c :: s) with
    | some m =>
      obtain ⟨name, rest⟩ := m
      have hlt := length_lt_of_matchAt? hform hmatch
      exact congrArg (name :: ·) (ih _ hlt (fun t p ht => h t p (.behind hmatch ht)) rfl)
    | none =>
      have hrest := ih s.length (Nat.lt_succ_self _) (fun t p ht => h t p (.on hmatch ht)) rfl
      cases hpending : pending? [] form (c :: s) with
      | none => exact hrest
      | some p =>
        rw [Option.bind_some, h _ p .here hpending]
        exact hrest

/-- The first rest at which the search finds arguments left open: up to there it goes on in the same way
whatever lines follow. -/
theorem exists_first (hform : form ∈ forms) {p : List Char × Form} (h : Comes form s t)
    (hp : pending? [] form t = some p) :
    ∃ names rest p, pending? [] form rest = some p ∧ rest <:+ s ∧ hits form s = names ++ hits form rest ∧
      ∀ b, hits form (s ++ '\n' :: b) = names ++ hits form (rest ++ '\n' :: b) := by
  induction h with
  | here => exact ⟨[], _, p, hp, List.suffix_rfl, rfl, fun b => rfl⟩
  | @on c s t fails later ih =>
    cases hpending : pending? [] form (c :: s) with
    | some q => exact ⟨[], c :: s, q, hpending, List.suffix_rfl, rfl, fun b => rfl⟩
    | none =>
      obtain ⟨names, rest, q, hq, hrest, hhere, hall⟩ := ih hp
      refine ⟨names, rest, q, hq, hrest.trans (List.suffix_cons c s), ?_, fun b => ?_⟩
      · rw [hits_cons hform, fails, hhere]
      · have happend := matchAt?_append (inLine_of_mem_forms hform) [] (c :: s) b
        rw [fails, hpending] at happend
        rw [List.cons_append, hits_cons hform, ← List.cons_append, happend]
        exact hall b
  | @behind s after name t succeeds later ih =>
    obtain ⟨names, rest, q, hq, hrest, hhere, hall⟩ := ih hp
    refine ⟨name :: names, rest, q, hq, hrest.trans (matchAt?_suffix succeeds), ?_, fun b => ?_⟩
    · rw [hits_of_matchAt? hform succeeds, hhere, List.cons_append]
    · have happend := matchAt?_append (inLine_of_mem_forms hform) [] s b
      rw [succeeds] at happend
      rw [hits_of_matchAt? hform happend, hall, List.cons_append]

/-! ## Classes -/

theorem contains_classNames {d x : String} : (classNames d).contains x = true ↔
    ∃ form ∈ forms, ∃ name ∈ hits form d.toList, x = .ofList (Text.dropEndWhile (· == '.') name) := by
  rw [classNames, Names.contains_ofList]
  simp only [List.mem_flatMap, List.mem_map, hits, eq_comm]

theorem classNames_eq_union {a b : String}
    (h : ∀ form ∈ forms, hits form (a.toList ++ '\n' :: b.toList) =
      hits form a.toList ++ hits form b.toList) :
    classNames (a ++ "\n" ++ b) = (classNames a).union (classNames b) := by
  have htext : (a ++ "\n" ++ b).toList = a.toList ++ '\n' :: b.toList := by simp
  refine Names.ext_contains fun x => ?_
  simp only [contains_classNames, Names.contains_union, htext]
  constructor
  · rintro ⟨form, hform, name, hname, rfl⟩
    rw [h form hform, List.mem_append] at hname
    exact hname.imp (fun hname => ⟨form, hform, name, hname, rfl⟩)
      fun hname => ⟨form, hform, name, hname, rfl⟩
  · rintro (⟨form, hform, name, hname, rfl⟩ | ⟨form, hform, name, hname, rfl⟩)
    · exact ⟨form, hform, name, h form hform ▸ List.mem_append_left _ hname, rfl⟩
    · exact ⟨form, hform, name, h form hform ▸ List.mem_append_right _ hname, rfl⟩

/-! ## Classes of two texts -/

/-- The class of a match is part of the text. -/
theorem infix_of_matchAt? (h : matchAt? found form s = some (name, rest)) :
    name = found ∨ name <:+: s := by
  fun_induction matchAt? found form s with
  | case1 found s =>
    cases h
    exact .inl rfl
  | case2 found t parts s r hr ih | case4 found t u parts s r hr ih
  | case5 found t u parts s _ r hr ih =>
    rw [Text.dropPrefix?_eq_some.1 hr]
    exact (ih h).imp_right fun hin => hin.trans (List.suffix_append _ r).isInfix
  | case3 | case6 | case7 | case9 | case11 => cases h
  | case8 found parts s _ ih =>
    exact (ih h).imp_right fun hin => hin.trans (List.dropWhile_suffix _).isInfix
  | case10 found parts s _ ih =>
    rcases ih h with rfl | hin
    · exact .inr (List.takeWhile_prefix _).isInfix
    · exact .inr (hin.trans (List.dropWhile_suffix _).isInfix)
  | case12 found parts s c r hr ih =>
    have hsuffix := List.dropWhile_suffix (l := s) (· != ')')
    rw [hr] at hsuffix
    exact (ih h).imp_right fun hin => hin.trans ((List.suffix_cons c r).trans hsuffix).isInfix

theorem infix_of_mem_hits (hform : form ∈ forms) (h : name ∈ hits form s) : name <:+: s := by
  induction hlength : s.length using Nat.strong_induction_on generalizing s with
  | _ n ih =>
  subst hlength
  cases s with
  | nil => cases h
  | cons c s =>
    rw [hits_cons hform] at h
    cases hmatch : matchAt? [] form (c :: s) with
    | none =>
      rw [hmatch] at h
      exact (ih _ (Nat.lt_succ_self _) h rfl).trans (List.suffix_cons c s).isInfix
    | some m =>
      obtain ⟨first, rest⟩ := m
      rw [hmatch] at h
      rcases List.mem_cons.1 h with rfl | h
      · rcases infix_of_matchAt? hmatch with rfl | hin
        · exact List.nil_infix
        · exact hin
      · exact (ih _ (length_lt_of_matchAt? hform hmatch) h rfl).trans (matchAt?_suffix hmatch).isInfix

/-- A class name longer than a text. -/
def longName (s : List Char) : List Char := List.replicate (s.length + 1) 'x'

theorem isNameChar_of_mem_longName {c : Char} (h : c ∈ longName s) : isNameChar c = true := by
  rw [List.eq_of_mem_replicate h]
  decide

theorem dropEndWhile_longName : Text.dropEndWhile (· == '.') (longName s) = longName s := by
  rw [Text.dropEndWhile, longName, List.reverse_replicate, List.replicate_succ,
    List.dropWhile_cons_of_neg (by decide), ← List.replicate_succ, List.reverse_replicate]

theorem longName_ne (h : name.length ≤ s.length) :
    String.ofList (longName s) ≠ .ofList (Text.dropEndWhile (· == '.') name) := by
  intro heq
  have hlength := congrArg List.length (String.ofList_injective heq)
  have hle := (List.length_dropWhile_le (· == '.') name.reverse).trans_eq List.length_reverse
  rw [longName, List.length_replicate, Text.dropEndWhile, List.length_reverse] at hlength
  omega

theorem pending?_excludes {p : List Char × Form} (h : pending? found form s = some p) :
    matchAt? found form s = none := by
  fun_induction pending? found form s with
  | case2 found t parts s r hr ih | case4 found t u parts s r hr ih =>
    rw [matchAt?, hr]
    exact ih h
  | case5 found t u parts s ht r hr ih =>
    rw [matchAt?, ht]
    simp only [hr]
    exact ih h
  | case8 found parts s hword ih =>
    rw [matchAt?, if_neg hword]
    exact ih h
  | case10 found parts s _ ih =>
    rw [matchAt?]
    split
    · rfl
    · exact ih h
  | case11 found parts s hs => rw [matchAt?, hs]
  | case12 found parts s c r hr ih =>
    rw [matchAt?, hr]
    exact ih h
  | case1 | case3 | case6 | case7 | case9 => cases h

/-- Where arguments are left open, the form goes on with what closes them. -/
theorem matchAt?_resumed (hform : form ∈ forms) {p : List Char × Form} {m : List Char × List Char}
    (hp : pending? [] form t = some p) (h : matchAt? p.1 (.arguments :: p.2) b = some m) :
    matchAt? [] form (t ++ '\n' :: b) = some m := by
  rw [matchAt?_append (inLine_of_mem_forms hform), pending?_excludes hp, hp]
  exact h

theorem matchAt?_method {x : List Char} (hne : x ≠ []) (hx : ∀ c ∈ x, isNameChar c = true) :
    matchAt? [] (.arguments :: Callable.method.behind) (')' :: (" of class ".toList ++ x)) = some (x, []) := by
  have hdrop : Text.dropPrefix? " of class ".toList (" of class ".toList ++ x) = some x :=
    Text.dropPrefix?_eq_some.2 rfl
  have hparen : (')' :: (" of class ".toList ++ x)).dropWhile (· != ')') =
      ')' :: (" of class ".toList ++ x) := rfl
  rw [matchAt?, hparen, Callable.behind]
  simp only [matchAt?, hdrop]
  have htake := takeWhile_run (r := []) hx nofun
  have hrest := dropWhile_run (r := []) hx nofun
  rw [List.append_nil] at htake hrest
  rw [htake, hrest]
  obtain ⟨c, x, rfl⟩ := List.exists_cons_of_ne_nil hne
  rfl

/-- The location line of a constructor without arguments. -/
def constructorLine (x : List Char) : List Char :=
  "location: constructor ".toList ++ (x ++ ['(', ')'])

theorem matchAt?_constructorLine {x : List Char} (hne : x ≠ []) (hx : ∀ c ∈ x, isNameChar c = true) :
    matchAt? [] Callable.constructor.line (constructorLine x) = some (x, []) := by
  have hdrop : Text.dropPrefix? "location: constructor ".toList (constructorLine x) =
      some (x ++ ['(', ')']) := Text.dropPrefix?_eq_some.2 rfl
  have hpast : Past isNameChar ['(', ')'] := fun c hc => by cases hc; decide
  change matchAt? [] [.text "location: constructor ", .name, .text "(", .arguments] _ = _
  rw [matchAt?, hdrop]
  simp only
  rw [matchAt?, takeWhile_run hx hpast, dropWhile_run hx hpast]
  obtain ⟨c, x, rfl⟩ := List.exists_cons_of_ne_nil hne
  rfl

theorem constructorLine_eq {x : List Char} (hx : ∀ c ∈ x, isNameChar c = true) :
    ∃ front, constructorLine x = front ++ ')' :: [] ∧ ')' ∉ front := by
  refine ⟨"location: constructor ".toList ++ (x ++ ['(']), ?_, ?_⟩
  · have hsplit (s : List Char) : s ++ (x ++ ['(', ')']) = (s ++ (x ++ ['('])) ++ [')'] := by simp
    exact hsplit _
  · intro hmem
    rcases List.mem_append.1 hmem with hmem | hmem
    · exact absurd hmem (by decide)
    rcases List.mem_append.1 hmem with hmem | hmem
    · have hparen : isNameChar ')' = false := by decide
      rw [hx _ hmem] at hparen
      cases hparen
    · exact absurd hmem (by decide)

theorem hits_constructorLine {x : List Char} (hform : form ∈ forms)
    (hother : form ≠ Callable.constructor.line) (hx : 'l' ∉ x) : hits form (constructorLine x) = [] := by
  have hrest : 'l' ∉ "ocation: constructor ".toList ++ (x ++ ['(', ')']) := by
    rw [List.mem_append, List.mem_append, not_or, not_or]
    exact ⟨by decide, hx, by decide⟩
  have hnone : matchAt? [] form (constructorLine x) = none := by
    simp only [forms, List.mem_cons, List.not_mem_nil, or_false] at hform
    rcases hform with rfl | rfl | rfl | rfl | rfl | rfl
    · rfl
    · rfl
    · rfl
    · exact absurd rfl hother
    · rfl
    · rfl
  change hits form ('l' :: ("ocation: constructor ".toList ++ (x ++ ['(', ')']))) = []
  rw [hits_cons hform]
  change (match matchAt? [] form (constructorLine x) with
    | some (name, rest) => name :: hits form rest
    | none => hits form _) = []
  rw [hnone]
  exact hits_eq_nil hform (by decide) hrest

theorem hits_append_of_not_closes (hform : form ∈ forms)
    (h : ∀ k : Callable, form = k.line → ∀ t, Comes form s t → k.Unclosed t → ¬ k.Closes b) :
    hits form (s ++ '\n' :: b) = hits form s ++ hits form b := by
  refine hits_append hform fun t p ht hp => ?_
  rcases mem_forms_cases hform with hnone | ⟨k, rfl⟩
  · rw [pending?_eq_none hnone] at hp
    cases hp
  · obtain ⟨name, args, hsplit, hne, hname, hargs, rfl⟩ := Callable.pending?_line.1 hp
    have hopen : k.Unclosed t := ⟨name, args, hsplit, hne, hname, hargs⟩
    simpa using mt (Callable.closes_iff (k.classOf name)).2 (h k rfl t ht hopen)

/-- A class that stands in a line of its own is missed if the arguments in front go on up to it. -/
theorem missed_of_leavesOpen {a : String} (h : Callable.constructor.LeavesOpen a.toList) :
    let b := String.ofList (constructorLine (longName a.toList))
    let x := String.ofList (longName a.toList)
    (classNames b).contains x = true ∧ (classNames (a ++ "\n" ++ b)).contains x = false := by
  intro b x
  have hne : longName a.toList ≠ [] := by simp [longName]
  have hchars : ∀ c ∈ longName a.toList, isNameChar c = true := fun c hc => isNameChar_of_mem_longName hc
  have hb : b.toList = constructorLine (longName a.toList) := String.toList_ofList
  have htext : (a ++ "\n" ++ b).toList = a.toList ++ '\n' :: b.toList := by simp
  obtain ⟨front, hfront, hparen⟩ := constructorLine_eq hchars
  refine ⟨?_, Bool.eq_false_iff.2 fun hx => ?_⟩
  · refine contains_classNames.2 ⟨_, Callable.constructor.line_mem, longName a.toList, ?_, ?_⟩
    · have hhit := matchAt?_constructorLine hne hchars
      rw [hb, hits_of_matchAt? Callable.constructor.line_mem hhit]
      exact List.mem_cons_self
    · rw [dropEndWhile_longName]
  · obtain ⟨form, hform, name, hname, hx⟩ := contains_classNames.1 hx
    refine longName_ne ?_ hx
    rw [htext, hb] at hname
    by_cases hother : form = Callable.constructor.line
    · subst hother
      obtain ⟨t, hcomes, n, args, hsplit, hn, hall, hargs⟩ := h
      have hp := Callable.pending?_line.2 ⟨n, args, hsplit, hn, hall, hargs, rfl⟩
      obtain ⟨names, rest, p, hp, hrest, hhere, hlines⟩ := exists_first hform hcomes hp
      obtain ⟨n, args, hsplit, -, -, -, rfl⟩ := Callable.pending?_line.1 hp
      have hclosed : matchAt? n [.arguments] (constructorLine (longName a.toList)) = some (n, []) := by
        rw [hfront, matchAt?, dropWhile_run (not_mem_run hparen) past_self]
        rfl
      rw [hlines, hits_of_matchAt? hform (matchAt?_resumed hform hp hclosed), List.mem_append] at hname
      rcases hname with hname | hname
      · have hmem : name ∈ hits Callable.constructor.line a.toList :=
          hhere ▸ List.mem_append_left _ hname
        exact (infix_of_mem_hits hform hmem).length_le
      · obtain rfl := List.mem_singleton.1 hname
        refine Nat.le_trans ?_ hrest.length_le
        rw [hsplit]
        simp only [List.length_append, List.length_cons]
        omega
    · have hlines := hits_append_of_not_closes (s := a.toList) (b := constructorLine (longName a.toList))
        hform fun k hk t _ _ hcloses => by
          cases k with
          | constructor => exact hother hk
          | method =>
            rw [hfront, Callable.closes_append_iff hparen] at hcloses
            obtain ⟨c, rest, hnil, -⟩ := hcloses
            cases hnil
      have hl : 'l' ∉ longName a.toList := fun hmem => by cases List.eq_of_mem_replicate hmem
      rw [hlines, hits_constructorLine hform hother hl, List.append_nil] at hname
      exact (infix_of_mem_hits hform hname).length_le

/-- A text that goes on where the arguments of a method end brings up a class that stands in no line. -/
theorem invented_of_leavesOpen {a : String} (h : Callable.method.LeavesOpen a.toList) :
    let b := String.ofList (')' :: (" of class ".toList ++ longName a.toList))
    let x := String.ofList (longName a.toList)
    (classNames b).contains x = false ∧ (classNames (a ++ "\n" ++ b)).contains x = true := by
  intro b x
  have hne : longName a.toList ≠ [] := by simp [longName]
  have hchars : ∀ c ∈ longName a.toList, isNameChar c = true := fun c hc => isNameChar_of_mem_longName hc
  have hb : b.toList = ')' :: (" of class ".toList ++ longName a.toList) := String.toList_ofList
  have htext : (a ++ "\n" ++ b).toList = a.toList ++ '\n' :: b.toList := by simp
  constructor
  · refine Bool.eq_false_iff.2 fun hx => ?_
    obtain ⟨form, hform, name, hname, -⟩ := contains_classNames.1 hx
    have hcolon : ':' ∉ b.toList := by
      rw [hb, List.mem_cons, List.mem_append, not_or, not_or]
      refine ⟨by decide, by decide, fun hmem => ?_⟩
      cases List.eq_of_mem_replicate hmem
    rw [hits_eq_nil hform (by decide) hcolon] at hname
    cases hname
  · obtain ⟨t, hcomes, n, args, hsplit, hn, hall, hargs⟩ := h
    have hp := Callable.pending?_line.2 ⟨n, args, hsplit, hn, hall, hargs, rfl⟩
    obtain ⟨names, rest, p, hp, -, -, hlines⟩ := exists_first Callable.method.line_mem hcomes hp
    obtain ⟨n, args, -, -, -, -, rfl⟩ := Callable.pending?_line.1 hp
    have hhit := matchAt?_resumed Callable.method.line_mem hp (matchAt?_method hne hchars)
    refine contains_classNames.2 ⟨_, Callable.method.line_mem, longName a.toList, ?_, ?_⟩
    · rw [htext, hb, hlines, hits_of_matchAt? Callable.method.line_mem hhit]
      exact List.mem_append_right _ List.mem_cons_self
    · rw [dropEndWhile_longName]

/-- **Lines of diagnostics.** The classes of two texts in lines of their own are those of the one and those
of the other, unless the first text leaves arguments open that the second one closes. A text leaves nothing
open if and only if that is so whatever text follows. -/
theorem classNames_append (a : String) :
    (∀ b : String, (∀ k : Callable, k.LeavesOpen a.toList → ¬ k.Closes b.toList) →
      classNames (a ++ "\n" ++ b) = (classNames a).union (classNames b)) ∧
    ((∀ k : Callable, ¬ k.LeavesOpen a.toList) ↔
      ∀ b, classNames (a ++ "\n" ++ b) = (classNames a).union (classNames b)) := by
  have hall (b : String) (h : ∀ k : Callable, k.LeavesOpen a.toList → ¬ k.Closes b.toList) :
      classNames (a ++ "\n" ++ b) = (classNames a).union (classNames b) :=
    classNames_eq_union fun form hform =>
      hits_append_of_not_closes hform fun k hk t ht hopen => h k ⟨t, hk ▸ ht, hopen⟩
  refine ⟨hall, fun h b => hall b fun k hk => absurd hk (h k), fun h k hk => ?_⟩
  have hnew : (classNames a).contains (.ofList (longName a.toList)) = false :=
    Bool.eq_false_iff.2 fun hx => by
      obtain ⟨form, hform, name, hname, hx⟩ := contains_classNames.1 hx
      exact longName_ne (infix_of_mem_hits hform hname).length_le hx
  cases k with
  | method =>
    have ⟨hb, hx⟩ := invented_of_leavesOpen hk
    rw [h, Names.contains_union, hnew, hb] at hx
    exact hx.elim nofun nofun
  | constructor =>
    have ⟨hb, hx⟩ := missed_of_leavesOpen hk
    rw [h, ← Bool.not_eq_true, Names.contains_union] at hx
    exact hx (.inr hb)

/-- A line that breaks off in its arguments is without effect as long as nothing closes them. -/
theorem classNames_append_order :
    let a := "location: constructor acme.Cart(int"
    let b := "location: class acme.Order"
    (∀ k : Callable, k.LeavesOpen a.toList → ¬ k.Closes b.toList) ∧
      classNames (a ++ "\n" ++ b) = (classNames a).union (classNames b) := by
  intro a b
  have hopen : ∀ k : Callable, k.LeavesOpen a.toList → ¬ k.Closes b.toList := fun k _ =>
    Callable.not_closes_of_not_mem (by decide)
  exact ⟨hopen, (classNames_append a).1 b hopen⟩

/-- A constructor line that breaks off in its arguments takes the next one for their end: its own class is
named, that of the next line is not. -/
theorem order_unnamed :
    let a := "location: constructor acme.Cart(int"
    let b := "location: constructor acme.Order(int)"
    classNames a = ∅ ∧ classNames b = .ofList ["acme.Order"] ∧
      classNames (a ++ "\n" ++ b) = .ofList ["acme.Cart"] ∧
      classNames (a ++ "\n" ++ b) ≠ (classNames a).union (classNames b) := by
  decide

end Testwright.Diagnostics
