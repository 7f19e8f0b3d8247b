import Testwright.Attempt.Report
import Testwright.Proofs.Text.Cutting

/-!
# What a stem keeps of a parameter

A `Parameter` is the type of a parameter as a signature may write it, with packages, type arguments and
dimensions. Its `outline` holds the simple name and the dimensions only, and the parts of a stem are the
outlines of the parameters (`stemParts_text`). Each step of the reader has a lemma of its own: type
arguments go first, then blanks and points, then brackets, then packages.
-/

namespace Testwright

open Text (Past past_of_forall)

/-! ## Signatures as they are written -/

/-- A character that neither sets parts of a signature apart nor leads out of a directory. -/
def isIdentifierChar (c : Char) : Bool :=
  !Text.isBlank c && !(['<', '>', '[', ']', '(', ')', ',', '.', '/'].contains c)

def IsIdentifier (name : List Char) : Prop := name ≠ [] ∧ ∀ c ∈ name, isIdentifierChar c = true

/-- Every angle bracket of a text has its counterpart. -/
inductive Balanced : List Char → Prop
  | nil : Balanced []
  | cons {c s} (opens : c ≠ '<') (closes : c ≠ '>') (rest : Balanced s) : Balanced (c :: s)
  | nest {s r} (inner : Balanced s) (rest : Balanced r) : Balanced ('<' :: (s ++ '>' :: r))

/-- A part of the name of a type, with its type arguments. -/
structure TypePart where
  name : List Char
  arguments : List Char := []
  identifier : IsIdentifier name
  enclosed : arguments = [] ∨ ∃ inner, Balanced inner ∧ arguments = '<' :: (inner ++ ['>'])

def TypePart.text (t : TypePart) : List Char := t.name ++ t.arguments

/-- The type of a parameter: packages and outer classes, the simple name and the dimensions, between
blanks. -/
structure Parameter where
  front : List Char := []
  outer : List TypePart
  simple : TypePart
  dimensions : Nat := 0
  spread : Bool := false
  back : List Char := []
  blanks : ∀ c ∈ front ++ back, Text.isBlank c = true

namespace Parameter

def parts (p : Parameter) : List TypePart := p.outer ++ [p.simple]

/-- What follows the name of a type. -/
def tail (p : Parameter) : List Char :=
  (List.replicate p.dimensions ['[', ']']).flatten ++ if p.spread then ['.', '.', '.'] else []

def text (p : Parameter) : List Char :=
  p.front ++ (Text.join ['.'] (p.parts.map TypePart.text) ++ (p.tail ++ p.back))

/-- The name of a type without type arguments. -/
def fullName (p : Parameter) : List Char := Text.join ['.'] (p.parts.map TypePart.name)

def erased (p : Parameter) : List Char := p.fullName ++ p.tail

/-- The dimensions, those of a parameter for any number of arguments among them. -/
def rank (p : Parameter) : Nat := p.dimensions + if p.spread then 1 else 0

/-- What a stem keeps of a type. -/
def outline (p : Parameter) : List Char :=
  (p.simple.name.filter fun c => c.isAlphanum || c == '$') ++
    (List.replicate p.rank "Array".toList).flatten

/-- The simple name and the dimensions of a type. -/
def visible (p : Parameter) : List Char × Nat := (p.simple.name, p.rank)

/-- The simple name of a type is kept as it is and not taken for one with dimensions. -/
structure Plain (p : Parameter) : Prop where
  ascii : ∀ c ∈ p.simple.name, (c.isAlphanum || c == '$') = true
  element : ¬"Array".toList <:+ p.simple.name

end Parameter

/-! ## Characters -/

section
variable {c : Char} {name : List Char}

theorem IsIdentifier.not_mem (h : IsIdentifier name)
    (hc : c ∈ ['<', '>', '[', ']', '(', ')', ',', '.', '/']) : c ∉ name := by
  intro hmem
  have hchar := h.2 c hmem
  rw [isIdentifierChar, Bool.and_eq_true, List.contains_iff_mem.2 hc] at hchar
  cases hchar.2

theorem IsIdentifier.inked (h : IsIdentifier name) : ∀ c ∈ name, Text.isBlank c = false := by
  intro c hc
  have hchar := h.2 c hc
  rw [isIdentifierChar, Bool.and_eq_true, Bool.not_eq_true'] at hchar
  exact hchar.1

end

/-! ## Type arguments -/

section
variable {s r : List Char} {depth : Nat}

namespace Report

theorem erase_of_balanced (h : Balanced s) : erase (depth + 1) (s ++ r) = erase (depth + 1) r := by
  induction h generalizing depth r with
  | nil => rfl
  | cons opens closes rest ih =>
    rw [List.cons_append, erase, if_neg opens, if_neg closes, if_neg (Nat.succ_ne_zero depth)]
    exact ih
  | nest inner rest ihInner ihRest =>
    rw [List.cons_append, List.append_assoc, List.cons_append, erase, if_pos rfl, ihInner, erase,
      if_neg (by decide), if_pos rfl]
    exact ihRest

theorem erase_of_plain (h : ∀ c ∈ s, c ≠ '<' ∧ c ≠ '>') : erase 0 (s ++ r) = s ++ erase 0 r := by
  induction s with
  | nil => rfl
  | cons c s ih =>
    obtain ⟨⟨hopens, hcloses⟩, hs⟩ := List.forall_mem_cons.1 h
    rw [List.cons_append, erase, if_neg hopens, if_neg hcloses, if_pos rfl, ih hs]
    rfl

theorem erase_part (t : TypePart) : erase 0 (t.text ++ r) = t.name ++ erase 0 r := by
  rw [TypePart.text, List.append_assoc, erase_of_plain]
  · rcases t.enclosed with hnone | ⟨inner, hinner, harguments⟩
    · rw [hnone]
      rfl
    · rw [harguments, List.cons_append, List.append_assoc, erase, if_pos rfl, erase_of_balanced hinner]
      rfl
  · intro c hc
    constructor
    · rintro rfl
      exact t.identifier.not_mem (by decide) hc
    · rintro rfl
      exact t.identifier.not_mem (by decide) hc

theorem erase_join {sep : Char} (hopens : sep ≠ '<') (hcloses : sep ≠ '>') {α : Type}
    {text erased : α → List Char} (parts : List α)
    (h : ∀ t ∈ parts, ∀ r, erase 0 (text t ++ r) = erased t ++ erase 0 r) :
    erase 0 (Text.join [sep] (parts.map text) ++ r) =
      Text.join [sep] (parts.map erased) ++ erase 0 r := by
  induction parts with
  | nil => rfl
  | cons t parts ih =>
    obtain ⟨ht, hparts⟩ := List.forall_mem_cons.1 h
    cases parts with
    | nil => exact ht r
    | cons u parts =>
      simp only [List.map_cons, Text.join, List.append_assoc] at ih ⊢
      rw [ht, List.singleton_append, erase, if_neg hopens, if_neg hcloses, if_pos rfl, ih hparts]
      rfl

end Report

end

namespace Parameter

variable (p : Parameter) {c : Char}

/-! ## The name of a type -/

theorem mem_tail (h : c ∈ p.tail) : c = '[' ∨ c = ']' ∨ c = '.' := by
  rw [tail, List.mem_append, List.mem_flatten] at h
  rcases h with ⟨pair, hpair, h⟩ | h
  · rw [List.eq_of_mem_replicate hpair] at h
    simp only [List.mem_cons, List.not_mem_nil, or_false] at h
    exact h.elim .inl fun h => .inr (.inl h)
  · split at h
    · simp only [List.mem_cons, List.not_mem_nil, or_false, or_self] at h
      exact .inr (.inr h)
    · cases h

theorem mem_fullName (h : c ∈ p.fullName) : c = '.' ∨ isIdentifierChar c = true := by
  rcases Text.mem_join h with h | ⟨name, hname, h⟩
  · exact .inl h
  · obtain ⟨t, -, rfl⟩ := List.mem_map.1 hname
    exact .inr (t.identifier.2 c h)

theorem not_mem_fullName (hpoint : c ≠ '.') (hc : isIdentifierChar c = false) : c ∉ p.fullName := by
  intro hmem
  rcases p.mem_fullName hmem with h | h
  · exact hpoint h
  · rw [hc] at h
    cases h

theorem fullName_eq : p.fullName = p.simple.name ∨
    p.fullName = Text.join ['.'] (p.outer.map TypePart.name) ++ '.' :: p.simple.name := by
  rw [fullName, parts, List.map_append]
  cases houter : p.outer.map TypePart.name with
  | nil => exact .inl rfl
  | cons name names => exact .inr (Text.join_append (List.cons_ne_nil _ _) (List.cons_ne_nil _ _))

theorem fullName_ne_nil : p.fullName ≠ [] := by
  have hne := p.simple.identifier.1
  rcases p.fullName_eq with h | h
  · rwa [h]
  · rw [h]
    exact List.append_ne_nil_of_right_ne_nil _ nofun

theorem afterLast_fullName : Text.afterLast '.' p.fullName = p.simple.name := by
  have hpoint : '.' ∉ p.simple.name := p.simple.identifier.not_mem (by decide)
  rcases p.fullName_eq with h | h
  · rw [h, Text.afterLast_of_not_mem hpoint]
  · rw [h, Text.afterLast_append hpoint]

theorem inked_erased : ∀ c ∈ p.erased, Text.isBlank c = false := by
  intro c hc
  rw [erased, List.mem_append] at hc
  rcases hc with hc | hc
  · rcases p.mem_fullName hc with rfl | hc
    · rfl
    · rw [isIdentifierChar, Bool.and_eq_true, Bool.not_eq_true'] at hc
      exact hc.1
  · rcases p.mem_tail hc with rfl | rfl | rfl <;> rfl

theorem comma_not_mem_erased : ',' ∉ p.erased := by
  rw [erased, List.mem_append, not_or]
  constructor
  · exact p.not_mem_fullName (by decide) rfl
  · intro h
    have := p.mem_tail h
    simp at this

theorem erased_ne_nil : p.erased ≠ [] := List.append_ne_nil_of_left_ne_nil p.fullName_ne_nil _

/-! ## Dimensions -/

def pairs (n : Nat) : List Char := (List.replicate n ['[', ']']).flatten

theorem pairs_succ (n : Nat) (r : List Char) : pairs (n + 1) ++ r = '[' :: ']' :: (pairs n ++ r) := by
  rw [pairs, List.replicate_succ, List.flatten_cons, List.append_assoc]
  rfl

theorem bracketPairs_append {s r : List Char} (h : '[' ∉ s) :
    Report.bracketPairs (s ++ r) = Report.bracketPairs r := by
  induction s with
  | nil => rfl
  | cons c s ih =>
    rw [List.mem_cons, not_or] at h
    rw [List.cons_append, Report.bracketPairs, ih h.2]
    rintro _ rfl
    exact absurd rfl h.1

theorem dropBracketPairs_append {s r : List Char} (h : '[' ∉ s) :
    Report.dropBracketPairs (s ++ r) = s ++ Report.dropBracketPairs r := by
  induction s with
  | nil => rfl
  | cons c s ih =>
    rw [List.mem_cons, not_or] at h
    rw [List.cons_append, Report.dropBracketPairs, ih h.2]
    · rfl
    · rintro _ rfl
      exact absurd rfl h.1

theorem bracketPairs_pairs (n : Nat) {r : List Char} (h : '[' ∉ r) :
    Report.bracketPairs (pairs n ++ r) = n := by
  induction n with
  | zero =>
    have hnone := bracketPairs_append (r := []) h
    rwa [List.append_nil] at hnone
  | succ n ih => rw [pairs_succ, Report.bracketPairs, ih]

theorem dropBracketPairs_pairs (n : Nat) : Report.dropBracketPairs (pairs n) = [] := by
  induction n with
  | zero => rfl
  | succ n ih =>
    have hsucc := pairs_succ n []
    rw [List.append_nil, List.append_nil] at hsucc
    rw [hsucc, Report.dropBracketPairs, ih]

/-! ## What a stem keeps -/

theorem dropSpread_of_past {s : List Char} (h : Past (· == '.') s.reverse) :
    Overload.dropSpread s = s := by
  have hrun := Text.takeWhile_run (s := []) nofun h
  rw [List.nil_append] at hrun
  rw [Overload.dropSpread, hrun]
  exact List.take_length

theorem dropSpread_append {s : List Char} (h : Past (· == '.') s.reverse) :
    Overload.dropSpread (s ++ ['.', '.', '.']) = s := by
  have hrun : (s ++ ['.', '.', '.']).reverse.takeWhile (· == '.') = ['.', '.', '.'] := by
    rw [List.reverse_append]
    exact Text.takeWhile_run (List.all_eq_true.1 rfl) h
  rw [Overload.dropSpread, hrun, List.length_append]
  exact List.take_left

/-- The type of one element of a parameter for any number of arguments ends in no point. -/
theorem past_point : Past (· == '.') (p.fullName ++ pairs p.dimensions).reverse := by
  rw [List.reverse_append]
  apply Text.past_append
  · apply past_of_forall
    intro c hc
    rw [List.mem_reverse, pairs, List.mem_flatten] at hc
    obtain ⟨pair, hpair, hc⟩ := hc
    rw [List.eq_of_mem_replicate hpair] at hc
    simp only [List.mem_cons, List.not_mem_nil, or_false] at hc
    rcases hc with rfl | rfl <;> rfl
  · have hname : Past (· == '.') p.simple.name.reverse := by
      apply past_of_forall
      intro c hc
      rw [List.mem_reverse] at hc
      rw [beq_eq_false_iff_ne]
      rintro rfl
      exact p.simple.identifier.not_mem (by decide) hc
    rcases p.fullName_eq with h | h
    · rwa [h]
    · rw [h, List.reverse_append, List.reverse_cons, List.append_assoc]
      exact Text.past_append_of_ne_nil hname (List.reverse_ne_nil_iff.2 p.simple.identifier.1)

theorem erased_eq : p.erased =
    (p.fullName ++ pairs p.dimensions) ++ if p.spread then ['.', '.', '.'] else [] := by
  rw [erased, tail, List.append_assoc]
  rfl

theorem dropSpread_erased : Overload.dropSpread p.erased = p.fullName ++ pairs p.dimensions := by
  rw [erased_eq]
  split
  · exact dropSpread_append p.past_point
  · rw [List.append_nil, dropSpread_of_past p.past_point]

theorem isSpread_erased : ['.', '.', '.'] <:+ p.erased ↔ p.spread = true := by
  rw [erased_eq]
  split
  · next h => exact ⟨fun _ => h, fun _ => List.suffix_append _ _⟩
  · next h =>
    rw [List.append_nil]
    constructor
    · rintro ⟨front, hfront⟩
      have hpast := p.past_point
      rw [← hfront, List.reverse_append] at hpast
      cases hpast '.' rfl
    · exact fun hspread => absurd hspread h

theorem stemPart_erased : Report.stemPart p.erased = p.outline := by
  have hbracket : '[' ∉ p.fullName := p.not_mem_fullName (by decide) rfl
  have hopen : '<' ∉ p.fullName := p.not_mem_fullName (by decide) rfl
  have hpairs : Report.bracketPairs p.erased = p.dimensions := by
    rw [erased_eq, List.append_assoc, bracketPairs_append hbracket, bracketPairs_pairs]
    split <;> decide
  have hbase : Report.dropBracketPairs (Overload.dropSpread p.erased) = p.fullName := by
    rw [dropSpread_erased, dropBracketPairs_append hbracket, dropBracketPairs_pairs, List.append_nil]
  have htrim : Text.trim p.fullName = p.fullName := by
    have hinked : ∀ c ∈ p.fullName, Text.isBlank c = false :=
      fun c hc => p.inked_erased c (List.mem_append_left _ hc)
    exact Text.trim_of_past p.fullName_ne_nil (past_of_forall hinked)
      (past_of_forall fun c hc => hinked c (List.mem_reverse.1 hc))
  rw [Report.stemPart, hbase, htrim, hpairs, Overload.rawType, Text.before_of_not_mem hopen,
    afterLast_fullName, outline, rank]
  simp only [isSpread_erased]

/-! ## Parameter lists -/

theorem blank_front : ∀ c ∈ p.front, Text.isBlank c = true :=
  fun c hc => p.blanks c (List.mem_append_left _ hc)

theorem blank_back : ∀ c ∈ p.back, Text.isBlank c = true :=
  fun c hc => p.blanks c (List.mem_append_right _ hc)

/-- The type between its blanks, without type arguments. -/
def bare (p : Parameter) : List Char := p.front ++ (p.erased ++ p.back)

theorem ne_bracket_of_blank (h : Text.isBlank c = true) : c ≠ '<' ∧ c ≠ '>' := by
  constructor
  · rintro rfl
    cases h
  · rintro rfl
    cases h

theorem erase_text (r : List Char) : Report.erase 0 (p.text ++ r) = p.bare ++ Report.erase 0 r := by
  have htail : ∀ c ∈ p.tail, c ≠ '<' ∧ c ≠ '>' := by
    intro c hc
    rcases p.mem_tail hc with rfl | rfl | rfl <;> decide
  have hparts : ∀ t ∈ p.parts, ∀ r, Report.erase 0 (t.text ++ r) = t.name ++ Report.erase 0 r :=
    fun t _ _ => Report.erase_part t
  rw [text, List.append_assoc, List.append_assoc, List.append_assoc,
    Report.erase_of_plain fun c hc => ne_bracket_of_blank (p.blank_front c hc),
    Report.erase_join (by decide) (by decide) p.parts hparts,
    Report.erase_of_plain htail,
    Report.erase_of_plain fun c hc => ne_bracket_of_blank (p.blank_back c hc)]
  simp only [bare, erased, fullName, List.append_assoc]

theorem text_ne_nil : p.text ≠ [] := by
  intro hnil
  have hbare := p.erase_text []
  rw [hnil, List.append_nil, Report.erase, List.append_nil, bare, eq_comm, List.append_eq_nil_iff,
    List.append_eq_nil_iff] at hbare
  exact p.erased_ne_nil hbare.2.1

theorem trim_bare : Text.trim p.bare = p.erased :=
  Text.trim_append p.blank_front p.blank_back p.erased_ne_nil (past_of_forall p.inked_erased)
    (past_of_forall fun c hc => p.inked_erased c (List.mem_reverse.1 hc))

theorem comma_not_mem_bare : ',' ∉ p.bare := by
  have hblank : Text.isBlank ',' = false := rfl
  rw [bare, List.mem_append, List.mem_append, not_or, not_or]
  refine ⟨fun h => ?_, p.comma_not_mem_erased, fun h => ?_⟩
  · rw [p.blank_front _ h] at hblank
    cases hblank
  · rw [p.blank_back _ h] at hblank
    cases hblank

/-- No parameter ends in a closing parenthesis, though its type arguments may hold one. -/
theorem past_paren : Past (· == ')') p.text.reverse := by
  have hname : Past (· == ')') p.simple.text.reverse := by
    rw [TypePart.text, List.reverse_append]
    apply Text.past_append
    · rcases p.simple.enclosed with h | ⟨inner, -, h⟩
      · rw [h]
        nofun
      · rw [h, List.reverse_cons, List.reverse_append]
        exact fun c hc => Option.some.inj hc ▸ rfl
    · apply past_of_forall
      intro c hc
      rw [List.mem_reverse] at hc
      rw [beq_eq_false_iff_ne]
      rintro rfl
      exact p.simple.identifier.not_mem (by decide) hc
  have hnames : Past (· == ')') (Text.join ['.'] (p.parts.map TypePart.text)).reverse := by
    rw [parts, List.map_append]
    exact Text.past_reverse_join hname
      (List.append_ne_nil_of_left_ne_nil p.simple.identifier.1 _) _
  have hrest : Past (· == ')') (p.tail ++ p.back).reverse := by
    apply past_of_forall
    intro c hc
    rw [List.mem_reverse, List.mem_append] at hc
    rw [beq_eq_false_iff_ne]
    rintro rfl
    rcases hc with hc | hc
    · have hmem := p.mem_tail hc
      simp at hmem
    · cases p.blank_back _ hc
  have hblanks : Past (· == ')') p.front.reverse := by
    apply past_of_forall
    intro c hc
    rw [beq_eq_false_iff_ne]
    rintro rfl
    cases p.blank_front _ (List.mem_reverse.1 hc)
  rw [text, List.reverse_append, List.reverse_append]
  exact Text.past_append (Text.past_append hrest hnames) hblanks

/-- A stem keeps the outlines of the parameters. -/
theorem stemParts_text (ps : List Parameter) :
    Report.stemParts (Text.join [','] (ps.map text) ++ [')']) = ps.map outline := by
  have hparen : Text.dropEndWhile (· == ')') (Text.join [','] (ps.map text) ++ [')']) =
      Text.join [','] (ps.map text) := by
    have hpast : Past (· == ')') (Text.join [','] (ps.map text)).reverse := by
      rcases List.eq_nil_or_concat ps with rfl | ⟨ps, p, rfl⟩
      · nofun
      · rw [List.concat_eq_append, List.map_append]
        exact Text.past_reverse_join p.past_paren p.text_ne_nil _
    rw [Text.dropEndWhile, List.reverse_append, Text.dropWhile_run (List.all_eq_true.1 rfl) hpast,
      List.reverse_reverse]
  have herase : Report.erase 0 (Text.join [','] (ps.map text)) = Text.join [','] (ps.map bare) := by
    have hjoin : Report.erase 0 (Text.join [','] (ps.map text) ++ []) =
        Text.join [','] (ps.map bare) ++ Report.erase 0 [] :=
      Report.erase_join (by decide) (by decide) ps fun p _ r => p.erase_text r
    rwa [List.append_nil, Report.erase, List.append_nil] at hjoin
  rw [Report.stemParts, hparen, herase]
  cases ps with
  | nil => rfl
  | cons p ps =>
    have hfields : Text.fields ',' (Text.join [','] ((p :: ps).map bare)) = (p :: ps).map bare := by
      have hne : (p :: ps).map bare ≠ [] := List.cons_ne_nil _ _
      apply Text.fields_join_of_not_mem hne
      intro piece hpiece
      obtain ⟨q, -, rfl⟩ := List.mem_map.1 hpiece
      exact q.comma_not_mem_bare
    have htrim : ((p :: ps).map bare).map Text.trim = (p :: ps).map erased := by
      rw [List.map_map]
      exact List.map_congr_left fun q _ => q.trim_bare
    have hkept : ((p :: ps).map erased).filter (fun t => !t.isEmpty) = (p :: ps).map erased := by
      rw [List.filter_eq_self]
      intro t ht
      obtain ⟨q, -, rfl⟩ := List.mem_map.1 ht
      simp [q.erased_ne_nil]
    simp only [hfields, htrim, hkept]
    rw [List.map_map]
    exact List.map_congr_left fun q _ => q.stemPart_erased

end Parameter

end Testwright
