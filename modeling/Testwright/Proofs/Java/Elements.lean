import Testwright.Proofs.Java.Keeping

/-!
# Texts of declarations

A text is matched as elements one after the other, and every declaration is one: no other statement begins
like it (`Grammar.eval_element_of_declaration`). What declares a package, an import or a class in a text is a
declaration, which is kept (`Grammar.exists_elements`, `Grammar.Element.kept_of_isIndexed`).
-/

namespace Testwright.Java

namespace Grammar

open Rule

variable {ts rest us : List Token} {xs : List Tree}

/-- What a text consists of. -/
def element : Rule Variable :=
  .alt (.var .statement) <|
    .seq (.notAhead (any ((leadingWords ++ termWords ++ contextualWords.erase "sealed").map tok)))
      (.var .methodDeclaration)

theorem grammar_program : grammar .program = .node .program (.many element) := rfl

theorem ready_element : element.Ready known cost := by decide

/-! ## Declarations are no other statements -/

/-- One modifier. -/
def modifier : Rule Variable :=
  any ([.var .decoration] ++ (modifierWords ++ ["sealed"]).map tok ++ [.token ["non", "-", "sealed"]])

theorem ready_modifier : modifier.Ready known cost := by decide

theorem eval_modifier_of_synchronized {s : Token} (hs : isPiece "synchronized" s = true)
    (h : eval grammar modifier (s :: ts) = some (xs, rest)) : rest = ts := by
  have other {r : Rule Variable} {ss : List String} (hr : r.Ready known cost)
      (hfirsts : r.firsts known starts = some ss) (hgives : r.gives known = true)
      (hss : "synchronized" ∉ ss) : eval grammar r (s :: ts) ≠ some (xs, rest) := fun heval =>
    not_begins hs hss (begins_of_eval hr hfirsts hgives heval)
  rw [eval_options paced ready_modifier, List.findSome?_eq_some_iff] at h
  obtain ⟨l₁, r, l₂, hsplit, hr, -⟩ := h
  have hmem : r ∈ [.var .decoration] ++ (modifierWords ++ ["sealed"]).map tok ++
      [.token ["non", "-", "sealed"]] := by
    rw [show _ ++ _ = modifier.options from rfl, hsplit]
    simp
  rcases List.mem_append.1 hmem with hmem | hmem
  · rcases List.mem_append.1 hmem with hmem | hmem
    · cases List.mem_singleton.1 hmem
      exact absurd hr (other (ready_var nofun) rfl rfl (by decide))
    · obtain ⟨w, -, rfl⟩ := List.mem_map.1 hmem
      obtain ⟨u, heq, -⟩ := eval_tok_eq_some hr
      exact (List.cons.inj heq).2.symm
  · cases List.mem_singleton.1 hmem
    exact absurd hr (other (by decide) rfl rfl (by decide))

/-- Behind `synchronized`, modifiers end before a parenthesis. -/
theorem eval_modifiers_of_synchronized {s p : Token} (hs : isPiece "synchronized" s = true)
    (hp : isPiece "(" p = true)
    (h : eval grammar (.var .modifiers) (s :: p :: ts) = some (xs, rest)) : rest = p :: ts := by
  have hready : (node .modifiers (seq modifier (many modifier))).Ready known cost := by decide
  rw [eval_var paced (ready_var (v := .modifiers) nofun)] at h
  obtain ⟨ys, hys, -⟩ := eq_singleton_of_node paced hready h
  obtain ⟨zs, ws, mid, hfirst, hmany, -⟩ := exists_of_seq paced hready.inner hys
  cases eval_modifier_of_synchronized hs hfirst
  have hnone : eval grammar modifier (p :: ts) = none :=
    eval_eq_none_of_not_begins ready_modifier rfl rfl (not_begins hp (by decide))
  rw [eval_many paced hready.inner.right, hnone] at hmany
  cases hmany
  rfl

theorem eval_keyed_of_synchronized {s p : Token} (hs : isPiece "synchronized" s = true)
    (hp : isPiece "(" p = true) {v : Variable} (hv : v ∈ keyed) :
    eval grammar (.var v) (s :: p :: ts) = none := by
  obtain ⟨kw, hkw⟩ := Option.isSome_iff_exists.1 (mem_keyed_iff.1 hv)
  have hne : kw ≠ "synchronized" ∧ kw ≠ "(" := by
    simp only [keyed, List.mem_cons, List.not_mem_nil, or_false] at hv
    rcases hv with rfl | rfl | rfl | rfl | rfl <;> cases hkw <;> decide
  obtain ⟨hprogram, kind, r, hrule⟩ := keyword_spec hkw
  have hready := (ready_var hprogram).body paced
  rw [hrule] at hready
  rw [eval_var paced (ready_var hprogram), hrule, Option.eq_none_iff_forall_ne_some]
  rintro ⟨xs, rest⟩ heval
  obtain ⟨ys, hys, -⟩ := eq_singleton_of_node paced hready heval
  obtain ⟨ms, zs, mid, hmodifiers, hzs, -⟩ := exists_of_seq paced hready.inner hys
  obtain ⟨ks, ws, us, htok, -, -⟩ := exists_of_seq paced hready.inner.right hzs
  obtain ⟨t, rfl, ht, -⟩ := eval_tok_eq_some htok
  rw [opt, eval_alt paced hready.inner.left, Option.or_eq_some_iff] at hmodifiers
  rcases hmodifiers with hmodifiers | ⟨-, hmodifiers⟩
  · cases eval_modifiers_of_synchronized hs hp hmodifiers
    exact hne.2 (isPiece_inj ht hp)
  · cases hmodifiers
    exact hne.1 (isPiece_inj ht hs)

/-- A declaration does not begin like a synchronized statement. -/
theorem eval_declaration_of_synchronized {s p : Token} (hs : isPiece "synchronized" s = true)
    (hp : isPiece "(" p = true) : eval grammar (.var .declaration) (s :: p :: ts) = none := by
  have hready : (var .declaration : Rule Variable).Ready known cost := ready_var nofun
  have other {r : Rule Variable} {ss : List String} (hr : r ∈ (grammar .declaration).options)
      (hfirsts : r.firsts known starts = some ss) (hgives : r.gives known = true)
      (hss : "synchronized" ∉ ss) : eval grammar r (s :: p :: ts) = none :=
    eval_eq_none_of_not_begins ((hready.body paced).of_mem_options hr) hfirsts hgives
      (not_begins hs hss)
  rw [eval_var_options (v := .declaration) nofun rfl, List.findSome?_eq_none_iff]
  intro r hr
  have hoptions : (grammar .declaration).options =
      [packageDeclaration, importDeclaration] ++ types ++ [moduleDeclaration] := rfl
  have hmem := hr
  rw [hoptions] at hmem
  rcases List.mem_append.1 hmem with hmem | hmem
  · rcases List.mem_append.1 hmem with hmem | hmem
    · rcases List.mem_cons.1 hmem with rfl | hmem
      · exact other hr rfl rfl (by decide)
      · cases List.mem_singleton.1 hmem
        exact other hr rfl rfl (by decide)
    · obtain ⟨v, hv, rfl⟩ := List.mem_map.1 hmem
      exact eval_keyed_of_synchronized hs hp hv
  · cases List.mem_singleton.1 hmem
    exact other hr rfl rfl (by decide)

/-- A statement that begins like a modifier. -/
def synchronizedStatement : Rule Variable :=
  .node .synchronizedStatement <| all
    [tok "synchronized", .var .parenthesized, .field .body (.var .block)]

theorem eval_declaration_of_synchronizedStatement {found : List Tree × List Token}
    (h : eval grammar synchronizedStatement ts = some found) :
    eval grammar (.var .declaration) ts = none := by
  have hready : synchronizedStatement.Ready known cost := by decide
  obtain ⟨xs, rest⟩ := found
  obtain ⟨ys, hys, -⟩ := eq_singleton_of_node paced hready h
  obtain ⟨ks, zs, mid, htok, hzs, -⟩ := exists_of_seq paced hready.inner hys
  obtain ⟨ps, ws, us, hparenthesized, -, -⟩ := exists_of_seq paced hready.inner.right hzs
  obtain ⟨s, rfl, hs, -⟩ := eval_tok_eq_some htok
  obtain ⟨p, hp, w, hw, hpiece⟩ := begins_of_eval hready.inner.right.left rfl rfl hparenthesized
  cases mid with
  | nil => cases hp
  | cons p' mid =>
    cases hp
    cases List.mem_singleton.1 hw
    exact eval_declaration_of_synchronized hs hpiece

/-- The statements that are tried before declarations, that with `synchronized` apart. -/
def earlier : List (Rule Variable) :=
  (grammar .statement).options.take 10 ++ ((grammar .statement).options.drop 11).take 4

theorem options_statement : (grammar .statement).options.take 15 =
    (grammar .statement).options.take 10 ++ [synchronizedStatement] ++
      ((grammar .statement).options.drop 11).take 4 := rfl

/-- No declaration begins like an earlier statement. -/
theorem firsts_of_earlier : ∀ r ∈ earlier, r.gives known = true ∧
    (r.firsts known starts).any (fun ss => ss.all fun s =>
      ((starts .declaration).getD []).all (· != s)) = true := by
  decide

/-- What is a declaration is one among statements. -/
theorem eval_element_of_declaration {found : List Tree × List Token}
    (h : eval grammar (.var .declaration) ts = some found) : eval grammar element ts = some found := by
  have hready : (var .statement : Rule Variable).Ready known cost := ready_var nofun
  have hready_declaration : (var .declaration : Rule Variable).Ready known cost := ready_var nofun
  obtain ⟨xs, rest⟩ := found
  obtain ⟨t, ht, w, hw, hpiece⟩ := begins_of_eval hready_declaration rfl rfl h
  rw [element, eval_alt paced ready_element, Option.or_eq_some_iff]
  refine .inl ?_
  rw [eval_var_options (v := .statement) nofun rfl, List.findSome?_eq_some_iff]
  refine ⟨(grammar .statement).options.take 15, .var .declaration, (grammar .statement).options.drop 16,
    rfl, h, fun r hr => ?_⟩
  have hr_ready := (hready.body paced).of_mem_options (List.mem_of_mem_take hr)
  have hr_earlier (hr : r ∈ earlier) : eval grammar r ts = none := by
    obtain ⟨hgives, hfirsts⟩ := firsts_of_earlier r hr
    obtain ⟨ss, hss, hall⟩ := (Option.any_eq_true ..).1 hfirsts
    refine eval_eq_none_of_not_begins hr_ready hss hgives ?_
    rintro ⟨u, hu, s, hs, hpiece'⟩
    cases ht.symm.trans hu
    have hne := List.all_eq_true.1 (List.all_eq_true.1 hall s hs) w hw
    exact bne_iff_ne.1 hne (isPiece_inj hpiece hpiece')
  rw [options_statement] at hr
  rcases List.mem_append.1 hr with hr | hr
  · rcases List.mem_append.1 hr with hr | hr
    · exact hr_earlier (List.mem_append_left _ hr)
    · cases List.mem_singleton.1 hr
      refine Option.eq_none_iff_forall_ne_some.2 fun found' hfound => ?_
      rw [eval_declaration_of_synchronizedStatement hfound] at h
      cases h
  · exact hr_earlier (List.mem_append_right _ hr)

/-! ## The elements of a text -/

/-- Whether the index reads a node of a kind that is an element of a text. -/
def isIndexed (k : Kind) : Bool := k.declares || k == .packageDeclaration || k == .importDeclaration

/-- Whether a node of a kind stands outside of all classes of a usual text: a declaration or a semicolon. -/
def isUsual (k : Kind) : Bool :=
  isIndexed k || k == .moduleDeclaration || k == .annotationTypeDeclaration || k == .token ";"

/-- Whether a rule gives one node, of no usual kind. -/
def givesUnusual (r : Rule Variable) : Bool :=
  r.lone ones && r.conforms kinds && (r.shapes kinds).all fun s => s.kind.any fun k => !isUsual k

theorem givesUnusual_statements : ∀ r ∈ (grammar .statement).options.take 1 ++
    ((grammar .statement).options.drop 2).take 13 ++ (grammar .statement).options.drop 16, givesUnusual r = true := by
  decide

theorem options_statement' : (grammar .statement).options = (grammar .statement).options.take 1 ++ [tok ";"] ++
    ((grammar .statement).options.drop 2).take 13 ++ [.var .declaration] ++ (grammar .statement).options.drop 16 := rfl

/-- The tokens of an element of a text: a declaration, a semicolon or something unusual. -/
inductive Element : List Token → Tree → Prop
  | kept {X m} (kept : Kept (.var .declaration) X m) : Element X m
  | semicolon {s} (mark : s.mark = ";") : Element [s] (leafOf ";" s)
  | other {X m} (unusual : isUsual m.kind = false) : Element X m

theorem Element.kept_of_isIndexed {X : List Token} {m : Tree} (h : Element X m) (hm : isIndexed m.kind = true) :
    Kept (.var .declaration) X m := by
  cases h with
  | kept kept => exact kept
  | semicolon => cases hm
  | other unusual =>
    rw [isUsual, hm] at unusual
    cases unusual

/-- A node of a usual kind is a declaration or a semicolon. -/
theorem exists_of_element (hsane : Sane ts) (heval : eval grammar element ts = some (xs, rest)) :
    ∃ m X, xs = [m] ∧ ts = X ++ rest ∧ Element X m := by
  have hready : (var .statement : Rule Variable).Ready known cost := ready_var nofun
  have other {r : Rule Variable} (hr_ready : r.Ready known cost) (hr : givesUnusual r = true)
      (heval : eval grammar r ts = some (xs, rest)) : ∃ m X, xs = [m] ∧ ts = X ++ rest ∧ Element X m := by
    simp only [givesUnusual, Bool.and_eq_true] at hr
    obtain ⟨⟨hlone, hconforms⟩, hshapes⟩ := hr
    obtain ⟨m, rfl⟩ := (matches_of_run heval).lone lone_of_ones hlone
    obtain ⟨X, rfl, -⟩ := (matched_of_eval paced hr_ready heval).taken
    obtain ⟨s, hs, hfits⟩ := fits_of_eval hconforms hsane heval m List.mem_cons_self
    obtain ⟨k, hk, hnot⟩ := (Option.any_eq_true ..).1 (List.all_eq_true.1 hshapes s hs)
    refine ⟨m, X, rfl, rfl, .other ?_⟩
    rw [hfits.kind k hk]
    simpa using hnot
  rw [element, eval_alt paced ready_element, Option.or_eq_some_iff] at heval
  rcases heval with heval | ⟨-, heval⟩
  · rw [eval_var_options (v := .statement) nofun rfl, List.findSome?_eq_some_iff] at heval
    obtain ⟨l₁, r, l₂, hsplit, hr, -⟩ := heval
    have hmem : r ∈ (grammar .statement).options := by
      rw [hsplit]
      simp
    have hr_ready := (hready.body paced).of_mem_options hmem
    have hothers := givesUnusual_statements r
    rw [options_statement'] at hmem
    simp only [List.mem_append] at hmem hothers
    rcases hmem with (((hmem | hmem) | hmem) | hmem) | hmem
    · exact other hr_ready (hothers (.inl (.inl hmem))) hr
    · cases List.mem_singleton.1 hmem
      obtain ⟨s, rfl, hs, rfl⟩ := eval_tok_eq_some hr
      exact ⟨_, [s], rfl, rfl, .semicolon (mark_of_isPiece hs (hsane s List.mem_cons_self) (by decide))⟩
    · exact other hr_ready (hothers (.inl (.inr hmem))) hr
    · cases List.mem_singleton.1 hmem
      obtain ⟨m, X, rfl, rfl, hkept⟩ := hosts_declaration.keeps hsane _ _ hr
      exact ⟨m, X, rfl, rfl, .kept hkept⟩
    · exact other hr_ready (hothers (.inr hmem)) hr
  · exact other ready_element.second rfl heval

/-- A semicolon is an element. -/
theorem eval_element_of_semicolon {s : Token} (hs : s.mark = ";") :
    eval grammar element (s :: us) = some ([leafOf ";" s], us) := by
  have hpiece : isPiece ";" s = true := isPiece_of_mark hs (by decide)
  have hblock : eval grammar (.var .block) (s :: us) = none :=
    eval_eq_none_of_not_begins (ready_var nofun) rfl rfl (not_begins hpiece (by decide))
  have hoptions : (grammar .statement).options =
      .var .block :: tok ";" :: (grammar .statement).options.drop 2 := rfl
  rw [element, eval_alt paced ready_element, eval_var_options (v := .statement) nofun hoptions, List.findSome?_cons,
    hblock, List.findSome?_cons, eval_tok_cons hpiece, Option.some_or]

theorem ready_elements : (many element).Ready known cost := by decide

/-- A text is elements one after the other. -/
theorem exists_elements {ms : List Tree} (hsane : Sane ts)
    (heval : eval grammar (.many element) ts = some (ms, rest)) :
    ∃ l : List (List Token × Tree), ts = (l.map Prod.fst).flatten ++ rest ∧ ms = l.map Prod.snd ∧
      ∀ x ∈ l, Element x.1 x.2 :=
  exists_of_many (P := Element) ready_elements (fun _ _ _ _ hsane heval => exists_of_element hsane heval) hsane heval

/-- A declaration that is kept is an element wherever it stands. -/
theorem Segment.element {X : List Token} {m : Tree} (h : Segment (.var .declaration) X m) :
    Segment element X m where
  spanned := h.spanned
  begins := h.begins
  ends := h.ends
  derives := h.derives
  moves f us hsteady := (h.moves f us hsteady).imp fun _ => And.imp_left eval_element_of_declaration
  method := h.method

/-- A text without tokens is one without elements. -/
theorem eval_elements_nil : eval grammar (.many element) [] = some ([], []) := by
  have hnone : eval grammar element [] = none := by
    refine Option.eq_none_iff_forall_ne_some.2 fun found heval => ?_
    exact absurd (length_lt_of_run paced.toHolds heval ready_element.sound rfl) (Nat.not_lt_zero _)
  rw [eval_many paced ready_elements, hnone]

end Grammar

end Testwright.Java
