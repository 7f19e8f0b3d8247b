import Testwright.Java.Index
import Testwright.Proofs.Data.Dict
import Testwright.Proofs.Text.Cutting

/-!
# Two readings of a type

A type as written is an element with dimensions (`Scope.form`). A scope reads it twice: as the class that a call
lands on, and as a descriptor. The readings agree (`Scope.Agrees`) if a type with dimensions is no class and the
descriptor has the dimensions and the class of the element.

Both readings cut a type at its first angle bracket, the descriptor before it counts dimensions. So the dimensions
behind type arguments are lost to both, and the readings agree on such a type only if its element is no class.
`Scope.agrees_iff` names all types on which they agree.
-/

namespace Testwright.Java.Scope

open Text

/-! ## The form of a type -/

/-- A text in front of a pair of brackets at its end, and the blanks inside of the pair. -/
def takePair? (s : List Char) : Option (List Char × List Char) :=
  (dropSuffix? [']'] s).bind fun r =>
    (dropSuffix? ['['] (trimEnd r)).map fun q => (q, r.drop (trimEnd r).length)

/-- Take pairs of brackets, and blanks before them, off the end of a type; also the blanks inside of each pair. -/
def takePairs (s : List Char) : Nat → List Char × List (List Char)
  | 0 => (s, [])
  | fuel + 1 =>
    match takePair? s with
    | some (q, inside) =>
      let (element, insides) := takePairs (trimEnd q) fuel
      (element, inside :: insides)
    | none => (s, [])

structure Form where
  element : List Char
  /-- The blanks inside of the pairs of brackets behind the element. -/
  insides : List (List Char)
  /-- Whether the type is that of any number of arguments. -/
  spread : Bool

/-- The number of pairs of brackets, and one more if there may be any number of arguments. -/
def Form.dims (f : Form) : Nat := f.insides.length + f.spread.toNat

def form (type : List Char) : Form :=
  let text := trim type
  match dropSuffix? ['.', '.', '.'] text with
  | some r =>
    let (element, insides) := takePairs (trimEnd r) (trimEnd r).length
    ⟨element, insides, true⟩
  | none =>
    let (element, insides) := takePairs text text.length
    ⟨element, insides, false⟩

/-- The descriptor of an element of a class, and of one dimension after the other. -/
def ofDims (dims : Nat) (element : String) : String := .ofList (List.replicate dims '[') ++ element

def ofClass (full : String) : String := "L" ++ onChars (replaceChar '.' ['/']) full ++ ";"

/-- The two readings of a type agree. -/
structure Agrees (scope : Scope) (type : List Char) : Prop where
  array : 0 < (form type).dims → scope.resolveClass? type = none
  primitive : ∀ letter, primitiveLetter? (.ofList (form type).element) = some letter →
    scope.descriptor type = ofDims (form type).dims (.singleton letter)
  named : ∀ full, scope.resolveClass? (form type).element = some full →
    scope.descriptor type = ofDims (form type).dims (ofClass full)

/-- The types on which the two readings agree. -/
structure Regular (scope : Scope) (type : List Char) : Prop where
  /-- Dimensions behind type arguments are those of an element that is no class. -/
  generic : '<' ∈ type → 0 < (form type).dims → scope.resolveClass? (form type).element = none
  /-- Without type arguments, a type of any number of arguments does not look like a full name, and up to its first
  point it is no class. -/
  spread : '<' ∉ type → (form type).spread = true →
    ((before '.' (trim type)).head?.map Char.isLower).getD false = false ∧
      scope.resolveSimple? (before '.' (trim type)) = none
  /-- No blank stands inside of a pair of brackets. -/
  tight : '<' ∉ type → (primitiveLetter? (.ofList (form type).element)).isSome ∨
    (scope.resolveClass? (form type).element).isSome → ∀ inside ∈ (form type).insides, inside = []
  /-- No class is named by a capital letter alone. -/
  lettered : (scope.resolveClass? (form type).element).isSome →
    isTypeVariable (trim (before '<' (form type).element)) = false

/-! ## Pairs of brackets -/

variable {scope : Scope} {s t q inside element : List Char} {c : Char} {n : Nat}

theorem takePair?_eq_some : takePair? s = some (q, inside) ↔
    s = q ++ '[' :: (inside ++ [']']) ∧ ∀ c ∈ inside, isBlank c = true := by
  simp only [takePair?, Option.bind_eq_some_iff, Option.map_eq_some_iff, dropSuffix?_eq_some]
  constructor
  · rintro ⟨r, rfl, q', hq, heq⟩
    cases heq
    obtain ⟨back, hr, hback⟩ := eq_trimEnd_append r
    have hinside : r.drop (trimEnd r).length = back := by
      have hdrop := congrArg (List.drop (trimEnd r).length) hr
      rwa [List.drop_left' rfl] at hdrop
    rw [hinside]
    refine ⟨?_, hback⟩
    rw [hq] at hr
    rw [hr]
    simp
  · rintro ⟨rfl, hblank⟩
    have htrim : trimEnd ((q ++ ['[']) ++ inside) = q ++ ['['] := by
      rw [trimEnd_append hblank]
      exact trimEnd_concat rfl
    refine ⟨(q ++ ['[']) ++ inside, by simp, q, htrim, ?_⟩
    rw [htrim, List.drop_left' rfl]

/-- The readings take the pairs without blanks only. -/
theorem dropSuffix?_pair_eq_some : dropSuffix? ['[', ']'] s = some q ↔ takePair? s = some (q, []) := by
  simp [dropSuffix?_eq_some, takePair?_eq_some]

/-- What is taken off has neither the beginning of the type nor an angle bracket. -/
theorem takePairs_append (s : List Char) (n : Nat) : ∃ back, s = (takePairs s n).1 ++ back ∧ '<' ∉ back := by
  induction n generalizing s with
  | zero => exact ⟨[], (List.append_nil s).symm, List.not_mem_nil⟩
  | succ n ih =>
    rw [takePairs]
    cases hpair : takePair? s with
    | none => exact ⟨[], (List.append_nil s).symm, List.not_mem_nil⟩
    | some pair =>
      obtain ⟨q, inside⟩ := pair
      obtain ⟨hs, hinside⟩ := takePair?_eq_some.1 hpair
      obtain ⟨back, hq, hback⟩ := ih (trimEnd q)
      obtain ⟨blanks, hblanks, hblank⟩ := eq_trimEnd_append q
      refine ⟨back ++ (blanks ++ '[' :: (inside ++ [']'])), ?_, ?_⟩
      · conv_lhs => rw [hs, hblanks, hq]
        simp
      · have hangle {l : List Char} (h : ∀ c ∈ l, isBlank c = true) : '<' ∉ l := fun hmem =>
          absurd (h _ hmem) (by decide)
        simp [hback, hangle hblank, hangle hinside]

theorem getLast?_of_takePairs (h : (takePairs s n).2 ≠ []) : s.getLast? = some ']' := by
  cases n with
  | zero => exact absurd rfl h
  | succ n =>
    rw [takePairs] at h
    cases hpair : takePair? s with
    | none =>
      rw [hpair] at h
      exact absurd rfl h
    | some pair =>
      have hs : s = (pair.1 ++ '[' :: pair.2) ++ [']'] := by
        rw [(takePair?_eq_some.1 hpair).1]
        simp
      rw [hs, List.getLast?_concat]

theorem past_takePairs (h : Past isBlank s.reverse) (n : Nat) : Past isBlank (takePairs s n).1.reverse := by
  induction n generalizing s with
  | zero => exact h
  | succ n ih =>
    rw [takePairs]
    cases takePair? s with
    | none => exact h
    | some pair => exact ih (past_reverse_trimEnd pair.1)

theorem dropBrackets_of_tight (h : ∀ inside ∈ (takePairs s n).2, inside = []) :
    dropBrackets s n = ((takePairs s n).1, (takePairs s n).2.length) := by
  induction n generalizing s with
  | zero => rfl
  | succ n ih =>
    rw [takePairs] at h ⊢
    rw [dropBrackets]
    cases hpair : takePair? s with
    | none =>
      cases hdrop : dropSuffix? ['[', ']'] s with
      | none => rfl
      | some q => rw [dropSuffix?_pair_eq_some.1 hdrop] at hpair; cases hpair
    | some pair =>
      obtain ⟨q, inside⟩ := pair
      rw [hpair] at h
      obtain ⟨rfl, hrest⟩ := List.forall_mem_cons.1 h
      rw [dropSuffix?_pair_eq_some.2 hpair]
      simp only [ih hrest, List.length_cons]

theorem dropBrackets_lt (hmem : inside ∈ (takePairs s n).2) (hne : inside ≠ []) :
    (dropBrackets s n).2 < (takePairs s n).2.length := by
  induction n generalizing s with
  | zero => cases hmem
  | succ n ih =>
    rw [takePairs] at hmem ⊢
    rw [dropBrackets]
    cases hpair : takePair? s with
    | none => rw [hpair] at hmem; cases hmem
    | some pair =>
      obtain ⟨q, blanks⟩ := pair
      rw [hpair] at hmem
      cases hdrop : dropSuffix? ['[', ']'] s with
      | none => exact Nat.succ_pos _
      | some q' =>
        obtain ⟨rfl, rfl⟩ := Prod.mk.inj (Option.some.inj (hpair.symm.trans (dropSuffix?_pair_eq_some.1 hdrop)))
        rcases List.mem_cons.1 hmem with rfl | hmem
        · exact absurd rfl hne
        · exact Nat.succ_lt_succ (ih hmem)

/-! ## The names that a scope knows -/

/-- Every known name is the end of what it stands for. -/
def EndsInNames (known : Dict String) : Prop :=
  ∀ name full, known.get? name = some full → name.toList <:+ full.toList

theorem EndsInNames.insert {known : Dict String} {name full : String} (h : EndsInNames known)
    (hname : name.toList <:+ full.toList) : EndsInNames (known.insert name full) := by
  intro k v hk
  rw [Dict.get?_insert] at hk
  split at hk
  · next heq =>
    cases hk
    exact heq ▸ hname
  · exact h k v hk

theorem suffix_qualified (scope : Scope) (outer : Option String) (name : List Char) :
    name <:+ (scope.qualified outer name).toList := by
  unfold qualified
  split
  · rw [String.toList_append, String.toList_ofList]
    exact List.suffix_append _ _
  · split
    · exact String.toList_ofList.symm ▸ List.suffix_rfl
    · rw [String.toList_ofList]
      exact (List.suffix_cons _ _).trans (List.suffix_append _ _)

theorem suffix_fullName (scope : Scope) (source : List Char) (d : Declared) :
    declName source d.decl <:+ (scope.fullName source d).toList := by
  unfold fullName
  split <;> exact suffix_qualified ..

theorem endsInNames_addImport (h : EndsInNames scope.known) (text : List Char) :
    EndsInNames (scope.addImport text).known := by
  unfold addImport
  lift_lets
  intro line path scope'
  split
  · exact h
  · refine EndsInNames.insert h ?_
    rw [String.toList_ofList, String.toList_ofList, ← List.reverse_prefix, afterLast, List.reverse_reverse]
    exact List.takeWhile_prefix _

theorem endsInNames_ofHeader (source : List Char) (root : Tree) : EndsInNames (ofHeader source root).known := by
  refine List.foldlRecOn (motive := fun scope : Scope => EndsInNames scope.known) _ _ ?_ ?_
  · intro name full h
    cases h
  · intro scope h t _
    split
    · rw [addPackage]
      exact h
    · exact endsInNames_addImport h _
    · exact h

theorem endsInNames_ofTree (source : List Char) (root : Tree) : EndsInNames (ofTree source root).known := by
  refine List.foldlRecOn (motive := EndsInNames) _ _ (endsInNames_ofHeader source root) ?_
  intro known h d _
  refine h.insert ?_
  rw [String.toList_ofList]
  exact suffix_fullName ..

/-! ## The class of an element -/

theorem primitiveLetter?_eq_some {name : String} {letter : Char} (h : primitiveLetter? name = some letter) :
    name ∈ primitiveTypes ∧ letter ≠ '[' := by
  unfold primitiveLetter? at h
  split at h <;> cases h <;> decide

theorem primitiveLetter?_eq_none (h : isOpaque element = false) : primitiveLetter? (.ofList element) = none := by
  rw [Option.eq_none_iff_forall_ne_some]
  intro letter hletter
  have hmem := (primitiveLetter?_eq_some hletter).1
  simp [isOpaque, hmem] at h

theorem not_mem_of_primitive {letter : Char} (h : primitiveLetter? (.ofList element) = some letter) :
    '<' ∉ element := by
  have hnames : ∀ name ∈ primitiveTypes, '<' ∉ name.toList := by decide
  have hmem := hnames _ (primitiveLetter?_eq_some h).1
  rwa [String.toList_ofList] at hmem

theorem not_mem_base (t : List Char) : '<' ∉ trim (before '<' t) := fun h =>
  absurd (List.mem_takeWhile_imp (mem_of_mem_trim h)) (by decide)

theorem resolveClass?_base (scope : Scope) (t : List Char) :
    scope.resolveClass? (trim (before '<' t)) = scope.resolveClass? t := by
  simp only [resolveClass?, before_of_not_mem (not_mem_base t), trim_trim]

theorem isOpaque_of_resolveClass? {full : String} (h : scope.resolveClass? t = some full) :
    isOpaque (trim (before '<' t)) = false := by
  simp only [resolveClass?] at h
  split at h
  · cases h
  · next hopaque => exact Bool.eq_false_iff.2 hopaque

/-- The class of a name without points and type arguments. -/
theorem resolveClass?_name (htrim : trim element = element) (hangle : '<' ∉ element) (hpoint : '.' ∉ element) :
    scope.resolveClass? element = scope.resolveSimple? element := by
  simp only [resolveClass?, before_of_not_mem hangle, htrim, cutAt?_eq_none hpoint]
  split
  · next hopaque => simp only [resolveSimple?, htrim, hopaque, if_true]
  · rfl

theorem className_of_resolveClass? {full : String} (h : scope.resolveClass? element = some full)
    (htrim : trim element = element) (hangle : '<' ∉ element) (hletter : isTypeVariable element = false) :
    scope.className element = full := by
  unfold className
  rw [if_neg (Bool.eq_false_iff.1 hletter)]
  split
  · next hlanguage =>
    -- A name of the language's own package that is not known is no class.
    rw [Bool.and_eq_true, List.contains_iff_mem, Bool.not_eq_true', Dict.contains_eq_isSome_get?,
      Option.isSome_eq_false_iff, Option.isNone_iff_eq_none] at hlanguage
    have hnames : ∀ name ∈ languageTypes, '.' ∉ name.toList := by decide
    have hpoint := hnames _ hlanguage.1
    rw [String.toList_ofList] at hpoint
    rw [resolveClass?_name htrim hangle hpoint] at h
    simp [resolveSimple?, htrim, hlanguage] at h
  · rw [h, Option.getD_some]

/-- A class is named by a capital letter alone only if the letter is known, and its descriptor is never that of
the type in its place. -/
theorem ofClass_ne_of_letter (hnames : EndsInNames scope.known) {full : String}
    (h : scope.resolveClass? element = some full) (hletter : isTypeVariable element = true) :
    ofClass full ≠ ofClass "java.lang.Object" := by
  obtain ⟨c, rfl, hc⟩ : ∃ c, element = [c] ∧ c.isUpper = true := by
    unfold isTypeVariable at hletter
    split at hletter
    · next c => exact ⟨c, rfl, hletter⟩
    · cases hletter
  have hname : full.toList.getLast? = some c := by
    have hknown : scope.known.get? (.ofList [c]) = some full := by
      have htrim : trim [c] = [c] := by
        have hblank : isBlank c = false := by
          have hrange : 65 ≤ c.toNat ∧ c.toNat ≤ 90 := by
            have hletters : c.val ≥ 'A'.val ∧ c.val ≤ 'Z'.val := of_decide_eq_true hc
            exact hletters
          simp [isBlank]
          omega
        refine trim_of_past (List.cons_ne_nil c []) ?_ ?_ <;>
        · intro d hd
          cases hd
          exact hblank
      rw [resolveClass?_name htrim (by rw [List.mem_singleton]; rintro rfl; cases hc)
        (by rw [List.mem_singleton]; rintro rfl; cases hc)] at h
      simp only [resolveSimple?, htrim, hletter, Bool.or_true, if_true] at h
      split at h
      · cases h
      · split at h
        · next hknown => rw [hknown, h]
        · cases h
    obtain ⟨front, hfull⟩ := hnames _ _ hknown
    rw [← hfull, String.toList_ofList, List.getLast?_concat]
  have hlast : (replaceChar '.' ['/'] full.toList).getLast? = some c := by
    obtain ⟨front, hfull⟩ := List.getLast?_eq_some_iff.1 hname
    rw [hfull, replaceChar, List.flatMap_append, List.flatMap_singleton, if_neg (by rintro rfl; cases hc),
      List.getLast?_concat]
  intro heq
  have hsame : onChars (replaceChar '.' ['/']) full = onChars (replaceChar '.' ['/']) "java.lang.Object" := by
    simpa [ofClass] using heq
  have hobject := congrArg (fun name => name.toList.getLast?) hsame
  simp only [toList_onChars, hlast] at hobject
  cases hobject
  revert hc
  decide

/-! ## Both readings -/

/-- What the descriptor of a type has behind its dimensions. -/
def ofElement (scope : Scope) (element : List Char) : String :=
  match primitiveLetter? (.ofList element) with
  | some letter => .singleton letter
  | none => ofClass (scope.className element)

/-- What the descriptor of a type is made of when its end for any number of arguments is off. -/
def readText (scope : Scope) (spread : Nat) (text : List Char) : String :=
  let dropped := dropBrackets (trim (before '<' text)) (trim (before '<' text)).length
  ofDims (spread + dropped.2) (scope.ofElement dropped.1)

theorem ofDims_ofElement (scope : Scope) (dims : Nat) (element : List Char) :
    ofDims dims (scope.ofElement element) = (primitiveLetter? (.ofList element)).elim
      (.ofList (List.replicate dims '[') ++ "L" ++
        onChars (replaceChar '.' ['/']) (scope.className element) ++ ";")
      (String.ofList (List.replicate dims '[')).push := by
  unfold ofElement
  cases primitiveLetter? (.ofList element) with
  | none => simp only [Option.elim_none, ofDims, ofClass, String.append_assoc]
  | some letter => simp only [Option.elim_some, ofDims, String.push_eq_append]

theorem descriptor_of_spread {r : List Char} (h : dropSuffix? ['.', '.', '.'] (trim t) = some r) :
    scope.descriptor t = scope.readText 1 r := by
  unfold descriptor
  simp only [h, readText, ofDims_ofElement]
  generalize primitiveLetter? _ = letter
  cases letter <;> rfl

theorem descriptor_of_not_spread (h : dropSuffix? ['.', '.', '.'] (trim t) = none) :
    scope.descriptor t = scope.readText 0 (trim t) := by
  unfold descriptor
  simp only [h, readText, ofDims_ofElement]
  generalize primitiveLetter? _ = letter
  cases letter <;> rfl

/-- A type without blanks around it and without the end that it has for any number of arguments. -/
structure Core (scope : Scope) (t base : List Char) : Prop where
  pairs : takePairs base base.length = ((form t).element, (form t).insides)
  trimmed : trim base = base
  angle : '<' ∈ base ↔ '<' ∈ t
  base_eq : '<' ∈ t → trim (before '<' base) = trim (before '<' t)
  read : scope.descriptor t = scope.readText (form t).spread.toNat base
  end_eq : trim t = base ∧ (form t).spread = false ∨ (∃ r, trim t = r ++ ['.', '.', '.']) ∧ (form t).spread = true

theorem exists_core (scope : Scope) (t : List Char) : ∃ base, Core scope t base := by
  have hangle : isBlank '<' = false := by decide
  cases hsuffix : dropSuffix? ['.', '.', '.'] (trim t) with
  | none =>
    have hspread : (form t).spread = false := by simp only [form, hsuffix]
    refine ⟨trim t, ?_, trim_trim t, mem_trim_iff hangle, trim_before_trim hangle, ?_, .inl ⟨rfl, hspread⟩⟩
    · simp only [form, hsuffix]
    · rw [descriptor_of_not_spread hsuffix, hspread, Bool.toNat_false]
  | some r =>
    have hspread : (form t).spread = true := by simp only [form, hsuffix]
    have htrim := dropSuffix?_eq_some.1 hsuffix
    have hr : trim r = trimEnd r := trim_eq_trimEnd (past_of_isPrefix ⟨_, htrim.symm⟩ (past_trim t))
    have hmem : '<' ∈ trim r ↔ '<' ∈ t := by
      rw [mem_trim_iff hangle, ← mem_trim_iff (s := t) hangle, htrim]
      simp
    refine ⟨trim r, ?_, trim_trim r, hmem, fun ht => ?_, ?_, .inr ⟨⟨r, htrim⟩, hspread⟩⟩
    · simp only [form, hsuffix, hr]
    · rw [← trim_before_trim hangle ht, before_of_isPrefix (r := trim t) ?_ (hmem.2 ht)]
      rw [hr]
      exact (isPrefix_trimEnd r).trans ⟨_, htrim.symm⟩
    · have hbase : trim (before '<' (trim r)) = trim (before '<' r) := by
        by_cases hr : '<' ∈ r
        · exact trim_before_trim hangle hr
        · rw [before_of_not_mem hr, before_of_not_mem (mt (mem_trim_iff hangle).1 hr), trim_trim]
      rw [descriptor_of_spread hsuffix, hspread, Bool.toNat_true, readText, readText, hbase]

namespace Core

variable {base : List Char}

theorem form_append (h : Core scope t base) : ∃ back, base = (form t).element ++ back ∧ '<' ∉ back := by
  obtain ⟨back, hback⟩ := takePairs_append base base.length
  rw [h.pairs] at hback
  exact ⟨back, hback⟩

theorem mem_element (h : Core scope t base) : '<' ∈ (form t).element ↔ '<' ∈ t := by
  obtain ⟨back, hback, hangle⟩ := h.form_append
  rw [← h.angle, hback, List.mem_append, or_iff_left hangle]

/-- Behind type arguments the element still has them. -/
theorem element_eq (h : Core scope t base) (ht : '<' ∈ t) :
    trim (before '<' (form t).element) = trim (before '<' t) := by
  obtain ⟨back, hback, -⟩ := h.form_append
  rw [← h.base_eq ht, before_of_isPrefix ⟨back, hback.symm⟩ (h.mem_element.2 ht)]

theorem resolveClass?_element (h : Core scope t base) (ht : '<' ∈ t) :
    scope.resolveClass? (form t).element = scope.resolveClass? t := by
  rw [← resolveClass?_base, h.element_eq ht, resolveClass?_base]

theorem past (h : Core scope t base) : Past isBlank base :=
  h.trimmed ▸ past_trim base

theorem trim_element (h : Core scope t base) : trim (form t).element = (form t).element := by
  obtain ⟨back, hback, -⟩ := h.form_append
  have hlast := past_takePairs (s := base) (h.trimmed ▸ past_reverse_trimEnd _) base.length
  rw [h.pairs] at hlast
  rw [trim_eq_trimEnd (past_of_isPrefix ⟨back, hback.symm⟩ h.past), trimEnd_of_past hlast]

/-- Without blanks inside of the brackets a descriptor is that of the element behind all dimensions. -/
theorem descriptor_of_tight (h : Core scope t base) (ht : '<' ∉ t) (htight : ∀ inside ∈ (form t).insides, inside = []) :
    scope.descriptor t = ofDims (form t).dims (scope.ofElement (form t).element) := by
  have hbase : trim (before '<' base) = base := by
    rw [before_of_not_mem (mt h.angle.1 ht), h.trimmed]
  have hpairs := h.pairs
  rw [h.read, readText, hbase, dropBrackets_of_tight (by rwa [hpairs]), hpairs, Form.dims, Nat.add_comm]

end Core

/-! ## Dimensions -/

/-- What stands behind the brackets of a descriptor begins with no bracket, so they can be counted. -/
theorem ofDims_inj {m n : Nat} {x y : String} (hx : x.toList.head? ≠ some '[') (hy : y.toList.head? ≠ some '[') :
    ofDims m x = ofDims n y ↔ m = n ∧ x = y := by
  have hpast {x : String} (hx : x.toList.head? ≠ some '[') : Past (· == '[') x.toList := by
    intro c hc
    refine Bool.eq_false_iff.2 fun heq => hx ?_
    rw [← eq_of_beq heq]
    exact hc
  have hcount {n : Nat} {x : String} (hx : x.toList.head? ≠ some '[') :
      (ofDims n x).toList.dropWhile (· == '[') = x.toList := by
    rw [ofDims, String.toList_append, String.toList_ofList]
    exact dropWhile_run (fun c hc => by simp [List.eq_of_mem_replicate hc]) (hpast hx)
  constructor
  · intro h
    obtain rfl : x = y := by rw [← String.toList_inj, ← hcount (n := m) hx, h, hcount hy]
    refine ⟨?_, rfl⟩
    have hlength := congrArg (fun s => s.toList.length) h
    simpa [ofDims] using hlength
  · rintro ⟨rfl, rfl⟩
    rfl

theorem head?_ofClass (full : String) : (ofClass full).toList.head? ≠ some '[' := by
  simp [ofClass]

theorem head?_singleton {name : String} {letter : Char} (h : primitiveLetter? name = some letter) :
    (String.singleton letter).toList.head? ≠ some '[' := by
  simpa using (primitiveLetter?_eq_some h).2

theorem head?_ofElement (scope : Scope) (element : List Char) : (scope.ofElement element).toList.head? ≠ some '[' := by
  unfold ofElement
  split
  · next h => exact head?_singleton h
  · exact head?_ofClass _

/-- The descriptor of an element that is a class has the name of the class unless it is a capital letter. -/
theorem ofElement_eq_iff (hnames : EndsInNames scope.known) {full : String}
    (h : scope.resolveClass? element = some full) (htrim : trim element = element) (hangle : '<' ∉ element) :
    scope.ofElement element = ofClass full ↔ isTypeVariable element = false := by
  have hopaque := isOpaque_of_resolveClass? h
  rw [before_of_not_mem hangle, htrim] at hopaque
  rw [ofElement, primitiveLetter?_eq_none hopaque]
  cases hletter : isTypeVariable element with
  | true =>
    refine iff_of_false (fun heq => ofClass_ne_of_letter hnames h hletter ?_) nofun
    rw [← heq, className, if_pos hletter]
  | false => exact iff_of_true (congrArg ofClass (className_of_resolveClass? h htrim hangle hletter)) rfl

/-- The class of a type for any number of arguments, without type arguments. -/
theorem resolveClass?_spread {r : List Char} (ht : '<' ∉ t) (hend : trim t = r ++ ['.', '.', '.']) :
    scope.resolveClass? t = none ↔ ((before '.' (trim t)).head?.map Char.isLower).getD false = false ∧
      scope.resolveSimple? (before '.' (trim t)) = none := by
  have hopaque : isOpaque (trim t) = false := by
    have hlast : (trim t).getLast? = some '.' := by simp [hend]
    have hnames : ∀ name ∈ primitiveTypes, name.toList.getLast? ≠ some '.' := by decide
    have hprimitive : String.ofList (trim t) ∉ primitiveTypes := by
      intro hmem
      refine hnames _ hmem ?_
      rw [String.toList_ofList, hlast]
    have hvar : trim t ≠ ['v', 'a', 'r'] := by
      intro heq
      simp [heq] at hlast
    have hne : trim t ≠ [] := by simp [hend]
    simp [isOpaque, hprimitive, hvar, hne, hlast]
  have hcut : ∃ rest, cutAt? '.' (trim t) = some (before '.' (trim t), rest) := by
    obtain ⟨front, rest, hsplit, hfront⟩ := List.eq_append_cons_of_mem (show '.' ∈ trim t by simp [hend])
    refine ⟨rest, ?_⟩
    rw [hsplit, cutAt?_append hfront, before, takeWhile_run (not_mem_run hfront) past_self]
  obtain ⟨rest, hcut⟩ := hcut
  simp only [resolveClass?, before_of_not_mem ht, hopaque, hcut]
  cases ((before '.' (trim t)).head?.map Char.isLower).getD false with
  | true => simp
  | false => simp

/-- Behind type arguments and without dimensions a descriptor is that of the name in front of them. -/
theorem Core.descriptor_of_generic {base : List Char} {full : String} (h : Core scope t base) (ht : '<' ∈ t)
    (hdims : (form t).dims = 0) (hclass : scope.resolveClass? t = some full) :
    scope.descriptor t = ofDims (form t).dims (scope.ofElement (trim (before '<' t))) := by
  have hspread : (form t).spread = false := by
    cases hspread : (form t).spread with
    | true => simp [Form.dims, hspread] at hdims
    | false => rfl
  have hlast : (trim (before '<' t)).getLast? ≠ some ']' := by
    intro hlast
    have hopaque := isOpaque_of_resolveClass? hclass
    simp [isOpaque, hlast] at hopaque
  have hdrop (n : Nat) : dropBrackets (trim (before '<' t)) n = (trim (before '<' t), 0) := by
    cases n with
    | zero => rfl
    | succ n =>
      rw [dropBrackets]
      cases hpair : dropSuffix? ['[', ']'] (trim (before '<' t)) with
      | none => rfl
      | some r => simp [dropSuffix?_eq_some.1 hpair] at hlast
  rw [h.read, readText, h.base_eq ht, hdrop, hspread, hdims]
  rfl

theorem agrees_of_regular (hnames : EndsInNames scope.known) (h : scope.Regular t) : scope.Agrees t := by
  obtain ⟨base, hcore⟩ := exists_core scope t
  constructor
  case array =>
    intro hdims
    by_cases ht : '<' ∈ t
    · rw [← hcore.resolveClass?_element ht]
      exact h.generic ht hdims
    rcases hcore.end_eq with ⟨htrim, hspread⟩ | ⟨⟨r, hend⟩, hspread⟩
    · have hlast := getLast?_of_takePairs (s := base) (n := base.length) (by
        rw [hcore.pairs, ← List.length_pos_iff]
        simpa [Form.dims, hspread] using hdims)
      simp only [resolveClass?, before_of_not_mem ht, htrim]
      rw [if_pos (by simp [isOpaque, hlast])]
    · exact (resolveClass?_spread ht hend).2 (h.spread ht hspread)
  case primitive =>
    intro letter hletter
    have ht : '<' ∉ t := mt hcore.mem_element.2 (not_mem_of_primitive hletter)
    rw [hcore.descriptor_of_tight ht (h.tight ht (.inl (by rw [hletter]; rfl))), ofElement, hletter]
  case named =>
    intro full hclass
    have hletter := h.lettered (by rw [hclass]; rfl)
    by_cases ht : '<' ∈ t
    · have hdims : (form t).dims = 0 := Nat.eq_zero_of_not_pos fun hdims => by
        rw [h.generic ht hdims] at hclass
        cases hclass
      rw [hcore.resolveClass?_element ht] at hclass
      rw [hcore.element_eq ht] at hletter
      rw [hcore.descriptor_of_generic ht hdims hclass]
      rw [← resolveClass?_base] at hclass
      rw [(ofElement_eq_iff hnames hclass (trim_trim _) (not_mem_base t)).2 hletter]
    · have hangle := mt hcore.mem_element.1 ht
      rw [before_of_not_mem hangle, hcore.trim_element] at hletter
      rw [hcore.descriptor_of_tight ht (h.tight ht (.inr (by rw [hclass]; rfl))),
        (ofElement_eq_iff hnames hclass hcore.trim_element hangle).2 hletter]

theorem regular_of_agrees (hnames : EndsInNames scope.known) (h : scope.Agrees t) : scope.Regular t := by
  obtain ⟨base, hcore⟩ := exists_core scope t
  have hgeneric : '<' ∈ t → 0 < (form t).dims → scope.resolveClass? (form t).element = none := by
    intro ht hdims
    rw [hcore.resolveClass?_element ht]
    exact h.array hdims
  have htight : '<' ∉ t → (primitiveLetter? (.ofList (form t).element)).isSome ∨
      (scope.resolveClass? (form t).element).isSome → ∀ inside ∈ (form t).insides, inside = [] := by
    intro ht hsome inside hinside
    by_contra hne
    -- The descriptor lacks a dimension, whatever stands behind them.
    have hcount {x : String} (hx : x.toList.head? ≠ some '[') (hread : scope.descriptor t = ofDims (form t).dims x) :
        False := by
      have hpairs := hcore.pairs
      have hlt := dropBrackets_lt (s := base) (n := base.length) (by rwa [hpairs]) hne
      rw [hcore.read, readText, before_of_not_mem (mt hcore.angle.1 ht), hcore.trimmed,
        ofDims_inj (head?_ofElement _ _) hx, Form.dims] at hread
      simp only [hpairs] at hlt
      omega
    rcases hsome with hsome | hsome
    · obtain ⟨letter, hletter⟩ := Option.isSome_iff_exists.1 hsome
      exact hcount (head?_singleton hletter) (h.primitive letter hletter)
    · obtain ⟨full, hclass⟩ := Option.isSome_iff_exists.1 hsome
      exact hcount (head?_ofClass full) (h.named full hclass)
  constructor
  case generic => exact hgeneric
  case spread =>
    intro ht hspread
    rcases hcore.end_eq with ⟨-, hplain⟩ | ⟨⟨r, hend⟩, -⟩
    · rw [hspread] at hplain
      cases hplain
    · exact (resolveClass?_spread ht hend).1 (h.array (by simp [Form.dims, hspread]))
  case tight => exact htight
  case lettered =>
    intro hsome
    obtain ⟨full, hclass⟩ := Option.isSome_iff_exists.1 hsome
    have hnamed := h.named full hclass
    by_cases ht : '<' ∈ t
    · have hdims : (form t).dims = 0 := Nat.eq_zero_of_not_pos fun hdims => by
        rw [hgeneric ht hdims] at hclass
        cases hclass
      rw [hcore.resolveClass?_element ht] at hclass
      rw [hcore.descriptor_of_generic ht hdims hclass, ofDims_inj (head?_ofElement _ _) (head?_ofClass _)] at hnamed
      rw [← resolveClass?_base] at hclass
      rw [hcore.element_eq ht]
      exact (ofElement_eq_iff hnames hclass (trim_trim _) (not_mem_base t)).1 hnamed.2
    · have hangle := mt hcore.mem_element.1 ht
      rw [hcore.descriptor_of_tight ht (htight ht (.inr hsome)),
        ofDims_inj (head?_ofElement _ _) (head?_ofClass _)] at hnamed
      rw [before_of_not_mem hangle, hcore.trim_element]
      exact (ofElement_eq_iff hnames hclass hcore.trim_element hangle).1 hnamed.2

/-- The types on which the two readings agree, in the scope of any source. -/
theorem agrees_iff (source : List Char) (root : Tree) (type : List Char) :
    (ofTree source root).Agrees type ↔ (ofTree source root).Regular type :=
  ⟨regular_of_agrees (endsInNames_ofTree source root), agrees_of_regular (endsInNames_ofTree source root)⟩

/-- The parameter of a method is an array of lists. -/
def listing : List Char :=
  "import java.util.List;\nclass Cart \x7b\n    int total(List<String>[] names) \x7b return names.length; \x7d\n\x7d\n".toList

/-- An array of lists is read as a list, by both readings. -/
theorem array_of_lists_lost : ∃ root, parse? listing = some root ∧
    ¬ (ofTree listing root).Agrees "List<String>[]".toList ∧
    (indexSource? listing).map (·.map fun c => c.methods.values.map MethodInfo.descriptor) =
      some [["(Ljava/util/List;)I"]] := by
  have hlisting : listing = _ := Text.toList_literal rfl
  have hclass : (parse? listing).map (fun root => (ofTree listing root).resolveClass? "List<String>[]".toList) =
      some (some "java.util.List") := by
    rw [hlisting]
    decide +kernel
  obtain ⟨root, hroot, hlist⟩ := Option.map_eq_some_iff.1 hclass
  refine ⟨root, hroot, fun hagrees => ?_, by rw [hlisting]; decide +kernel⟩
  have harray := hagrees.array (by decide +kernel)
  rw [hlist] at harray
  cases harray

end Testwright.Java.Scope
