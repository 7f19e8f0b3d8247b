import Mathlib.Data.List.Forall2
import Testwright.Proofs.Project.Candidates
import Testwright.Proofs.Text.Cutting

/-!
# Calls that say less about their arguments

A call is recorded with the types of its arguments as far as they are known, so one call may be recorded
with more or with less said about it: `Vaguer` compares the types of its arguments. `signature` writes such
types down, and reading a signature gives them back (`splitSignature?_signature`).

What a typed call binds to, a vaguer call binds to as well (`binds_vaguer`), and it is found for the vaguer
one no later (`distance_vaguer`). So a declared signature that stands in for a typed call is lost for a
vaguer one only where another one is found earlier (`keeps_vaguer_iff`). An unknown argument fits any type
exactly, and so it does happen: the only overload that a typed call binds to, by widening, gives way to one
that the typed call does not fit (`round_lost`).
-/

namespace Testwright

namespace Overload

variable {declared : List String} {call name d : String} {args args' params types : List String}

/-! ## Types between commas -/

/-- The open angle brackets behind a character. -/
def nest (depth : Nat) (c : Char) : Nat :=
  if c = '<' then depth + 1 else if c = '>' then depth - 1 else depth

/-- No comma of a text stands outside angle brackets, some of which are open in front of the text. -/
def Unbroken (depth : Nat) : List Char → Prop
  | [] => True
  | c :: s => ¬(c = ',' ∧ depth = 0) ∧ Unbroken (nest depth c) s

section
variable {depth : Nat} {current s r : List Char}

theorem unbroken_append :
    Unbroken depth (s ++ r) ↔ Unbroken depth s ∧ Unbroken (s.foldl nest depth) r := by
  induction s generalizing depth with
  | nil => simp [Unbroken]
  | cons c s ih => simp only [List.cons_append, Unbroken, ih, List.foldl_cons, and_assoc]

theorem splitTypes_append (h : Unbroken depth s) (current r : List Char) :
    splitTypes depth current (s ++ r) = splitTypes (s.foldl nest depth) (s.reverse ++ current) r := by
  induction s generalizing depth current with
  | nil => rfl
  | cons c s ih =>
    rw [List.cons_append, splitTypes, if_neg h.1, List.foldl_cons, List.reverse_cons, List.append_assoc]
    exact ih h.2 _

theorem splitTypes_of_unbroken (h : Unbroken 0 s) : splitTypes 0 [] s = [.ofList s] := by
  have hsplit := splitTypes_append h [] []
  rwa [List.append_nil, List.append_nil, splitTypes, List.reverse_reverse] at hsplit

end

/-- Types as they stand between the commas of a signature. The last one may leave brackets open. -/
inductive Listed : List String → Prop
  | last {type} (unbroken : Unbroken 0 type.toList) : Listed [type]
  | cons {type types} (unbroken : Unbroken 0 type.toList) (closed : type.toList.foldl nest 0 = 0)
    (rest : Listed types) : Listed (type :: types)

/-- What a text is split into are types between commas. -/
theorem listed_splitTypes {depth : Nat} {current s : List Char} (hcurrent : Unbroken 0 current.reverse)
    (hdepth : current.reverse.foldl nest 0 = depth) : Listed (splitTypes depth current s) := by
  induction s generalizing depth current with
  | nil => exact .last (by rwa [String.toList_ofList])
  | cons c s ih =>
    unfold splitTypes
    split
    · next hcomma =>
      rw [hcomma.2] at hdepth
      exact .cons (by rwa [String.toList_ofList]) (by rwa [String.toList_ofList]) (ih trivial rfl)
    · next hcomma =>
      refine ih ?_ ?_
      · rw [List.reverse_cons, unbroken_append, hdepth]
        exact ⟨hcurrent, hcomma, trivial⟩
      · rw [List.reverse_cons, List.foldl_append, hdepth]
        rfl

theorem Listed.ne_nil (h : Listed types) : types ≠ [] := by
  cases h <;> exact List.cons_ne_nil _ _

/-- Joining what a text is split into gives the text back. -/
theorem intercalate_splitTypes (depth : Nat) (current s : List Char) :
    ",".intercalate (splitTypes depth current s) = .ofList (current.reverse ++ s) := by
  induction s generalizing depth current with
  | nil => simp [splitTypes]
  | cons c s ih =>
    unfold splitTypes
    split
    · next hcomma =>
      have hlisted : Listed (splitTypes 0 [] s) := listed_splitTypes trivial rfl
      obtain ⟨type, types, hsplit⟩ := List.exists_cons_of_ne_nil hlisted.ne_nil
      rw [hsplit, String.intercalate_cons_cons, ← hsplit, ih, hcomma.1, ← String.toList_inj]
      simp
    · rw [ih, List.reverse_cons, List.append_assoc, List.singleton_append]

/-- Splitting joined types gives them back. -/
theorem Listed.splitTypes_intercalate (h : Listed types) :
    splitTypes 0 [] (",".intercalate types).toList = types := by
  induction h with
  | last unbroken => simp [splitTypes_of_unbroken unbroken]
  | @cons type types unbroken closed rest ih =>
    obtain ⟨next, types, rfl⟩ := List.exists_cons_of_ne_nil rest.ne_nil
    have hcomma : (",".intercalate (type :: next :: types)).toList =
        type.toList ++ ',' :: (",".intercalate (next :: types)).toList := by
      rw [String.intercalate_cons_cons, String.toList_append, String.toList_append, List.append_assoc]
      rfl
    rw [hcomma, splitTypes_append unbroken, closed, splitTypes, if_pos ⟨rfl, rfl⟩, ih,
      List.append_nil, List.reverse_reverse, String.ofList_toList]

/-! ## Signatures -/

/-- The signature of a method by its name and the types of its parameters. -/
def signature (name : String) (types : List String) : String :=
  name ++ "(" ++ ",".intercalate types ++ ")"

/-- A name and types that a signature may be made of. -/
structure Spelled (name : String) (types : List String) : Prop where
  name : '(' ∉ name.toList
  types : types = [] ∨ Listed types ∧ types ≠ [""]

theorem spelled_of_splitSignature? (h : splitSignature? call = some (name, args)) :
    Spelled name args := by
  unfold splitSignature? at h
  split at h
  · cases h
  · next front rest hcut =>
    have hname : '(' ∉ (String.ofList front).toList := by
      rw [String.toList_ofList]
      exact (Text.cutAt?_eq_some hcut).2
    split at h
    · cases h
    · next last inner _ =>
      split at h
      · split at h
        · cases h
          exact ⟨hname, .inl rfl⟩
        · next hne =>
          cases h
          refine ⟨hname, .inr ⟨listed_splitTypes trivial rfl, fun hblank => hne ?_⟩⟩
          have hjoin := intercalate_splitTypes 0 [] inner.reverse
          rw [hblank] at hjoin
          simpa using hjoin.symm
      · cases h

/-- Reading a signature gives its name and its types. -/
theorem splitSignature?_signature (h : Spelled name types) :
    splitSignature? (signature name types) = some (name, types) := by
  have hchars : (signature name types).toList =
      name.toList ++ '(' :: ((",".intercalate types).toList ++ [')']) := by
    simp [signature]
  have hclosing : ')'.toNat < 0x80 := by decide
  rw [splitSignature?, hchars, Text.cutAt?_append h.name]
  simp only [List.reverse_append, List.reverse_singleton, List.singleton_append, if_pos hclosing,
    List.reverse_reverse, String.ofList_toList]
  rcases h.types with rfl | ⟨hlisted, hblank⟩
  · rfl
  · have hsplit := hlisted.splitTypes_intercalate
    split
    · next hnil =>
      rw [hnil] at hsplit
      exact absurd hsplit.symm hblank
    · rw [hsplit]

/-! ## Saying less -/

/-- The second types are the first ones, some of them unknown. -/
def Vaguer : List String → List String → Prop :=
  List.Forall₂ fun type type' => type' = type ∨ type' = unknownType

theorem unbroken_vaguer {type type' : String} (h : type' = type ∨ type' = unknownType)
    (hunbroken : Unbroken 0 type.toList) : Unbroken 0 type'.toList := by
  rcases h with rfl | rfl
  · exact hunbroken
  · simp [unknownType, Unbroken]

theorem closed_vaguer {type type' : String} (h : type' = type ∨ type' = unknownType)
    (hclosed : type.toList.foldl nest 0 = 0) : type'.toList.foldl nest 0 = 0 := by
  rcases h with rfl | rfl
  · exact hclosed
  · rfl

theorem Listed.vaguer (h : Listed args) (hvague : Vaguer args args') : Listed args' := by
  induction h generalizing args' with
  | last unbroken =>
    cases hvague with
    | cons htype hrest =>
      cases hrest
      exact .last (unbroken_vaguer htype unbroken)
  | cons unbroken closed _ ih =>
    cases hvague with
    | cons htype hrest =>
      exact .cons (unbroken_vaguer htype unbroken) (closed_vaguer htype closed) (ih hrest)

/-- A call is still a call with some of its types unknown. -/
theorem Spelled.vaguer (h : Spelled name args) (hvague : Vaguer args args') : Spelled name args' := by
  refine ⟨h.name, h.types.imp ?_ fun ⟨hlisted, hblank⟩ => ⟨hlisted.vaguer hvague, ?_⟩⟩
  · rintro rfl
    cases hvague
    rfl
  · rintro rfl
    cases hvague with
    | cons htype hrest =>
      cases hrest
      cases htype.resolve_right (by decide)
      exact hblank rfl

theorem fits_unknownType {widen : Bool} {p : String} : fits widen p unknownType = true :=
  if_pos (.inl rfl)

theorem Vaguer.fits {widen : Bool} (hvague : Vaguer args args')
    (h : ∀ e ∈ params.zip args, fits widen e.1 e.2 = true) :
    ∀ e ∈ params.zip args', Overload.fits widen e.1 e.2 = true := by
  induction hvague generalizing params with
  | nil => simp
  | cons htype _ ih =>
    cases params with
    | nil => simp
    | cons p params =>
      rw [List.zip_cons_cons, List.forall_mem_cons] at h ⊢
      refine ⟨?_, ih h.2⟩
      rcases htype with rfl | rfl
      · exact h.1
      · exact fits_unknownType

theorem fits_self {widen : Bool} {p : String} : Overload.fits widen p p = true :=
  if_pos (.inr rfl)

/-- A call may bind to itself. -/
theorem binds_self (h : splitSignature? call = some (name, args)) : binds false call call = true := by
  refine binds_iff.2 ⟨name, args, args, h, h, rfl, fun e he => ?_⟩
  obtain ⟨i, hi, rfl⟩ := List.getElem_of_mem he
  rw [List.getElem_zip]
  exact fits_self

section
variable {vague : String} (hcall : splitSignature? call = some (name, args))
  (hvague : splitSignature? vague = some (name, args')) (hargs : Vaguer args args')
include hcall hvague hargs

/-- What a call may bind to, a vaguer call may bind to. -/
theorem binds_vaguer {widen : Bool} (h : binds widen call d = true) : binds widen vague d = true := by
  obtain ⟨_, _, params, hcall', hd, hlength, hfits⟩ := binds_iff.1 h
  cases hcall.symm.trans hcall'
  exact binds_iff.2 ⟨name, args', params, hvague, hd, hargs.length_eq ▸ hlength, hargs.fits hfits⟩

theorem sameShape_vaguer (h : sameShape call d = true) : sameShape vague d = true := by
  obtain ⟨_, _, params, hcall', hd, hlength⟩ := sameShape_iff.1 h
  cases hcall.symm.trans hcall'
  exact sameShape_iff.2 ⟨name, args', params, hvague, hd, hargs.length_eq ▸ hlength⟩

/-- A declared signature is found for a vaguer call no later than for the call itself, or by exact types. -/
theorem distance_vaguer (d : String) : distance vague d ≤ max 1 (distance call d) := by
  -- Written as it is, a call is found in the first pass, and the vaguer one, which differs from it, in the
  -- next: the call binds to itself.
  have hself := binds_self hcall
  have hone : distance call d ≤ 1 → distance vague d ≤ 1 := by
    rw [distance_le_one, distance_le_one]
    rintro (rfl | h)
    · exact .inr (binds_vaguer hcall hvague hargs hself)
    · exact .inr (binds_vaguer hcall hvague hargs h)
  have htwo : distance call d ≤ 2 → distance vague d ≤ 2 := by
    rw [distance_le_two, distance_le_two]
    rintro (rfl | h)
    · exact .inr (binds_vaguer hcall hvague hargs (binds_widen hself))
    · exact .inr (binds_vaguer hcall hvague hargs h)
  have hthree : distance call d ≤ 3 → distance vague d ≤ 3 := by
    rw [distance_le_three, distance_le_three]
    rintro (rfl | h)
    · exact .inr (sameShape_vaguer hcall hvague hargs (sameShape_of_binds hself))
    · exact .inr (sameShape_vaguer hcall hvague hargs h)
  have hvague4 := distance_le_four vague d
  have hcall4 := distance_le_four call d
  omega

/-- What stands in for a call stands in for a vaguer one unless another declared signature is found for
that one earlier. -/
theorem mem_standIns_vaguer_iff (hmem : d ∈ declared) (hkept : Closest declared call d) :
    d ∈ standIns declared vague ↔ ∀ e ∈ declared, distance vague d ≤ distance vague e := by
  rw [mem_standIns_of_mem hmem]
  refine ⟨fun hd => hd.least, fun hleast => ⟨hmem, ?_, hleast⟩⟩
  have hfound := hkept.found
  have hlater := distance_vaguer hcall hvague hargs d
  omega

/-- A declared signature that is found earlier for a vaguer call is found later for the call itself. -/
theorem distance_lt_of_overtakes (hkept : Closest declared call d) {e : String} (he : e ∈ declared)
    (hearlier : distance vague e < distance vague d) : distance vague e < distance call e := by
  have hleast := hkept.least e he
  have hlater := distance_vaguer hcall hvague hargs d
  rcases Nat.eq_zero_or_pos (distance call d) with hzero | hpos
  · have hne : distance call e ≠ 0 := by
      intro hsame
      rw [distance_eq_zero.1 hsame, distance_eq_zero.1 hzero] at hearlier
      exact Nat.lt_irrefl _ hearlier
    omega
  · omega

/-- What a vaguer call fits exactly stands in for it, unless that call is declared. -/
theorem mem_standIns_vaguer_of_exact (hmem : d ∈ declared) (hkept : Closest declared call d)
    (hexact : binds false vague d = true) (hundeclared : vague ∉ declared) :
    d ∈ standIns declared vague := by
  refine (mem_standIns_vaguer_iff hcall hvague hargs hmem hkept).2 fun e he => ?_
  have hone := distance_le_one.2 (.inr hexact)
  have hne : distance vague e ≠ 0 := by
    rw [Ne, distance_eq_zero]
    rintro rfl
    exact hundeclared he
  omega

end

/-- Of a call about whose arguments nothing is known only the name and their number count. -/
theorem binds_of_unknown {vague : String} {widen : Bool}
    (hvague : splitSignature? vague = some (name, args)) (hunknown : ∀ a ∈ args, a = unknownType)
    (h : sameShape vague d = true) : binds widen vague d = true := by
  obtain ⟨_, _, params, hvague', hd, hlength⟩ := sameShape_iff.1 h
  cases hvague.symm.trans hvague'
  refine binds_iff.2 ⟨name, args, params, hvague, hd, hlength, fun e he => ?_⟩
  rw [hunknown e.2 (List.of_mem_zip he).2]
  exact fits_unknownType

/-- **Vaguer calls.** A declared signature that is kept for a call is kept for a vaguer one unless another
declared signature is found for that one earlier, and only such are found earlier that the call itself fits
less well. So it is kept if the call fits it exactly, and if nothing is known about the arguments. -/
theorem keeps_vaguer_iff (hcall : splitSignature? call = some (name, args))
    (hargs : Vaguer args args') (hd : d ∈ declared)
    (hkept : (reconcileWanted (.ofList [call]) declared).contains d = true) :
    let vague := signature name args'
    let kept := (reconcileWanted (.ofList [vague]) declared).contains d = true
    splitSignature? vague = some (name, args') ∧
      (kept ↔ ∀ e ∈ declared, distance vague d ≤ distance vague e) ∧
      (∀ e ∈ declared, distance vague e < distance vague d → distance vague e < distance call e) ∧
      ((binds false call d = true ∨ ∀ a ∈ args', a = unknownType) → vague ∉ declared → kept) := by
  intro vague kept
  have hvague := splitSignature?_signature ((spelled_of_splitSignature? hcall).vaguer hargs)
  have hclosest : Closest declared call d :=
    (mem_standIns_of_mem hd).1 (contains_reconcileWanted_singleton.1 hkept)
  have hkeeps : kept ↔ d ∈ standIns declared vague := contains_reconcileWanted_singleton
  refine ⟨hvague, ?_, fun e he => distance_lt_of_overtakes hcall hvague hargs hclosest he, ?_⟩
  · rw [hkeeps]
    exact mem_standIns_vaguer_iff hcall hvague hargs hd hclosest
  · intro hexact hundeclared
    rw [hkeeps]
    refine mem_standIns_vaguer_of_exact hcall hvague hargs hd hclosest ?_ hundeclared
    rcases hexact with hexact | hunknown
    · exact binds_vaguer hcall hvague hargs hexact
    · refine binds_of_unknown hvague hunknown ?_
      rcases distance_le_three.1 hclosest.found with rfl | hshape
      · exact sameShape_vaguer hcall hvague hargs (sameShape_of_binds (binds_self hcall))
      · exact sameShape_vaguer hcall hvague hargs hshape

/-- Of two overloads one is kept for a call by its exact types, and for the call with an unknown
argument. -/
theorem keeps_vaguer_log : (reconcileWanted (.ofList [signature "log" ["?", "int"]])
    ["log(long,int)", "log(String,int)"]).contains "log(String,int)" = true := by
  have hcall : splitSignature? "log(String,int)" = some ("log", ["String", "int"]) := by decide
  have hargs : Vaguer ["String", "int"] ["?", "int"] := .cons (.inr rfl) (.cons (.inl rfl) .nil)
  have hd : "log(String,int)" ∈ ["log(long,int)", "log(String,int)"] := by decide
  obtain ⟨-, -, -, hkept⟩ := keeps_vaguer_iff hcall hargs hd (by decide)
  exact hkept (.inl (by decide)) (by decide)

/-- The call binds to the first overload, by widening its second argument. With its first argument unknown
it fits the second overload exactly, and the first one is lost. -/
theorem round_lost : splitSignature? "round(int,int)" = some ("round", ["int", "int"]) ∧
    Vaguer ["int", "int"] ["?", "int"] ∧ signature "round" ["?", "int"] = "round(?,int)" ∧
    reconcileWanted (.ofList ["round(int,int)"]) ["round(int,long)", "round(String,int)"] =
      .ofList ["round(int,long)"] ∧
    reconcileWanted (.ofList ["round(?,int)"]) ["round(int,long)", "round(String,int)"] =
      .ofList ["round(String,int)"] := by
  refine ⟨by decide, .cons (.inr rfl) (.cons (.inl rfl) .nil), ?_⟩
  decide

end Overload

end Testwright
