import Mathlib.Data.List.Induction
import Testwright.Proofs.Project.Vagueness

/-!
# Commas inside of angle brackets

The types of a signature are separated by commas, and a comma may belong to a type that has type arguments. What
tells them apart is the number of open brackets. `depth?` counts them and fails where a bracket closes that was not
opened, and at a comma outside of brackets: a type is `Balanced` exactly if it comes through with none left open
(`balanced_iff`). So balanced types are read as they were written (`Written.splitSignature?`), and two signatures of
such types are matched by what they were written of (`binds_signature_iff`).
-/

namespace Testwright.Overload

variable {s r : List Char} {c : Char} {depth depth' k : Nat} {name name' : String} {types args params : List String}

/-! ## Balanced types -/

/-- In a type angle brackets are balanced, and commas stand only inside of them. -/
structure Balanced (s : List Char) : Prop where
  closes_le : ∀ p, p <+: s → p.count '>' ≤ p.count '<'
  closed : s.count '>' = s.count '<'
  comma : ∀ p, p ++ [','] <+: s → p.count '>' < p.count '<'

/-- The open brackets behind a character that may stand where some are open. -/
def turn? (depth : Nat) (c : Char) : Option Nat :=
  if (c = '>' ∨ c = ',') ∧ depth = 0 then none else some (nest depth c)

/-- The open brackets behind a text. -/
def depth? (depth : Nat) (s : List Char) : Option Nat := s.foldlM turn? depth

@[simp] theorem depth?_nil : depth? depth [] = some depth := rfl

theorem depth?_cons : depth? depth (c :: s) = (turn? depth c).bind fun d => depth? d s := rfl

theorem depth?_append : depth? depth (s ++ r) = (depth? depth s).bind fun d => depth? d r := List.foldlM_append

theorem depth?_concat : depth? depth (s ++ [c]) = (depth? depth s).bind fun d => turn? d c := by
  rw [depth?_append]
  refine congrArg (Option.bind _) (funext fun d => ?_)
  rw [depth?_cons]
  cases turn? d c <;> rfl

theorem turn?_eq_some (h : turn? depth c = some depth') :
    nest depth c = depth' ∧ ¬(c = ',' ∧ depth = 0) ∧ depth' + [c].count '>' = depth + [c].count '<' := by
  unfold turn? at h
  split at h
  · cases h
  · next hstop =>
    cases h
    refine ⟨rfl, fun hcomma => hstop ⟨.inr hcomma.1, hcomma.2⟩, ?_⟩
    rcases eq_or_ne c '<' with rfl | hopens
    · rfl
    · rcases eq_or_ne c '>' with rfl | hcloses
      · have hdepth : depth ≠ 0 := fun hzero => hstop ⟨.inl rfl, hzero⟩
        simp [nest]
        omega
      · simp [nest, hopens, hcloses]

/-- Opened brackets are still open or have been closed. -/
theorem depth?_add_count (h : depth? depth s = some depth') : depth' + s.count '>' = depth + s.count '<' := by
  induction s generalizing depth with
  | nil =>
    cases h
    rfl
  | cons c s ih =>
    rw [depth?_cons] at h
    obtain ⟨mid, hturn, hrest⟩ := Option.bind_eq_some_iff.1 h
    have hfirst := (turn?_eq_some hturn).2.2
    have hlast := ih hrest
    rw [← List.singleton_append, List.count_append, List.count_append]
    omega

theorem unbroken_of_depth? (h : depth? depth s = some depth') : Unbroken depth s ∧ s.foldl nest depth = depth' := by
  induction s generalizing depth with
  | nil =>
    cases h
    exact ⟨trivial, rfl⟩
  | cons c s ih =>
    rw [depth?_cons] at h
    obtain ⟨mid, hturn, hrest⟩ := Option.bind_eq_some_iff.1 h
    obtain ⟨rfl, hcomma, -⟩ := turn?_eq_some hturn
    exact ⟨⟨hcomma, (ih hrest).1⟩, (ih hrest).2⟩

/-- Further brackets that are open all the time make no difference. -/
theorem depth?_add (h : depth? depth s = some depth') : depth? (depth + k) s = some (depth' + k) := by
  induction s generalizing depth with
  | nil =>
    cases h
    rfl
  | cons c s ih =>
    rw [depth?_cons] at h ⊢
    obtain ⟨mid, hturn, hrest⟩ := Option.bind_eq_some_iff.1 h
    have hfirst : turn? (depth + k) c = some (mid + k) := by
      unfold turn? at hturn ⊢
      split at hturn
      · cases hturn
      · next hstop =>
        cases hturn
        rw [if_neg fun hmore => hstop ⟨hmore.1, by omega⟩]
        unfold nest
        grind
    rw [hfirst]
    exact ih hrest

theorem turn?_of_ne (h : c ≠ '<' ∧ c ≠ '>' ∧ c ≠ ',') : turn? depth c = some depth := by
  rw [turn?, if_neg fun hstop => hstop.1.elim h.2.1 h.2.2, nest, if_neg h.1, if_neg h.2.1]

theorem depth?_of_ne (h : ∀ c ∈ s, c ≠ '<' ∧ c ≠ '>' ∧ c ≠ ',') : depth? depth s = some depth := by
  induction s with
  | nil => rfl
  | cons c s ih =>
    obtain ⟨hc, hs⟩ := List.forall_mem_cons.1 h
    rw [depth?_cons, turn?_of_ne hc]
    exact ih hs

/-- Characters that are neither brackets nor commas make no difference. -/
theorem depth?_filter {p : Char → Bool} (hp : ∀ c, p c = false → c ≠ '<' ∧ c ≠ '>' ∧ c ≠ ',') :
    depth? depth (s.filter p) = depth? depth s := by
  induction s generalizing depth with
  | nil => rfl
  | cons c s ih =>
    rw [List.filter_cons]
    split
    · rw [depth?_cons, depth?_cons]
      exact congrArg _ (funext fun d => ih)
    · next hc =>
      rw [ih, depth?_cons, turn?_of_ne (hp c (by simpa using hc))]
      rfl

theorem balanced_iff : Balanced s ↔ depth? 0 s = some 0 := by
  constructor
  · rintro ⟨hle, hclosed, hcomma⟩
    -- Along the way the open brackets are those that were opened and not closed.
    suffices hsome : (depth? 0 s).isSome = true by
      obtain ⟨depth, hdepth⟩ := Option.isSome_iff_exists.1 hsome
      have hcount := depth?_add_count hdepth
      rw [hdepth, show depth = 0 by omega]
    clear hclosed
    induction s using List.reverseRecOn with
    | nil => rfl
    | append_singleton s c ih =>
      have hsome := ih (fun p hp => hle p (hp.trans (List.prefix_append s [c])))
        fun p hp => hcomma p (hp.trans (List.prefix_append s [c]))
      obtain ⟨depth, hdepth⟩ := Option.isSome_iff_exists.1 hsome
      have hcount := depth?_add_count hdepth
      have hopen : c = '>' ∨ c = ',' → depth ≠ 0 := by
        rintro (rfl | rfl) rfl
        · have := hle _ List.prefix_rfl
          simp at this
          omega
        · have := hcomma s List.prefix_rfl
          omega
      rw [depth?_concat, hdepth, Option.bind_some, turn?, if_neg fun hstop => hopen hstop.1 hstop.2]
      rfl
  · intro h
    have hbehind {p r : List Char} (hp : p ++ r = s) : ∃ d, depth? 0 p = some d ∧ depth? d r = some 0 := by
      rw [← hp, depth?_append] at h
      exact Option.bind_eq_some_iff.1 h
    refine ⟨fun p ⟨r, hp⟩ => ?_, by have := depth?_add_count h; omega, fun p ⟨r, hp⟩ => ?_⟩
    · obtain ⟨d, hd, -⟩ := hbehind hp
      have hcount := depth?_add_count hd
      omega
    · rw [List.append_assoc, List.singleton_append] at hp
      obtain ⟨d, hd, hrest⟩ := hbehind hp
      rw [depth?_cons] at hrest
      obtain ⟨_, hturn, -⟩ := Option.bind_eq_some_iff.1 hrest
      have hopen := (turn?_eq_some hturn).2.1
      have hcount := depth?_add_count hd
      have hne : d ≠ 0 := fun hzero => hopen ⟨rfl, hzero⟩
      omega

instance : Decidable (Balanced s) := decidable_of_iff _ balanced_iff.symm

theorem Balanced.unbroken (h : Balanced s) : Unbroken 0 s := (unbroken_of_depth? (balanced_iff.1 h)).1

theorem Balanced.foldl_nest (h : Balanced s) : s.foldl nest 0 = 0 := (unbroken_of_depth? (balanced_iff.1 h)).2

theorem Balanced.append (h : Balanced s) (h' : Balanced r) : Balanced (s ++ r) := by
  rw [balanced_iff] at h h' ⊢
  rw [depth?_append, h, Option.bind_some, h']

/-! ## Signatures of balanced types -/

/-- A name and types that are read as they are written. -/
structure Written (name : String) (types : List String) : Prop where
  name : '(' ∉ name.toList
  nonempty : ∀ type ∈ types, type ≠ ""
  balanced : ∀ type ∈ types, Balanced type.toList

theorem listed_of_balanced (hne : types ≠ []) (h : ∀ type ∈ types, Balanced type.toList) : Listed types := by
  induction types with
  | nil => exact absurd rfl hne
  | cons type types ih =>
    obtain ⟨htype, htypes⟩ := List.forall_mem_cons.1 h
    cases types with
    | nil => exact .last htype.unbroken
    | cons => exact .cons htype.unbroken htype.foldl_nest (ih (List.cons_ne_nil _ _) htypes)

theorem Written.spelled (h : Written name types) : Spelled name types := by
  refine ⟨h.name, (eq_or_ne types []).imp_right fun hne => ⟨listed_of_balanced hne h.balanced, ?_⟩⟩
  rintro rfl
  exact h.nonempty "" List.mem_cons_self rfl

theorem Written.splitSignature? (h : Written name types) :
    splitSignature? (signature name types) = some (name, types) := splitSignature?_signature h.spelled

-- The commas of an annotation are outside of angle brackets, and they are taken for those of the signature.
example : splitSignature? (signature "f" ["int@Size(min=1,max=2)[]"]) =
    some ("f", ["int@Size(min=1", "max=2)[]"]) := by decide

/-- Signatures have one shape if they were written of one name and as many types. -/
theorem sameShape_signature_iff (hcall : Written name args) (hdeclared : Written name' params) :
    sameShape (signature name args) (signature name' params) = true ↔ name = name' ∧ args.length = params.length := by
  rw [sameShape, hcall.splitSignature?, hdeclared.splitSignature?, Bool.and_eq_true, beq_iff_eq, beq_iff_eq]

/-- A call may bind to a declared signature if, moreover, each argument fits the type in its place. -/
theorem binds_signature_iff {widen : Bool} (hcall : Written name args) (hdeclared : Written name' params) :
    binds widen (signature name args) (signature name' params) = true ↔
      name = name' ∧ List.Forall₂ (fun p a => fits widen p a = true) params args := by
  rw [binds, hcall.splitSignature?, hdeclared.splitSignature?]
  simp only [Bool.and_eq_true, beq_iff_eq, List.all_eq_true, List.forall₂_iff_zip, and_assoc, Prod.forall]
  grind

end Testwright.Overload
