import Testwright.Project.Overload
import Testwright.Proofs.Data.Dict

/-!
# Reconciling calls part by part

Files are indexed one by one: the calls of a file are reconciled against the classes of that file
first and against those of the whole project in the end. A class declares the same methods to a
part of the project as to the whole, so what a part has settled the whole leaves as it is
(`reconcileCalls_of_le`), and the detour over the parts changes nothing
(`reconcileClasses_account`).

All that reconciling touches are the signatures of calls to classes that are there; `Settles` says
what becomes of the calls of a method or of the constructors of a class.
-/

namespace Testwright

namespace Dict

variable {α : Type} {parts : List (Dict α)} {d e : Dict α} {k : String} {v : α}

/-- The entries of some maps; where several have a name, the value of the last. -/
def unions (parts : List (Dict α)) : Dict α := parts.foldr union ∅

/-- Some maps, of which no two have a name in common, make up a map. -/
structure IsCut (parts : List (Dict α)) (d : Dict α) : Prop where
  apart : parts.Pairwise fun a b => ∀ name, a.contains name = true → b.contains name = false
  unions_eq : unions parts = d

theorem get?_unions_cons :
    (unions (e :: parts)).get? k = ((unions parts).get? k).or (e.get? k) := get?_union

theorem exists_mem_of_get?_unions (h : (unions parts).get? k = some v) :
    ∃ e ∈ parts, e.get? k = some v := by
  induction parts with
  | nil => cases h
  | cons e parts ih =>
    rw [get?_unions_cons, Option.or_eq_some_iff] at h
    rcases h with h | ⟨-, h⟩
    · obtain ⟨e', he', hv⟩ := ih h
      exact ⟨e', List.mem_cons_of_mem e he', hv⟩
    · exact ⟨e, List.mem_cons_self, h⟩

theorem get?_unions_of_mem
    (hapart : parts.Pairwise fun a b => ∀ name, a.contains name = true → b.contains name = false)
    (he : e ∈ parts) (hv : e.get? k = some v) : (unions parts).get? k = some v := by
  induction parts with
  | nil => cases he
  | cons first parts ih =>
    obtain ⟨hfirst, hrest⟩ := List.pairwise_cons.1 hapart
    rw [get?_unions_cons]
    rcases List.mem_cons.1 he with rfl | he
    · cases hlater : (unions parts).get? k with
      | none => exact hv
      | some w =>
        obtain ⟨e', he', hw⟩ := exists_mem_of_get?_unions hlater
        have := hfirst e' he' k (contains_of_get? hv)
        simp [contains, hw] at this
    · rw [ih hrest he]
      rfl

theorem get?_unions_iff
    (hapart : parts.Pairwise fun a b => ∀ name, a.contains name = true → b.contains name = false) :
    (unions parts).get? k = some v ↔ ∃ e ∈ parts, e.get? k = some v :=
  ⟨exists_mem_of_get?_unions, fun ⟨_, he, hv⟩ => get?_unions_of_mem hapart he hv⟩

end Dict

namespace Overload

variable {classes : Dict ClassInfo} {declared declared' : String → Option (List String)}

/-! ## One call -/

section
variable {ds : List String} {call d : String}

/-- A call binds to signatures of its name and number of parameters alone. -/
theorem sameShape_of_binds {widen : Bool} (h : binds widen call d = true) :
    sameShape call d = true := by
  unfold binds at h
  unfold sameShape
  split at h
  · simp only [Bool.and_eq_true] at h
    simp only [h.1.1, h.1.2, Bool.and_self]
  · cases h

theorem matching_subset (h : d ∈ matching call ds) : d ∈ ds ∧ sameShape call d = true := by
  have hbinds (widen : Bool) (hd : d ∈ ds.filter (binds widen call)) :
      d ∈ ds ∧ sameShape call d = true := by
    obtain ⟨hmem, hfits⟩ := List.mem_filter.1 hd
    exact ⟨hmem, sameShape_of_binds hfits⟩
  unfold matching at h
  split at h
  · exact hbinds true h
  · exact hbinds false h

/-- A call gives way to a declared signature of its name and number of parameters. -/
theorem declaredFor?_eq_some (h : declaredFor? call ds = some d) :
    d ∈ ds ∧ sameShape call d = true := by
  unfold declaredFor? at h
  split at h
  · cases h
  · split at h
    · next only hmatching =>
      cases h
      exact matching_subset (hmatching ▸ List.mem_singleton_self d)
    · cases h

theorem declaredFor?_of_mem (h : call ∈ ds) : declaredFor? call ds = none := by
  simp [declaredFor?, h]

/-- The signature under which a call is kept. -/
def settle (ds : List String) (call : String) : String := (declaredFor? call ds).getD call

theorem settle_cases (ds : List String) (call : String) :
    settle ds call = call ∨ settle ds call ∈ ds ∧ sameShape call (settle ds call) = true := by
  unfold settle
  cases hfor : declaredFor? call ds with
  | none => exact .inl rfl
  | some d => exact .inr (declaredFor?_eq_some hfor)

theorem settle_settle (ds : List String) (call : String) :
    settle ds (settle ds call) = settle ds call := by
  rcases settle_cases ds call with h | ⟨h, -⟩
  · rw [h, h]
  · generalize settle ds call = d at h
    simp [settle, declaredFor?_of_mem h]

/-- A call that stays as it is is not replaced. -/
theorem declaredFor?_of_settle (h : settle ds call = call) : declaredFor? call ds = none := by
  cases hfor : declaredFor? call ds with
  | none => rfl
  | some d =>
    rw [settle, hfor] at h
    have hmem : call ∈ ds := h ▸ (declaredFor?_eq_some hfor).1
    cases hfor.symm.trans (declaredFor?_of_mem hmem)

end

/-! ## The calls of a method -/

/-- The signatures of calls to a class that declares some methods. -/
def settleAll (ds : List String) (signatures : Names) : Names :=
  .ofList (signatures.toList.map (settle ds))

theorem contains_settleAll {ds : List String} {signatures : Names} {k : String} :
    (settleAll ds signatures).contains k = true ↔
      ∃ call, signatures.contains call = true ∧ settle ds call = k := by
  simp [settleAll, Names.contains_ofList, Names.mem_toList]

theorem settleAll_settleAll (ds : List String) (signatures : Names) :
    settleAll ds (settleAll ds signatures) = settleAll ds signatures := by
  refine Names.ext_contains fun k => ?_
  simp only [contains_settleAll]
  constructor
  · rintro ⟨_, ⟨call, hcall, rfl⟩, rfl⟩
    exact ⟨call, hcall, (settle_settle ds call).symm⟩
  · rintro ⟨call, hcall, rfl⟩
    exact ⟨_, ⟨call, hcall, rfl⟩, settle_settle ds call⟩

theorem get?_reconcileCalls {calls : Calls} {target : String} :
    (reconcileCalls declared calls).get? target =
      (calls.get? target).map fun signatures =>
        (declared target).elim signatures fun ds => settleAll ds signatures := by
  rw [reconcileCalls, Dict.get?_mapWithKey]
  congr 1
  funext signatures
  cases declared target <;> rfl

/-- Whatever one catalogue says about a class another one says as well. -/
def CatalogueLE (declared declared' : String → Option (List String)) : Prop :=
  ∀ target ds, declared target = some ds → declared' target = some ds

/-- What a smaller catalogue has settled a larger one settles the same way. -/
theorem reconcileCalls_of_le (h : CatalogueLE declared declared') (calls : Calls) :
    reconcileCalls declared' (reconcileCalls declared calls) = reconcileCalls declared' calls := by
  refine Dict.ext_get? fun target => ?_
  simp only [get?_reconcileCalls, Option.map_map]
  congr 1
  funext signatures
  cases hdeclared : declared target with
  | none => rfl
  | some ds => simp [h target ds hdeclared, settleAll_settleAll]

/-! ## Classes -/

/-- The signatures that the classes of a map declare. -/
def catalogue (classes : Dict ClassInfo) (target : String) : Option (List String) :=
  (classes.get? target).map fun c => c.methods.keys

def reconcileMethod (declared : String → Option (List String)) (m : MethodInfo) : MethodInfo :=
  { m with calls := reconcileCalls declared m.calls }

def reconcileClass (declared : String → Option (List String)) (c : ClassInfo) : ClassInfo :=
  { c with
    constructorCalls := reconcileCalls declared c.constructorCalls
    methods := c.methods.map (reconcileMethod declared) }

theorem reconcileClasses_eq (classes : Dict ClassInfo) :
    reconcileClasses classes = classes.map (reconcileClass (catalogue classes)) := rfl

theorem reconcileClass_of_le (h : CatalogueLE declared declared') (c : ClassInfo) :
    reconcileClass declared' (reconcileClass declared c) = reconcileClass declared' c := by
  have hmethods : (c.methods.map (reconcileMethod declared)).map (reconcileMethod declared') =
      c.methods.map (reconcileMethod declared') := by
    refine Dict.ext_get? fun k => ?_
    simp only [Dict.get?_map, Option.map_map]
    congr 1
    funext m
    exact congrArg (fun calls => { m with calls }) (reconcileCalls_of_le h m.calls)
  simp only [reconcileClass, hmethods, reconcileCalls_of_le h]

/-- Reconciling changes no key of a method, whatever the catalogue. -/
theorem catalogue_map : catalogue (classes.map (reconcileClass declared)) = catalogue classes := by
  funext target
  simp only [catalogue, Dict.get?_map, Option.map_map]
  congr 1
  funext c
  exact Dict.keys_map

theorem reconcileClasses_idem (classes : Dict ClassInfo) :
    reconcileClasses (reconcileClasses classes) = reconcileClasses classes := by
  have hself : CatalogueLE (catalogue classes) (catalogue classes) := fun _ _ h => h
  simp only [reconcileClasses_eq, catalogue_map]
  refine Dict.ext_get? fun k => ?_
  simp [Function.comp_def, reconcileClass_of_le hself]

/-! ## Parts of a project -/

section
variable {parts : List (Dict ClassInfo)} {part : Dict ClassInfo}

theorem apart_reconciled (h : Dict.IsCut parts classes) :
    (parts.map reconcileClasses).Pairwise
      fun a b => ∀ name, a.contains name = true → b.contains name = false := by
  refine List.pairwise_map.2 (h.apart.imp fun {a b} hapart name => ?_)
  have hcontains (part : Dict ClassInfo) :
      (reconcileClasses part).contains name = part.contains name := by
    simp [Dict.contains, reconcileClasses_eq]
  rw [hcontains, hcontains]
  exact hapart name

theorem get?_of_part (h : Dict.IsCut parts classes) (hpart : part ∈ parts) {k : String}
    {c : ClassInfo} (hc : part.get? k = some c) : classes.get? k = some c :=
  h.unions_eq ▸ Dict.get?_unions_of_mem h.apart hpart hc

theorem catalogue_part_le (h : Dict.IsCut parts classes) (hpart : part ∈ parts) :
    CatalogueLE (catalogue part) (catalogue classes) := by
  intro target ds hds
  obtain ⟨c, hc, rfl⟩ := Option.map_eq_some_iff.1 hds
  exact Option.map_eq_some_iff.2 ⟨c, get?_of_part h hpart hc, rfl⟩

/-- In the union of parts reconciled alone a class is as its part has left it. -/
theorem get?_unions_reconciled (h : Dict.IsCut parts classes) {k : String} {c' : ClassInfo} :
    (Dict.unions (parts.map reconcileClasses)).get? k = some c' ↔
      ∃ part ∈ parts, ∃ c, part.get? k = some c ∧ reconcileClass (catalogue part) c = c' := by
  rw [Dict.get?_unions_iff (apart_reconciled h)]
  constructor
  · rintro ⟨_, hmem, hc'⟩
    obtain ⟨part, hpart, rfl⟩ := List.mem_map.1 hmem
    obtain ⟨c, hc, rfl⟩ := Option.map_eq_some_iff.1 (Dict.get?_map.symm.trans hc')
    exact ⟨part, hpart, c, hc, rfl⟩
  · rintro ⟨part, hpart, c, hc, rfl⟩
    exact ⟨_, List.mem_map_of_mem hpart, by simp [reconcileClasses_eq, hc]⟩

theorem catalogue_unions_reconciled (h : Dict.IsCut parts classes) :
    catalogue (Dict.unions (parts.map reconcileClasses)) = catalogue classes := by
  funext target
  refine Option.ext fun ds => ?_
  simp only [catalogue, Option.map_eq_some_iff]
  constructor
  · rintro ⟨_, hc', rfl⟩
    obtain ⟨part, hpart, c, hc, rfl⟩ := (get?_unions_reconciled h).1 hc'
    exact ⟨c, get?_of_part h hpart hc, Dict.keys_map.symm⟩
  · rintro ⟨c, hc, rfl⟩
    obtain ⟨part, hpart, hc⟩ := Dict.exists_mem_of_get?_unions (h.unions_eq ▸ hc)
    exact ⟨_, (get?_unions_reconciled h).2 ⟨part, hpart, c, hc, rfl⟩, Dict.keys_map⟩

theorem reconcileClasses_unions (h : Dict.IsCut parts classes) :
    reconcileClasses (Dict.unions (parts.map reconcileClasses)) = reconcileClasses classes := by
  simp only [reconcileClasses_eq, catalogue_unions_reconciled h]
  refine Dict.ext_get? fun k => Option.ext fun c'' => ?_
  simp only [Dict.get?_map, Option.map_eq_some_iff]
  constructor
  · rintro ⟨_, hc', rfl⟩
    obtain ⟨part, hpart, c, hc, rfl⟩ := (get?_unions_reconciled h).1 hc'
    exact ⟨c, get?_of_part h hpart hc, (reconcileClass_of_le (catalogue_part_le h hpart) c).symm⟩
  · rintro ⟨c, hc, rfl⟩
    obtain ⟨part, hpart, hc⟩ := Dict.exists_mem_of_get?_unions (h.unions_eq ▸ hc)
    exact ⟨_, (get?_unions_reconciled h).2 ⟨part, hpart, c, hc, rfl⟩,
      reconcileClass_of_le (catalogue_part_le h hpart) c⟩

end

/-! ## What stays -/

/-- What reconciling against some classes makes of calls: the called classes stay, and so do the
calls to classes that are not there; another call stays or becomes a call of a declared method of
the same name and number of parameters. -/
structure Settles (classes : Dict ClassInfo) (before after : Calls) : Prop where
  keys : after.keys = before.keys
  outside : ∀ target, classes.contains target = false → after.get? target = before.get? target
  within : ∀ target c signatures, classes.get? target = some c →
    before.get? target = some signatures → ∃ f : String → String,
      after.get? target = some (.ofList (signatures.toList.map f)) ∧
        ∀ call, f call = call ∨ c.methods.contains (f call) = true ∧ sameShape call (f call) = true

theorem settles_reconcileCalls (classes : Dict ClassInfo) (calls : Calls) :
    Settles classes calls (reconcileCalls (catalogue classes) calls) where
  keys := Dict.keys_mapWithKey
  outside target h := by
    simp [get?_reconcileCalls, catalogue, Dict.get?_eq_none_of_contains h]
  within target c signatures hc hcalls := by
    refine ⟨settle c.methods.keys, ?_, fun call => ?_⟩
    · simp [get?_reconcileCalls, catalogue, hc, hcalls, settleAll]
    · rw [← Dict.mem_keys]
      exact settle_cases c.methods.keys call

/-- What reconciling makes of a class: only the calls of its constructors and methods change. -/
structure ClassSettles (classes : Dict ClassInfo) (before after : ClassInfo) : Prop where
  rest : { after with
    constructorCalls := before.constructorCalls, methods := before.methods } = before
  constructorCalls : Settles classes before.constructorCalls after.constructorCalls
  keys : after.methods.keys = before.methods.keys
  methods : ∀ k m, before.methods.get? k = some m → ∃ m', after.methods.get? k = some m' ∧
    { m' with calls := m.calls } = m ∧ Settles classes m.calls m'.calls

theorem classSettles_reconcileClass (classes : Dict ClassInfo) (c : ClassInfo) :
    ClassSettles classes c (reconcileClass (catalogue classes) c) where
  rest := rfl
  constructorCalls := settles_reconcileCalls classes c.constructorCalls
  keys := Dict.keys_map
  methods k m hm :=
    ⟨reconcileMethod (catalogue classes) m, by simp [reconcileClass, hm], rfl,
      settles_reconcileCalls classes m.calls⟩

/-- **Reconciling.** Reconciling twice is reconciling once, and so is reconciling the parts of a
project before the whole, however it is cut. All classes stay, and in each of them only calls to
methods of these classes change, to declared ones of the same shape. -/
theorem reconcileClasses_account (classes : Dict ClassInfo) :
    reconcileClasses (reconcileClasses classes) = reconcileClasses classes ∧
    (∀ parts, Dict.IsCut parts classes →
      reconcileClasses (Dict.unions (parts.map reconcileClasses)) = reconcileClasses classes) ∧
    (reconcileClasses classes).keys = classes.keys ∧
    ∀ name c, classes.get? name = some c → ∃ c', (reconcileClasses classes).get? name = some c' ∧
      ClassSettles classes c c' := by
  refine ⟨reconcileClasses_idem classes, fun parts h => reconcileClasses_unions h,
    Dict.keys_map, fun name c hc => ?_⟩
  exact ⟨reconcileClass (catalogue classes) c, by simp [reconcileClasses_eq, hc],
    classSettles_reconcileClass classes c⟩

namespace Stall

/-- The argument of the call is not known in the file that makes it. -/
def cartFile : Dict ClassInfo := .ofList [("Cart",
  ({ fullName := "Cart", name := "Cart" } : ClassInfo).insertMethod
    { name := "total", signature := "total()", calls := .ofList [("Tax", .ofList ["rate(?)"])] })]

def taxFile : Dict ClassInfo := .ofList [("Tax",
  ({ fullName := "Tax", name := "Tax" } : ClassInfo).insertMethod
    { name := "rate", signature := "rate(int)" })]

def stall : Dict ClassInfo := Dict.unions [cartFile, taxFile]

def callsOfTotal (classes : Dict ClassInfo) : Option Calls :=
  (classes.get? "Cart").bind fun c => (c.method? "total()").map MethodInfo.calls

end Stall

open Stall in
/-- The file of the cart alone does not tell which method is called; the two files do, whether or
not each was reconciled before. -/
theorem reconcileClasses_stall : Dict.IsCut [cartFile, taxFile] stall ∧
    reconcileClasses (Dict.unions [reconcileClasses cartFile, reconcileClasses taxFile]) =
      reconcileClasses stall ∧
    callsOfTotal (reconcileClasses cartFile) = some (.ofList [("Tax", .ofList ["rate(?)"])]) ∧
    callsOfTotal (reconcileClasses stall) = some (.ofList [("Tax", .ofList ["rate(int)"])]) := by
  have hcut : Dict.IsCut [cartFile, taxFile] stall := by
    refine ⟨List.pairwise_pair.2 fun name h => ?_, rfl⟩
    have hkeys : ∀ k ∈ cartFile.keys, taxFile.contains k = false := by decide
    exact hkeys name (Dict.mem_keys.2 h)
  exact ⟨hcut, (reconcileClasses_account stall).2.1 _ hcut, by decide, by decide⟩

end Overload

end Testwright
