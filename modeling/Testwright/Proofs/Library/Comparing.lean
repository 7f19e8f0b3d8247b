import Testwright.Library.Resolver
import Testwright.Proofs.Java.Pruning
import Testwright.Proofs.Project.Candidates
import Testwright.Proofs.Project.Recording

/-!
# Classes from source and from compiled code

Of a class of the project an excerpt keeps the wanted methods that it declares (`ClassInfo.kept`). If the
same text comes from a decompiler it is pruned, and the wanted signatures are first replaced by those that
stand in for them (`contains_kept_prune?`).

Pruning keeps whatever the excerpt keeps, and both keep the same just where the signatures that stand in for
wanted ones are wanted themselves (`kept_prune?_eq_iff`). The calls of a project have been reconciled by
then, which leaves the calls that fit no declared method or several. Those are what the two differ in
(`rates_left_out`).
-/

namespace Testwright

/-! ## The signatures of a source -/

namespace Java

variable {source : List Char} {declared : List String} {classes : List ClassInfo} {c : ClassInfo}
  {signature : String}

/-- The signatures that a source declares have no blanks. -/
theorem normalizeSignature_of_mem_declaredSignatures? (h : declaredSignatures? source = some declared)
    (hmem : signature ∈ declared) : normalizeSignature signature = signature := by
  obtain ⟨root, hroot, rfl⟩ := Option.map_eq_some_iff.1 h
  obtain ⟨words, htokens, hformed⟩ := parse?_formed hroot
  obtain ⟨d, hd, hmem⟩ := List.mem_flatMap.1 hmem
  obtain ⟨m, hm, hsignature⟩ := List.mem_filterMap.1 hmem
  have hkind : m.kind = .methodDeclaration := eq_of_beq (List.mem_filter.1 hm).2
  exact Tree.normalizeSignature_of_signature? htokens (Tree.forall_methods hformed hd hm)
    (by rw [hkind]; rfl) hsignature

/-- A source from which a class is read declares the methods of the class. -/
theorem declares_of_mem_indexSource? (h : indexSource? source = some classes) (hc : c ∈ classes) :
    ∃ declared, declaredSignatures? source = some declared ∧
      ∀ k, c.methods.contains k = true → k ∈ declared := by
  obtain ⟨root, hroot, d, hd, rfl⟩ := Project.declared_of_mem_indexSource? h hc
  have hdeclared : declaredSignatures? source = some (root.declarations.flatMap fun d =>
      d.decl.methods.filterMap (Tree.signature? source)) := by
    rw [declaredSignatures?, hroot]
    rfl
  refine ⟨_, hdeclared, fun k hk => ?_⟩
  rw [Index.contains_methods_reconcileClass] at hk
  obtain ⟨m, hm, hkind, signature, hsignature, rfl⟩ := ((Index.keyed_classOf d).keys k).1 hk
  have hmem : signature ∈ root.declarations.flatMap fun d =>
      d.decl.methods.filterMap (Tree.signature? source) :=
    List.mem_flatMap.2 ⟨d, hd, List.mem_filterMap.2
      ⟨m, List.mem_filter.2 ⟨hm, by simp [hkind]⟩, hsignature⟩⟩
  rwa [normalizeSignature_of_mem_declaredSignatures? hdeclared hmem]

/-- Pruning keeps the wanted signatures that a source declares. -/
theorem kept_of_prune? {wanted : Names} {pruned : Pruned} (h : prune? source wanted = some pruned)
    (hdeclared : declaredSignatures? source = some declared) :
    pruned.kept = (normalizeSignatures wanted).filter fun s _ => declared.contains s := by
  obtain ⟨root, hroot, rfl⟩ := Option.map_eq_some_iff.1 hdeclared
  unfold prune? at h
  rw [hroot] at h
  dsimp only at h
  split at h
  · cases h
    exact Prune.kept_eq
  · cases h

end Java

/-- What stands in for a call without blanks has none. -/
theorem normalizeSignature_of_mem_standIns {source : List Char} {declared : List String} {call d : String}
    (hdeclared : Java.declaredSignatures? source = some declared)
    (h : d ∈ Overload.standIns declared (normalizeSignature call)) : normalizeSignature d = d := by
  rcases Overload.mem_standIns.1 h with hd | ⟨-, rfl⟩
  · exact Java.normalizeSignature_of_mem_declaredSignatures? hdeclared hd.mem
  · exact normalizeSignature_idem call

open Java Overload in
/-- Pruning a reconstructed class keeps the methods that stand in for wanted ones. -/
theorem Resolver.contains_kept_prune? {r : Reconstruction} {wanted : Names} {declared : List String}
    {pruned : Pruned} {k : String} (hdeclared : declaredSignatures? r.source.toList = some declared)
    (h : Resolver.prune? r wanted = some pruned) : pruned.kept.contains k = true ↔
      k ∈ declared ∧ ∃ call, wanted.contains call = true ∧
        k ∈ standIns declared (normalizeSignature call) := by
  unfold Resolver.prune? at h
  dsimp only at h
  rw [hdeclared] at h
  dsimp only at h
  rw [kept_of_prune? h hdeclared, Names.contains_filter, List.contains_iff_mem,
    contains_normalizeSignatures]
  constructor
  · rintro ⟨⟨signature, hsignature, rfl⟩, hmem⟩
    obtain ⟨_, hwanted, hstands⟩ := contains_reconcileWanted.1 hsignature
    obtain ⟨call, hcall, rfl⟩ := contains_normalizeSignatures.1 hwanted
    rw [normalizeSignature_of_mem_standIns hdeclared hstands] at hmem ⊢
    exact ⟨hmem, call, hcall, hstands⟩
  · rintro ⟨hmem, call, hcall, hstands⟩
    have hwanted := contains_normalizeSignatures.2 ⟨call, hcall, rfl⟩
    exact ⟨⟨k, contains_reconcileWanted.2 ⟨_, hwanted, hstands⟩,
      normalizeSignature_of_mem_declaredSignatures? hdeclared hmem⟩, hmem⟩

/-! ## Excerpt and pruned text -/

section
variable {r : Reconstruction} {wanted : Names} {declared : List String} {pruned : Java.Pruned}
  {c : ClassInfo} {k : String} (hdeclared : Java.declaredSignatures? r.source.toList = some declared)
  (hkeys : ∀ k, c.methods.contains k = true → k ∈ declared)
include hdeclared hkeys

/-- Pruning a text keeps the wanted methods of each class of the text. -/
theorem Resolver.contains_kept_of_prune? (h : Resolver.prune? r wanted = some pruned)
    (hk : (c.kept wanted).contains k = true) : pruned.kept.contains k = true := by
  obtain ⟨⟨call, hcall, rfl⟩, hmethod⟩ := ClassInfo.contains_kept.1 hk
  have hmem := hkeys _ hmethod
  refine (Resolver.contains_kept_prune? hdeclared h).2 ⟨hmem, call, hcall, ?_⟩
  rw [Overload.standIns_of_mem hmem]
  exact List.mem_singleton_self _

/-- It keeps no others just if all that stands in for wanted signatures are wanted methods of the class. -/
theorem Resolver.kept_eq_iff_of_prune? (h : Resolver.prune? r wanted = some pruned) :
    pruned.kept = c.kept wanted ↔ ∀ call, wanted.contains call = true →
      ∀ d ∈ Overload.standIns declared (normalizeSignature call), d ∈ declared →
        (c.kept wanted).contains d = true := by
  constructor
  · intro heq call hcall d hd hmem
    rw [← heq]
    exact (Resolver.contains_kept_prune? hdeclared h).2 ⟨hmem, call, hcall, hd⟩
  · intro hclosed
    refine Names.ext_contains fun k => ⟨fun hk => ?_, Resolver.contains_kept_of_prune? hdeclared hkeys h⟩
    obtain ⟨hmem, call, hcall, hstands⟩ := (Resolver.contains_kept_prune? hdeclared h).1 hk
    exact hclosed call hcall k hstands hmem

omit hdeclared in
/-- A wanted signature that the class declares stands for itself, and one for which no declared signature is
found stands for none. -/
theorem ClassInfo.contains_kept_of_mem_standIns {call d : String} (hcall : wanted.contains call = true)
    (hplain : c.methods.contains (normalizeSignature call) = true ∨
      Overload.Far 3 declared (normalizeSignature call))
    (hd : d ∈ Overload.standIns declared (normalizeSignature call)) (hmem : d ∈ declared) :
    (c.kept wanted).contains d = true := by
  rcases hplain with hmethod | hfar
  · rw [Overload.standIns_of_mem (hkeys _ hmethod), List.mem_singleton] at hd
    exact ClassInfo.contains_kept.2 ⟨⟨call, hcall, hd.symm⟩, hd ▸ hmethod⟩
  · exact absurd hfar ((Overload.mem_standIns_of_mem hmem).1 hd).not_far

end

namespace Overload

variable {p : Project} {target call : String} {ds : List String} {wanted : Names}

/-! ## Calls between reconciled classes -/

/-- A constructor or a method of some class calls methods of a class. -/
def HasEdge (p : Project) (target : String) (wanted : Names) : Prop :=
  ∃ name c, p.classes.get? name = some c ∧ (c.constructorCalls.get? target = some wanted ∨
    ∃ k m, c.methods.get? k = some m ∧ m.calls.get? target = some wanted)

/-- A call that is left between reconciled classes is declared, or it is not the case that just one
signature fits it. -/
theorem HasEdge.settled (h : HasEdge p.reconcile target wanted)
    (hds : catalogue p.classes target = some ds) (hcall : wanted.contains call = true) :
    declaredFor? call ds = none := by
  have hcalls {calls : Calls}
      (hget : (reconcileCalls (catalogue p.classes) calls).get? target = some wanted) :
      declaredFor? call ds = none := by
    rw [get?_reconcileCalls, hds] at hget
    obtain ⟨signatures, -, rfl⟩ := Option.map_eq_some_iff.1 hget
    obtain ⟨old, -, rfl⟩ := contains_settleAll.1 hcall
    exact declaredFor?_of_settle (settle_settle ds old)
  obtain ⟨name, c, hc, hedge⟩ := h
  obtain ⟨old, -, rfl⟩ := Option.map_eq_some_iff.1 (Dict.get?_map.symm.trans hc)
  rcases hedge with hconstructor | ⟨k, m, hm, hmethod⟩
  · exact hcalls hconstructor
  · obtain ⟨oldMethod, -, rfl⟩ := Option.map_eq_some_iff.1 (Dict.get?_map.symm.trans hm)
    exact hcalls hmethod

theorem matching_ne_singleton {d : String} (h : declaredFor? call ds = none) (hcall : call ∉ ds) :
    matching call ds ≠ [d] := by
  intro hmatching
  rw [declaredFor?, if_neg (mt List.contains_iff_mem.1 hcall), hmatching] at h
  cases h

/-- The catalogue of a project knows the methods of a class under its full name. -/
theorem catalogue_of_class? {c : ClassInfo} (htarget : p.classes.contains target = true)
    (hclass : p.reconcile.class? target = some c) :
    catalogue p.classes target = some c.methods.keys := by
  obtain ⟨old, hold⟩ := Option.isSome_iff_exists.1 htarget
  have hget : p.reconcile.classes.get? target = some (reconcileClass (catalogue p.classes) old) := by
    rw [Project.reconcile, reconcileClasses_eq, Dict.get?_map, hold]
    rfl
  rw [Project.class?, hget] at hclass
  cases hclass
  rw [catalogue, hold]
  exact congrArg some Dict.keys_map.symm

/-- **Source or compiled.** Take a class of a project that is read from a text, and a call edge to it.
Whatever the excerpt of the class keeps, pruning the text keeps as well. Both keep the same methods just if
pruning succeeds and the declared signatures that stand in for wanted ones are wanted methods of the class.
That is so if every wanted signature is a method of the class or has a name and a number of parameters that
the text does not declare. An edge under the full name of the class has no other calls but those which fit
no method of the class or several. -/
theorem kept_prune?_eq_iff {r : Reconstruction} {classes : List ClassInfo} {b : ClassInfo}
    (hsource : Java.indexSource? r.source.toList = some classes) (hb : b ∈ classes)
    (hclass : p.reconcile.class? target = some (reconcileClass (catalogue p.classes) b))
    (hedge : HasEdge p.reconcile target wanted) :
    let c := reconcileClass (catalogue p.classes) b
    ∃ declared, Java.declaredSignatures? r.source.toList = some declared ∧
      c.excerpt (c.kept wanted) = c.excerpt (normalizeSignatures wanted) ∧
      (∀ pruned, Resolver.prune? r wanted = some pruned → ∀ k,
        (c.kept wanted).contains k = true → pruned.kept.contains k = true) ∧
      ((Resolver.prune? r wanted).map Java.Pruned.kept = some (c.kept wanted) ↔
        (Resolver.prune? r wanted).isSome = true ∧ ∀ call, wanted.contains call = true →
          ∀ d ∈ standIns declared (normalizeSignature call), d ∈ declared →
            (c.kept wanted).contains d = true) ∧
      ((Resolver.prune? r wanted).isSome = true → (∀ call, wanted.contains call = true →
          c.methods.contains (normalizeSignature call) = true ∨
            Far 3 declared (normalizeSignature call)) →
        (Resolver.prune? r wanted).map Java.Pruned.kept = some (c.kept wanted)) ∧
      (p.classes.contains target = true → ∀ call, wanted.contains call = true →
        c.methods.contains call = true ∨ ∀ d, matching call c.methods.keys ≠ [d]) := by
  intro c
  obtain ⟨declared, hdeclared, hdeclares⟩ := Java.declares_of_mem_indexSource? hsource hb
  have hkeys : ∀ k, c.methods.contains k = true → k ∈ declared := by
    intro k hk
    rw [Java.Index.contains_methods_reconcileClass] at hk
    exact hdeclares k hk
  have hagree : (Resolver.prune? r wanted).map Java.Pruned.kept = some (c.kept wanted) ↔
      (Resolver.prune? r wanted).isSome = true ∧ ∀ call, wanted.contains call = true →
        ∀ d ∈ standIns declared (normalizeSignature call), d ∈ declared →
          (c.kept wanted).contains d = true := by
    cases hpruned : Resolver.prune? r wanted with
    | none => simp
    | some pruned => simp [Resolver.kept_eq_iff_of_prune? hdeclared hkeys hpruned]
  refine ⟨declared, hdeclared, c.excerpt_kept wanted,
    fun pruned hpruned k => Resolver.contains_kept_of_prune? hdeclared hkeys hpruned, hagree,
    fun hsome hplain => hagree.2 ⟨hsome, fun call hcall d => ?_⟩, fun htarget call hcall => ?_⟩
  · exact ClassInfo.contains_kept_of_mem_standIns hkeys hcall (hplain call hcall)
  · by_cases hmethod : c.methods.contains call = true
    · exact .inl hmethod
    · have hds : catalogue p.classes target = some c.methods.keys :=
        catalogue_of_class? htarget hclass
      rw [← Dict.mem_keys] at hmethod
      exact .inr fun d => matching_ne_singleton (hedge.settled hds hcall) hmethod

namespace Booth

/-- A tax has a rate for a number and one for a text. -/
def text : String :=
  "class Tax \x7b int rate(int n) \x7b return n; \x7d int rate(String s) \x7b return 1; \x7d \x7d"

def methods : List MethodInfo := [
  { name := "rate", signature := "rate(int)", descriptor := "(I)I", brief := "int rate(int n);",
    source := "int rate(int n) \x7b return n; \x7d" },
  { name := "rate", signature := "rate(String)", descriptor := "(Ljava/lang/String;)I",
    brief := "int rate(String s);", source := "int rate(String s) \x7b return 1; \x7d" }]

def tax : ClassInfo :=
  methods.foldl ClassInfo.insertMethod { fullName := "Tax", name := "Tax", header := "class Tax" }

/-- The tax as it comes from a decompiler. -/
def decompiled : Reconstruction where
  className := "Tax"
  origin := "lib"
  source := text

theorem indexSource?_text : Java.indexSource? decompiled.source.toList = some [tax] := by
  decide +kernel

/-- A cart that asks for a rate. -/
def cart (call : String) : ClassInfo :=
  ({ fullName := "Cart", name := "Cart" } : ClassInfo).insertMethod
    { name := "total", signature := "total()", calls := .ofList [("Tax", .ofList [call])] }

def project (call : String) : Project := .ofList [cart call, tax]

theorem hasEdge_of_callsOfTotal {p : Project} {wanted : Names}
    (h : (Stall.callsOfTotal p.classes).bind (·.get? "Tax") = some wanted) : HasEdge p "Tax" wanted := by
  obtain ⟨calls, hcalls, hwanted⟩ := Option.bind_eq_some_iff.1 h
  obtain ⟨c, hc, hmethod⟩ := Option.bind_eq_some_iff.1 hcalls
  obtain ⟨m, hm, rfl⟩ := Option.map_eq_some_iff.1 hmethod
  exact ⟨"Cart", c, hc, .inr ⟨_, m, hm, hwanted⟩⟩

end Booth

open Booth in
/-- A call with a number for its argument is of one rate, and both keep that one. -/
theorem kept_prune?_eq_iff_rate : ∃ c, (project "rate(short)").reconcile.class? "Tax" = some c ∧
    (Resolver.prune? decompiled (.ofList ["rate(int)"])).map Java.Pruned.kept =
      some (c.kept (.ofList ["rate(int)"])) := by
  have hclass : (project "rate(short)").reconcile.class? "Tax" =
      some (reconcileClass (catalogue (project "rate(short)").classes) tax) := by
    decide +kernel
  have hedge : HasEdge (project "rate(short)").reconcile "Tax" (.ofList ["rate(int)"]) :=
    hasEdge_of_callsOfTotal (by decide +kernel)
  obtain ⟨_, -, -, -, -, hagree, -⟩ :=
    kept_prune?_eq_iff indexSource?_text (List.mem_singleton_self tax) hclass hedge
  refine ⟨_, hclass, hagree (by decide +kernel) fun call hcall => .inl ?_⟩
  rw [Names.contains_ofList, List.mem_singleton] at hcall
  subst hcall
  decide +kernel

open Booth in
/-- With an argument of unknown type the call may be of either rate. The excerpt of the class keeps none of
them, pruning its text keeps both. -/
theorem rates_left_out : Java.indexSource? decompiled.source.toList = some [tax] ∧
    HasEdge (project "rate(?)").reconcile "Tax" (.ofList ["rate(?)"]) ∧
    ((project "rate(?)").reconcile.class? "Tax").map (·.kept (.ofList ["rate(?)"])) = some ∅ ∧
    (Resolver.prune? decompiled (.ofList ["rate(?)"])).map Java.Pruned.kept =
      some (.ofList ["rate(String)", "rate(int)"]) := by
  refine ⟨indexSource?_text, hasEdge_of_callsOfTotal (by decide +kernel), ?_⟩
  decide +kernel

end Overload

end Testwright
