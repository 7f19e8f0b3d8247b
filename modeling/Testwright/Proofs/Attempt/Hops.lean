import Testwright.Proofs.Attempt.DirectCalls

/-!
# Walks with more steps

The number of steps bounds how far calls are followed, but a class is followed only once, by the walk
that meets it first. A walk with more steps may meet a class on a longer way, with fewer steps left or
for other methods, and then what this class calls can be missing.

`Expands` says which classes a walk follows and how many steps it has left there. Whatever a walk files
it also follows (`expands_of_new`), along a chain of classes it follows (`Expands.parent`), and with a
step left it files all that a class calls (`Expands.known_of_leads`). So a dependency is lost with more
steps exactly where a class is overtaken (`assemble_keeps_iff`); `zone_lost` is such a project.
-/

namespace Testwright

namespace Assembly

variable {r : Resolver} {p : Project} {name : String} {wanted : Names} {calls : Calls}
  {st st' : Dossier × Cache} {n : Nat}

/-- A class whose calls a walk follows, with the number of steps left for them. -/
structure Expansion where
  name : String
  calls : Calls
  left : Nat

/-- Some calls lead to a class that can be had. -/
def Leads (r : Resolver) (p : Project) (calls : Calls) (name : String) : Prop :=
  ∃ wanted, (name, wanted) ∈ calls.edges ∧ (nextCalls? r p name wanted).isSome = true

/-- On its way along some calls a walk files a class that can be had. It goes on with the calls of this
class, for `n` further steps, in the state `st'`. -/
inductive Opens (p : Project) (resolve : Resolve Cache) (n : Nat) (calls : Calls)
    (st : Dossier × Cache) : String → Calls → Dossier × Cache → Prop
  | intro {before name wanted after next st'} (split : calls.edges = before ++ (name, wanted) :: after)
    (other : (before.foldl (followStep p resolve n) st).1.isTarget name = false)
    (filed : fileDependency p resolve .call name wanted
      (before.foldl (followStep p resolve n) st) = (some next, st')) :
    Opens p resolve n calls st name next st'

/-- A walk of at most `n` steps along some calls follows the calls of a class. -/
inductive Expands (p : Project) (resolve : Resolve Cache) :
    Nat → Calls → Dossier × Cache → Expansion → Prop
  | here {n calls st name next st'} (opens : Opens p resolve n calls st name next st') :
    Expands p resolve (n + 1) calls st ⟨name, next, n⟩
  | beyond {n calls st name next st' x} (opens : Opens p resolve n calls st name next st')
    (inner : Expands p resolve n next st' x) : Expands p resolve (n + 1) calls st x

/-! ## Steps of a walk -/

theorem hasDependency_filings {resolve : Resolve Cache} (h : Filings p resolve st st')
    (known : st.1.hasDependency name = true) : st'.1.hasDependency name = true :=
  (sameEntry_filings h known).hasDependency_eq.trans known

theorem isTarget_filings {resolve : Resolve Cache} (h : Filings p resolve st st') (k : String) :
    st'.1.isTarget k = st.1.isTarget k :=
  Dossier.isTarget_of_core (core_filings h) k

theorem filings_followSteps (resolve : Resolve Cache) (l : List (String × Names)) :
    Filings p resolve st (l.foldl (followStep p resolve n) st) :=
  filings_foldl (fun _ e _ => filings_followStep (filings_follow n) e) l rfl

/-- Where a class is filed that was not there before, the step that files it. -/
theorem exists_split_of_new {resolve : Resolve Cache} {l : List (String × Names)}
    (fresh : st.1.hasDependency name = false)
    (known : (l.foldl (followStep p resolve n) st).1.hasDependency name = true) :
    ∃ before e after, l = before ++ e :: after ∧
      (before.foldl (followStep p resolve n) st).1.hasDependency name = false ∧
      (followStep p resolve n (before.foldl (followStep p resolve n) st) e).1.hasDependency name =
        true := by
  induction l generalizing st with
  | nil => simp [fresh] at known
  | cons e l ih =>
    cases hnew : (followStep p resolve n st e).1.hasDependency name with
    | true => exact ⟨[], e, l, rfl, fresh, hnew⟩
    | false =>
      obtain ⟨before, e', after, rfl, h⟩ := ih hnew known
      exact ⟨e :: before, e', after, rfl, h⟩

/-- A walk comes by every class that some calls lead to. -/
theorem known_of_leads (hcache : st.2.Coherent r) (hleads : Leads r p calls name)
    (hother : st.1.isTarget name = false) :
    (follow p (r.resolve p) (n + 1) calls st).1.hasDependency name = true := by
  obtain ⟨wanted, hmem, hhad⟩ := hleads
  obtain ⟨before, after, hsplit⟩ := List.append_of_mem hmem
  rw [follow_succ, hsplit, List.foldl_append, List.foldl_cons]
  have hbefore : Filings p (r.resolve p) st (before.foldl (followStep p (r.resolve p) n) st) :=
    filings_followSteps (r.resolve p) before
  generalize before.foldl (followStep p (r.resolve p) n) st = mid at hbefore ⊢
  refine hasDependency_filings (filings_followSteps (r.resolve p) after) ?_
  cases known : mid.1.hasDependency name with
  | true => simp [followStep, known]
  | false =>
    have hstep : followStep p (r.resolve p) n mid (name, wanted) =
        visit p (r.resolve p) n mid (name, wanted) := by
      simp [followStep, known, isTarget_filings hbefore, hother]
    rw [hstep, visit]
    generalize hres : fileDependency p (r.resolve p) .call name wanted mid = res
    have hfiled := known_of_filed (coherent_filings hcache hbefore) (fileDependency_filed hres) hhad
    match res with
    | (none, st') => exact hfiled
    | (some next, st') => exact hasDependency_filings (filings_follow n next st') hfiled

/-! ## Classes that a walk follows -/

namespace Opens

variable {resolve : Resolve Cache} {next : Calls}

theorem filings (h : Opens p resolve n calls st name next st') : Filings p resolve st st' := by
  obtain @⟨before, name, wanted, after, next, st', split, other, filed⟩ := h
  have step : Filings p resolve (before.foldl (followStep p resolve n) st) _ :=
    filings_fileDependency .call wanted other
  rw [filed] at step
  exact (filings_followSteps resolve before).trans step

theorem filings_follow (h : Opens p resolve n calls st name next st') :
    Filings p resolve (follow p resolve n next st') (follow p resolve (n + 1) calls st) := by
  obtain @⟨before, name, wanted, after, _, _, split, other, filed⟩ := h
  rw [follow_succ, split, List.foldl_append, List.foldl_cons]
  generalize before.foldl (followStep p resolve n) st = mid at *
  have fresh : mid.1.hasDependency name = false := by
    refine Bool.eq_false_iff.2 fun known => ?_
    rw [fileDependency_of_known known] at filed
    cases filed
  have hstep : followStep p resolve n mid (name, wanted) = follow p resolve n next st' := by
    simp [followStep, other, fresh, visit, filed]
  rw [hstep]
  exact filings_followSteps resolve after

theorem fresh (h : Opens p resolve n calls st name next st') : st.1.hasDependency name = false := by
  obtain ⟨split, other, filed⟩ := h
  refine Bool.eq_false_iff.2 fun known => ?_
  rw [fileDependency_of_known (hasDependency_filings (filings_followSteps resolve _) known)] at filed
  cases filed

theorem known (h : Opens p resolve n calls st name next st') : st'.1.hasDependency name = true := by
  obtain @⟨before, name, wanted, after, next, st', split, other, filed⟩ := h
  generalize before.foldl (followStep p resolve n) st = mid at filed
  generalize hres : (some next, st') = res at filed
  cases fileDependency_filed filed with
  | present | unresolved => cases hres
  | own =>
    cases hres
    simp [hasDependency_fileOwn]
  | external =>
    cases hres
    simp [hasDependency_fileExternal]

theorem other (h : Opens p resolve n calls st name next st') : st.1.isTarget name = false := by
  obtain ⟨split, other, filed⟩ := h
  rwa [isTarget_filings (filings_followSteps resolve _)] at other

theorem leads (hcache : st.2.Coherent r) (h : Opens p (r.resolve p) n calls st name next st') :
    Leads r p calls name := by
  obtain @⟨before, name, wanted, after, next, st', split, other, filed⟩ := h
  have hnext := nextCalls?_of_filed (coherent_filings hcache (filings_followSteps _ before))
    (fileDependency_filed filed) rfl
  exact ⟨wanted, by simp [split], by simp [hnext]⟩

end Opens

namespace Expands

variable {resolve : Resolve Cache} {x : Expansion}

theorem left_lt (h : Expands p resolve n calls st x) : x.left < n := by
  induction h with
  | here => exact Nat.lt_succ_self _
  | beyond _ _ ih => exact Nat.lt_succ_of_lt ih

theorem fresh (h : Expands p resolve n calls st x) : st.1.hasDependency x.name = false := by
  induction h with
  | here opens => exact opens.fresh
  | beyond opens _ ih =>
    refine Bool.eq_false_iff.2 fun known => ?_
    rw [hasDependency_filings opens.filings known] at ih
    cases ih

theorem other (h : Expands p resolve n calls st x) : st.1.isTarget x.name = false := by
  induction h with
  | here opens => exact opens.other
  | beyond opens _ ih => rwa [isTarget_filings opens.filings] at ih

/-- A walk files every class that it follows. -/
theorem known (h : Expands p resolve n calls st x) :
    (follow p resolve n calls st).1.hasDependency x.name = true := by
  induction h with
  | here opens =>
    exact hasDependency_filings ((filings_follow _ _ _).trans opens.filings_follow) opens.known
  | beyond opens _ ih => exact hasDependency_filings opens.filings_follow ih

/-- A class that a walk follows is called where the walk begins or by another class that the walk
follows, with one more step left. -/
theorem parent (hcache : st.2.Coherent r) (h : Expands p (r.resolve p) n calls st x) :
    (Leads r p calls x.name ∧ x.left + 1 = n) ∨
      ∃ y, Expands p (r.resolve p) n calls st y ∧ x.left + 1 = y.left ∧ Leads r p y.calls x.name := by
  induction h with
  | here opens => exact .inl ⟨opens.leads hcache, rfl⟩
  | beyond opens inner ih =>
    rcases ih (coherent_filings hcache opens.filings) with ⟨hleads, hleft⟩ | ⟨y, hy, hleft, hleads⟩
    · exact .inr ⟨_, .here opens, hleft, hleads⟩
    · exact .inr ⟨y, .beyond opens hy, hleft, hleads⟩

/-- With a step left, a walk files all that a class calls. -/
theorem known_of_leads (hcache : st.2.Coherent r) (h : Expands p (r.resolve p) n calls st x)
    (hleft : 0 < x.left) (hleads : Leads r p x.calls name) (hother : st.1.isTarget name = false) :
    (follow p (r.resolve p) n calls st).1.hasDependency name = true := by
  induction h with
  | @here n calls st via next st' opens =>
    obtain ⟨n, rfl⟩ := Nat.exists_eq_succ_of_ne_zero (Nat.ne_of_gt hleft)
    refine hasDependency_filings opens.filings_follow ?_
    refine Assembly.known_of_leads (coherent_filings hcache opens.filings) hleads ?_
    rwa [isTarget_filings opens.filings]
  | beyond opens inner ih =>
    refine hasDependency_filings opens.filings_follow ?_
    refine ih (coherent_filings hcache opens.filings) hleft hleads ?_
    rwa [isTarget_filings opens.filings]

end Expands

theorem dossier_of_filed_none {resolve : Resolve Cache} {need : Need}
    (h : Filed p resolve need name wanted st (none, st')) : st'.1 = st.1 := by
  generalize hres : (none, st') = res at h
  cases h <;> cases hres <;> rfl

/-- A walk follows every class that it files. -/
theorem expands_of_new {resolve : Resolve Cache} (fresh : st.1.hasDependency name = false)
    (known : (follow p resolve n calls st).1.hasDependency name = true) :
    ∃ x, Expands p resolve n calls st x ∧ x.name = name := by
  induction n generalizing calls st with
  | zero => simp [follow, fresh] at known
  | succ n ih =>
    rw [follow_succ] at known
    obtain ⟨before, ⟨via, wanted⟩, after, hsplit, hfresh, hknown⟩ := exists_split_of_new fresh known
    cases hskip : (before.foldl (followStep p resolve n) st).1.isTarget via ||
        (before.foldl (followStep p resolve n) st).1.hasDependency via with
    | true => simp [followStep, hskip, hfresh] at hknown
    | false =>
      simp only [followStep, hskip, visit, Bool.false_eq_true, if_false] at hknown
      obtain ⟨hother, hvia⟩ := Bool.or_eq_false_iff.1 hskip
      generalize hres : fileDependency p resolve .call via wanted
        (before.foldl (followStep p resolve n) st) = res at hknown
      have filed := fileDependency_filed hres
      obtain ⟨found, st'⟩ := res
      cases found with
      | none =>
        have hsame : st'.1 = (before.foldl (followStep p resolve n) st).1 := dossier_of_filed_none filed
        simp [hsame, hfresh] at hknown
      | some next =>
        have opens : Opens p resolve n calls st via next st' := .intro hsplit hother hres
        cases hnew : st'.1.hasDependency name with
        | true =>
          refine ⟨_, .here opens, Decidable.byContradiction fun hne => ?_⟩
          have hsame := (sameEntry_filed filed hne).hasDependency_eq
          rw [hfresh, hnew] at hsame
          cases hsame
        | false =>
          obtain ⟨x, hx, hname⟩ := ih hnew hknown
          exact ⟨x, .beyond opens hx, hname⟩

/-! ## Two walks side by side -/

/-- A walk of `n'` steps follows a class with no step left, or for methods that do not call the class
`lost`, and does not file this one, but a walk of `n` steps finds it there. -/
structure Overtaken (r : Resolver) (p : Project) (n n' : Nat) (calls : Calls) (st : Dossier × Cache)
    (name lost : String) : Prop where
  followed : ∃ x, Expands p (r.resolve p) n calls st x ∧ x.name = name ∧ 0 < x.left ∧
    Leads r p x.calls lost
  overtaken : ∃ y, Expands p (r.resolve p) n' calls st y ∧ y.name = name ∧
    (y.left = 0 ∨ ¬Leads r p y.calls lost)
  filed : (follow p (r.resolve p) n calls st).1.hasDependency lost = true
  lost : (follow p (r.resolve p) n' calls st).1.hasDependency lost = false

/-- The walk with `n'` steps files a class that the one with `n` steps follows, unless a class is
overtaken. The induction goes up the chain of classes that call one another. -/
theorem known_or_overtaken (hcache : st.2.Coherent r) {n' : Nat} {x : Expansion}
    (h : Expands p (r.resolve p) n calls st x) :
    (follow p (r.resolve p) (n' + 1) calls st).1.hasDependency x.name = true ∨
      ∃ name lost, Overtaken r p n (n' + 1) calls st name lost := by
  generalize hsteps : n - x.left = steps
  induction steps generalizing x with
  | zero =>
    have := h.left_lt
    omega
  | succ steps ih =>
    rcases h.parent hcache with ⟨hleads, -⟩ | ⟨y, hy, hleft, hleads⟩
    · exact .inl (known_of_leads hcache hleads h.other)
    · rcases ih hy (by omega) with hknown | hovertaken
      · cases hx : (follow p (r.resolve p) (n' + 1) calls st).1.hasDependency x.name with
        | true => exact .inl rfl
        | false =>
          obtain ⟨z, hz, hname⟩ := expands_of_new hy.fresh hknown
          refine .inr ⟨y.name, x.name, ⟨y, hy, rfl, by omega, hleads⟩, ⟨z, hz, hname, ?_⟩, h.known, hx⟩
          refine (Nat.eq_zero_or_pos z.left).imp_right fun hpos hcalls => ?_
          rw [hz.known_of_leads hcache hpos hcalls h.other] at hx
          cases hx
      · exact .inr hovertaken

/-! ## Dossiers -/

variable {c : ClassInfo} {m : MethodInfo} {attempt : Nat}

/-- To file the calls of a method is a walk with one step more. -/
theorem foldl_fileCall_eq (resolve : Resolve Cache) (depth : Nat) (l : List (String × Names))
    (h : st.1.core = (Dossier.start c m attempt).core) :
    l.foldl (fileCall p resolve depth c) st = l.foldl (followStep p resolve depth) st := by
  induction l generalizing st with
  | nil => rfl
  | cons e l ih =>
    have hstep : fileCall p resolve depth c st e = followStep p resolve depth st e := by
      rw [fileCall_eq, followStep, Dossier.isTarget_of_core h, Dossier.isTarget_start]
      cases hnamed : c.isNamed e.1 with
      | true => simp
      | false =>
        cases hknown : st.1.hasDependency e.1 with
        | false => simp
        | true => simp [visit, fileDependency_of_known hknown]
    rw [List.foldl_cons, List.foldl_cons, ← hstep]
    exact ih ((core_filings (filings_fileCall h e)).trans h)

theorem hasDependency_assemble (r : Resolver) (depth : Nat) (cache : Cache) :
    (assemble p (r.resolve p) depth c m attempt cache).1.hasDependency name =
      (follow p (r.resolve p) (depth + 1) m.calls
        (beforeCalls p (r.resolve p) c m attempt cache)).1.hasDependency name := by
  rw [follow_succ, ← foldl_fileCall_eq _ depth _ core_beforeCalls]
  rfl

/-- **More steps.** Whatever a dossier holds that follows calls for `depth` steps, one that follows them
for `depth'` steps holds as well, if and only if no class is overtaken. With no steps none is. -/
theorem assemble_keeps_iff (r : Resolver) (p : Project) (depth depth' : Nat) (c : ClassInfo)
    (m : MethodInfo) (attempt : Nat) {cache : Cache} (hcache : cache.Coherent r) :
    let keeps (depth depth' : Nat) := ∀ name,
      (assemble p (r.resolve p) depth c m attempt cache).1.hasDependency name = true →
        (assemble p (r.resolve p) depth' c m attempt cache).1.hasDependency name = true
    (keeps depth depth' ↔ ∀ name lost, ¬Overtaken r p (depth + 1) (depth' + 1) m.calls
      (beforeCalls p (r.resolve p) c m attempt cache) name lost) ∧ keeps 0 depth' := by
  have hbefore : (beforeCalls p (r.resolve p) c m attempt cache).2.Coherent r :=
    coherent_beforeCalls hcache
  have keeps_of {depth : Nat} (hnone : ∀ name lost, ¬Overtaken r p (depth + 1) (depth' + 1) m.calls
      (beforeCalls p (r.resolve p) c m attempt cache) name lost) : ∀ name,
      (assemble p (r.resolve p) depth c m attempt cache).1.hasDependency name = true →
        (assemble p (r.resolve p) depth' c m attempt cache).1.hasDependency name = true := by
    intro name hknown
    rw [hasDependency_assemble] at hknown ⊢
    cases hold : (beforeCalls p (r.resolve p) c m attempt cache).1.hasDependency name with
    | true => exact hasDependency_filings (filings_follow _ _ _) hold
    | false =>
      obtain ⟨x, hx, rfl⟩ := expands_of_new hold hknown
      refine (known_or_overtaken hbefore hx).resolve_right ?_
      rintro ⟨name, lost, hovertaken⟩
      exact hnone name lost hovertaken
  refine ⟨⟨fun hkeeps name lost h => ?_, keeps_of⟩, keeps_of ?_⟩
  · have hlost := hkeeps lost
    rw [hasDependency_assemble, hasDependency_assemble, h.filed, h.lost] at hlost
    exact absurd (hlost rfl) (by simp)
  · rintro name lost ⟨⟨x, hx, -, hleft, -⟩, -, -, -⟩
    have := hx.left_lt
    omega

/-! ## A class met on a longer way -/

namespace Shop

/-- The log of a cart is written to a ledger, which knows the tax as well, and the tax knows a zone. -/
def market : Project := .ofList
  [cart, interface "Audit" [method "log" [("Ledger", ["write()"])]],
    interface "Ledger" [method "write" [("Tax", ["rate()"])]],
    interface "Tax" [method "rate" [("Zone", ["find()"])]], interface "Zone" [method "find" []]]

def marketDossier (depth : Nat) : Dossier :=
  (assemble market (Resolver.resolve {} market) depth cart total 0 {}).1

end Shop

open Shop in
/-- With two steps the walk from the log meets the tax in the end and follows it no further, so the zone
is lost that one step finds. -/
theorem zone_lost : ¬∀ name, (marketDossier 1).hasDependency name = true →
    (marketDossier 2).hasDependency name = true := by
  intro hkeeps
  have hzone := hkeeps "Zone" (by decide)
  exact absurd hzone (by decide)

open Shop in
/-- A class is overtaken there, but what is found without any step stays. -/
theorem assemble_keeps_iff_market :
    (∃ name lost, Overtaken {} market 2 3 total.calls
      (beforeCalls market (Resolver.resolve {} market) cart total 0 {}) name lost) ∧
    ∀ name, (marketDossier 0).hasDependency name = true →
      (marketDossier 2).hasDependency name = true := by
  have hboth := assemble_keeps_iff {} market 1 2 cart total 0 (Resolver.coherent_empty {})
  refine ⟨Classical.byContradiction fun hnone => ?_, hboth.2⟩
  have hkeeps := hboth.1.2 fun name lost h => hnone ⟨name, lost, h⟩
  have hzone := hkeeps "Zone" (by decide)
  exact absurd hzone (by decide)

end Assembly

end Testwright
