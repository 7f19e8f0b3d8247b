import Testwright.Proofs.Attempt.Consultation
import Testwright.Proofs.Text.Cutting

/-!
# Searching a path of locations

At a location a search for a class succeeds in one way (`Library.Gives`) and fails in six (`Library.Fails`), and
nothing else can happen (`sourceAt?_eq_some_iff`, `sourceAt?_eq_none_iff`). So a search ends at the first
location that does not fail (`scan_eq_some_iff`), it does not depend on what the decompiler makes of class
files behind it (`scan_congr`), and locations that fail may be put into the path or taken out of it
(`scan_reshaped`).

What a resolver answers is what the search gives, pruned to the wanted methods, whatever it was asked before
(`resolve_searched`).
-/

namespace Testwright

namespace Library

variable {decompile decompile' : Decompiler} {name : String} {location : Location}
  {locations locations' before after : List Location} {found : Reconstruction}

/-! ## One location -/

/-- A location holds a class file of which the decompiler makes a text that is not blank when cleaned. -/
def Gives (decompile : Decompiler) (name : String) (location : Location) (found : Reconstruction) : Prop :=
  ∃ file text, classFile? location name = some file ∧ decompile file = .ok text ∧
    (∃ c ∈ Java.sanitize text.toList, Text.isBlank c = false) ∧
    found = ⟨name, location.path, .ofList (Java.sanitize text.toList)⟩

/-- The ways in which a location fails for a class. -/
inductive Fails (decompile : Decompiler) (name : String) (location : Location) : Prop
  /-- It does not exist or cannot be opened. -/
  | unreadable {reason} (holding : location.holding = .unreadable reason)
  /-- It is a file, but no archive. -/
  | damaged {reason} (holding : location.holding = .damaged reason)
  /-- It is a directory without the class file. -/
  | noFile {files} (holding : location.holding = .directory files) (missing : classFile? location name = none)
  /-- It is an archive without the entry. -/
  | noEntry {entries} (holding : location.holding = .archive entries)
      (missing : classFile? location name = none)
  | error {file e} (holds : classFile? location name = some file) (failed : decompile file = .error e)
  /-- The text is blank, or nothing but blanks is left of it. -/
  | blank {file text} (holds : classFile? location name = some file) (done : decompile file = .ok text)
      (blank : ∀ c ∈ Java.sanitize text.toList, Text.isBlank c = true)

theorem decompileAt_of_classFile? {file : ClassFile} (h : classFile? location name = some file) :
    decompileAt decompile location name = decompile file := by
  unfold decompileAt
  split
  · next hholding => simp [classFile?, hholding] at h
  · next hholding => simp [classFile?, hholding] at h
  · rw [h]

theorem decompileAt_of_none (decompile : Decompiler) (h : classFile? location name = none) :
    ∃ e, decompileAt decompile location name = .error e := by
  unfold decompileAt
  split
  · exact ⟨_, rfl⟩
  · exact ⟨_, rfl⟩
  · rw [h]
    exact ⟨_, rfl⟩

theorem fails_of_none (h : classFile? location name = none) : Fails decompile name location := by
  cases hholding : location.holding with
  | directory files => exact .noFile hholding h
  | archive entries => exact .noEntry hholding h
  | damaged reason => exact .damaged hholding
  | unreadable reason => exact .unreadable hholding

theorem sourceAt?_of_classFile? {file : ClassFile} (h : classFile? location name = some file) :
    sourceAt? decompile name location =
      match decompile file with
      | .error _ => none
      | .ok text =>
        if (Text.trim (Java.sanitize text.toList)).isEmpty then none
        else some ⟨name, location.path, .ofList (Java.sanitize text.toList)⟩ := by
  have hdecompiled : decompileAt decompile location name = decompile file := decompileAt_of_classFile? h
  cases hfile : decompile file <;> simp only [sourceAt?, hdecompiled, hfile]

theorem sourceAt?_of_none (h : classFile? location name = none) :
    sourceAt? decompile name location = none := by
  obtain ⟨e, he⟩ := decompileAt_of_none decompile h
  rw [sourceAt?, he]

theorem sourceAt?_eq_some_iff : sourceAt? decompile name location = some found ↔ Gives decompile name location found := by
  constructor
  · intro h
    cases hfile : classFile? location name with
    | none => simp [sourceAt?_of_none hfile] at h
    | some file =>
      rw [sourceAt?_of_classFile? hfile] at h
      cases hdone : decompile file with
      | error e => simp [hdone] at h
      | ok text =>
        simp only [hdone] at h
        split at h
        · cases h
        · next hfilled =>
          cases h
          rw [Text.isEmpty_trim] at hfilled
          exact ⟨file, text, hfile, hdone, by simpa using hfilled, rfl⟩
  · rintro ⟨file, text, hfile, hdone, ⟨c, hc, hblank⟩, rfl⟩
    rw [sourceAt?_of_classFile? hfile, hdone]
    refine if_neg fun hempty => ?_
    have := Text.isEmpty_trim.1 hempty c hc
    simp [hblank] at this

theorem sourceAt?_eq_none_iff : sourceAt? decompile name location = none ↔ Fails decompile name location := by
  constructor
  · intro h
    cases hfile : classFile? location name with
    | none => exact fails_of_none hfile
    | some file =>
      rw [sourceAt?_of_classFile? hfile] at h
      cases hdone : decompile file with
      | error e => exact .error hfile hdone
      | ok text =>
        simp only [hdone] at h
        split at h
        · next hblank => exact .blank hfile hdone (Text.isEmpty_trim.1 hblank)
        · cases h
  · intro h
    cases h with
    | unreadable holding => exact sourceAt?_of_none (by simp [classFile?, holding])
    | damaged holding => exact sourceAt?_of_none (by simp [classFile?, holding])
    | noFile _ missing => exact sourceAt?_of_none missing
    | noEntry _ missing => exact sourceAt?_of_none missing
    | error holds failed => rw [sourceAt?_of_classFile? holds, failed]
    | blank holds done blank =>
      rw [sourceAt?_of_classFile? holds, done]
      exact if_pos (Text.isEmpty_trim.2 blank)

/-- Only what becomes of the class file that a location holds matters there. -/
theorem sourceAt?_congr (h : ∀ file, classFile? location name = some file → decompile file = decompile' file) :
    sourceAt? decompile name location = sourceAt? decompile' name location := by
  cases hfile : classFile? location name with
  | none => rw [sourceAt?_of_none hfile, sourceAt?_of_none hfile]
  | some file => rw [sourceAt?_of_classFile? hfile, sourceAt?_of_classFile? hfile, h file hfile]

/-! ## A path of locations -/

/-- A location gives the class, and those before it fail. -/
structure Origin (decompile : Decompiler) (name : String) (before : List Location) (origin : Location)
    (found : Reconstruction) : Prop where
  fails : ∀ location ∈ before, Fails decompile name location
  gives : Gives decompile name origin found

theorem scan_eq_some_iff : scan decompile locations name = some found ↔
    ∃ before origin after, locations = before ++ origin :: after ∧ Origin decompile name before origin found := by
  rw [scan, List.findSome?_eq_some_iff]
  constructor
  · rintro ⟨before, origin, after, hsplit, horigin, hbefore⟩
    exact ⟨before, origin, after, hsplit,
      fun location h => sourceAt?_eq_none_iff.1 (hbefore location h), sourceAt?_eq_some_iff.1 horigin⟩
  · rintro ⟨before, origin, after, hsplit, h⟩
    exact ⟨before, origin, after, hsplit, sourceAt?_eq_some_iff.2 h.gives,
      fun location hmem => sourceAt?_eq_none_iff.2 (h.fails location hmem)⟩

theorem scan_eq_none_iff :
    scan decompile locations name = none ↔ ∀ location ∈ locations, Fails decompile name location := by
  simp only [scan, List.findSome?_eq_none_iff, sourceAt?_eq_none_iff]

/-- A search looks at nothing behind the location that gives the class. -/
theorem visited_of_origin (h : Origin decompile name before location found) :
    visited decompile name (before ++ location :: after) = before ++ [location] := by
  induction before with
  | nil => simp [visited, sourceAt?_eq_some_iff.2 h.gives]
  | cons l before ih =>
    obtain ⟨hl, hbefore⟩ := List.forall_mem_cons.1 h.fails
    simp [visited, sourceAt?_eq_none_iff.2 hl, ih ⟨hbefore, h.gives⟩]

theorem visited_of_fails (h : ∀ location ∈ locations, Fails decompile name location) :
    visited decompile name locations = locations := by
  induction locations with
  | nil => rfl
  | cons l locations ih =>
    obtain ⟨hl, hlocations⟩ := List.forall_mem_cons.1 h
    simp [visited, sourceAt?_eq_none_iff.2 hl, ih hlocations]

/-- A search depends on the decompiler at the locations that it looks at only. -/
theorem scan_congr (h : ∀ location ∈ visited decompile name locations, ∀ file,
      classFile? location name = some file → decompile file = decompile' file) :
    scan decompile locations name = scan decompile' locations name := by
  induction locations with
  | nil => rfl
  | cons l locations ih =>
    rw [visited] at h
    cases hl : sourceAt? decompile name l with
    | some found =>
      rw [hl, Option.isSome_some, if_pos rfl, List.forall_mem_singleton] at h
      have hl' := sourceAt?_congr h
      rw [hl] at hl'
      simp [scan, hl, ← hl']
    | none =>
      rw [hl, Option.isSome_none, if_neg Bool.false_ne_true, List.forall_mem_cons] at h
      have hl' := sourceAt?_congr h.1
      rw [hl] at hl'
      simpa [scan, hl, ← hl'] using ih h.2

/-- One path becomes another by putting in and taking out locations that fail for a class. -/
inductive Reshaped (decompile : Decompiler) (name : String) : List Location → List Location → Prop
  | nil : Reshaped decompile name [] []
  | keep {locations locations' : List Location} (location : Location) (rest : Reshaped decompile name locations locations') :
      Reshaped decompile name (location :: locations) (location :: locations')
  | insert {location : Location} {locations locations' : List Location} (fails : Fails decompile name location)
      (rest : Reshaped decompile name locations locations') :
      Reshaped decompile name locations (location :: locations')
  | remove {location : Location} {locations locations' : List Location} (fails : Fails decompile name location)
      (rest : Reshaped decompile name locations locations') :
      Reshaped decompile name (location :: locations) locations'

theorem scan_reshaped (h : Reshaped decompile name locations locations') :
    scan decompile locations name = scan decompile locations' name := by
  induction h with
  | nil => rfl
  | keep location _ ih =>
    simp only [scan] at ih
    simp only [scan, List.findSome?_cons, ih]
  | insert fails _ ih => simpa [scan, sourceAt?_eq_none_iff.2 fails] using ih
  | remove fails _ ih => simpa [scan, sourceAt?_eq_none_iff.2 fails] using ih

/-- A path may lose all locations that fail at once. -/
theorem reshaped_filter (p : Location → Bool) (h : ∀ location ∈ locations, p location = false →
      Fails decompile name location) : Reshaped decompile name locations (locations.filter p) := by
  induction locations with
  | nil => exact .nil
  | cons l locations ih =>
    obtain ⟨hl, hlocations⟩ := List.forall_mem_cons.1 h
    cases hp : p l with
    | true =>
      rw [List.filter_cons_of_pos hp]
      exact .keep l (ih hlocations)
    | false =>
      rw [List.filter_cons_of_neg (Bool.eq_false_iff.1 hp)]
      exact .remove (hl hp) (ih hlocations)

end Library

namespace Resolver

open Library

variable {r : Resolver} {p : Project} {name : String} {wanted : Names}

theorem answer_eq_notApplicable_iff : r.answer p name wanted = .notApplicable ↔ (p.class? name).isSome = true := by
  unfold answer conclude
  split
  · next h => exact iff_of_true rfl h
  · next h =>
    refine iff_of_false ?_ h
    split
    · nofun
    · split <;> nofun

theorem answer_eq_found_iff {found : Reconstruction} {pruned : Java.Pruned} :
    r.answer p name wanted = .found found pruned ↔
      (p.class? name).isSome = false ∧ r.scan name = some found ∧ prune? found wanted = some pruned := by
  unfold answer conclude
  cases p.class? name with
  | some c => simp
  | none =>
    cases r.scan name with
    | none => simp
    | some reconstruction =>
      cases hpruned : prune? reconstruction wanted with
      | none =>
        simp only [Option.isSome_none, Bool.false_eq_true, if_false, hpruned, true_and]
        refine iff_of_false nofun ?_
        rintro ⟨hfound, h⟩
        cases hfound
        simp [hpruned] at h
      | some pruned' =>
        simp only [Option.isSome_none, Bool.false_eq_true, if_false, hpruned, true_and]
        constructor
        · intro h
          cases h
          exact ⟨rfl, hpruned⟩
        · rintro ⟨hfound, h⟩
          cases hfound
          rw [Option.some.inj (hpruned.symm.trans h)]

theorem answer_eq_notFound_iff :
    r.answer p name wanted = .notFound ↔ (p.class? name).isSome = false ∧ r.scan name = none := by
  unfold answer conclude
  cases p.class? name with
  | some c => simp
  | none =>
    cases r.scan name with
    | none => simp
    | some reconstruction => cases hpruned : prune? reconstruction wanted <;> simp [hpruned]

theorem answer_eq_unusable_iff :
    r.answer p name wanted = .unusable ↔
      (p.class? name).isSome = false ∧ ∃ found, r.scan name = some found ∧ prune? found wanted = none := by
  unfold answer conclude
  cases p.class? name with
  | some c => simp
  | none =>
    cases r.scan name with
    | none => simp
    | some reconstruction => cases hpruned : prune? reconstruction wanted <;> simp [hpruned]

/-- A search is paid for with the runs of the decompiler at the locations that it looks at, a stored result with
none. -/
theorem decompiled_reconstruct (decompile : Decompiler) (locations : List Location) (caching : Bool) (name : String)
    (cache : Cache) :
    let r : Resolver := ⟨locations, some decompile, caching⟩
    r.decompiled (r.reconstruct name cache).2 ≤
      r.decompiled cache + (visited decompile name locations).countP fun l => (classFile? l name).isSome := by
  intro r
  have hnote : r.decompiled (cache.note name) = r.decompiled cache + decompilations decompile locations name := by
    have hfold (names : List String) (k : Nat) :
        names.foldl (fun n name => n + decompilations decompile locations name) k =
          names.foldl (fun n name => n + decompilations decompile locations name) 0 + k := by
      induction names generalizing k with
      | nil => exact (Nat.zero_add k).symm
      | cons first names ih =>
        rw [List.foldl_cons, List.foldl_cons, ih, ih (0 + _), Nat.add_assoc, Nat.zero_add, Nat.add_comm k]
    simp only [decompiled, r, Cache.note, List.foldl_cons, Nat.zero_add]
    exact hfold _ _
  have hstored (found : Option Reconstruction) (c : Cache) :
      r.decompiled (c.store name found).2 = r.decompiled c := by
    simp only [decompiled, Cache.scanned_store]
  rw [← decompilations]
  unfold reconstruct
  split
  · cases cache.read name with
    | some stored => exact Nat.le_add_right _ _
    | none => exact Nat.le_of_eq ((hstored _ _).trans hnote)
  · exact Nat.le_of_eq hnote

/-- What a resolver gives for a class, in terms of its path. -/
structure Searched (decompile : Decompiler) (r : Resolver) (p : Project) (name : String) (wanted : Names)
    (cache : Cache) : Prop where
  given_iff : ∀ found, (r.reconstruct name cache).1 = some found ↔
    ∃ before origin after, r.locations = before ++ origin :: after ∧ Origin decompile name before origin found
  missing_iff :
    (r.reconstruct name cache).1 = none ↔ ∀ location ∈ r.locations, Fails decompile name location
  /-- The decompiler runs at locations up to the origin only, -/
  runs : r.decompiled (r.reconstruct name cache).2 ≤
    r.decompiled cache + (visited decompile name r.locations).countP fun l => (classFile? l name).isSome
  visited_eq : ∀ before origin after found, r.locations = before ++ origin :: after →
    Origin decompile name before origin found → visited decompile name r.locations = before ++ [origin]
  /-- and what it makes of other class files does not matter. -/
  local_visited : ∀ decompile' : Decompiler,
    (∀ location ∈ visited decompile name r.locations, ∀ file,
      classFile? location name = some file → decompile file = decompile' file) →
    Library.scan decompile' r.locations name = (r.reconstruct name cache).1
  notApplicable_iff : (r.resolve p name wanted cache).1 = .notApplicable ↔ (p.class? name).isSome = true
  found_iff : ∀ found pruned, (r.resolve p name wanted cache).1 = .found found pruned ↔
    (p.class? name).isSome = false ∧ (r.reconstruct name cache).1 = some found ∧ prune? found wanted = some pruned
  unusable_iff : (r.resolve p name wanted cache).1 = .unusable ↔ (p.class? name).isSome = false ∧
    ∃ found, (r.reconstruct name cache).1 = some found ∧ prune? found wanted = none
  notFound_iff : (r.resolve p name wanted cache).1 = .notFound ↔
    (p.class? name).isSome = false ∧ (r.reconstruct name cache).1 = none
  /-- Locations that fail may be put in or taken out, whatever the other resolver was asked before. -/
  reshaped : ∀ (r' : Resolver) client n, r'.decompiler = some decompile →
    Reshaped decompile name r.locations r'.locations →
    (r'.reconstruct name (r'.consult client n).2).1 = (r.reconstruct name cache).1 ∧
      (r'.resolve p name wanted (r'.consult client n).2).1 = (r.resolve p name wanted cache).1

theorem resolve_searched (decompile : Decompiler) (locations : List Location) (caching : Bool)
    (client : Transcript → Request) (n : Nat) (p : Project) (name : String) (wanted : Names) :
    let r : Resolver := ⟨locations, some decompile, caching⟩
    r.Searched decompile p name wanted (r.consult client n).2 := by
  intro r
  have hcoherent := (consult_spec r client n).2.coherent
  have hscan : r.scan name = Library.scan decompile locations name := rfl
  have hgiven := (reconstruct_of_coherent name hcoherent).1
  have hresolved := (resolve_of_coherent p name wanted hcoherent).1
  constructor
  case given_iff =>
    intro found
    rw [hgiven]
    exact scan_eq_some_iff
  case missing_iff =>
    rw [hgiven]
    exact scan_eq_none_iff
  case runs => exact decompiled_reconstruct decompile locations caching name _
  case visited_eq =>
    intro before origin after found hsplit horigin
    rw [hsplit]
    exact visited_of_origin horigin
  case local_visited =>
    intro decompile' h
    rw [hgiven]
    exact (scan_congr h).symm
  case notApplicable_iff =>
    rw [hresolved]
    exact answer_eq_notApplicable_iff
  case found_iff =>
    intro found pruned
    rw [hresolved, hgiven]
    exact answer_eq_found_iff
  case unusable_iff =>
    rw [hresolved, hgiven]
    exact answer_eq_unusable_iff
  case notFound_iff =>
    rw [hresolved, hgiven]
    exact answer_eq_notFound_iff
  case reshaped =>
    intro r' client' n' hdecompiler hreshaped
    have hcoherent' := (consult_spec r' client' n').2.coherent
    have hsame : r'.scan name = r.scan name := by
      rw [hscan, scan, hdecompiler]
      exact (scan_reshaped hreshaped).symm
    constructor
    · rw [(reconstruct_of_coherent name hcoherent').1, hgiven, hsame]
    · rw [(resolve_of_coherent p name wanted hcoherent').1, hresolved, answer, answer, hsame]

-- Three locations fail, the fourth gives the class.
example :
    let file : ClassFile := ⟨"A", []⟩
    let path : List Location := [⟨"gone", .unreadable "none"⟩, ⟨"text", .damaged "no archive"⟩, ⟨"dir", .directory ∅⟩,
      ⟨"jar", .archive (Dict.insert ∅ "A.class" file)⟩, ⟨"other", .archive (Dict.insert ∅ "A.class" file)⟩]
    let decompile : Decompiler := fun _ => .ok "class A {}"
    Library.scan decompile path "A" = some ⟨"A", "jar", "class A {}"⟩ ∧ decompilations decompile path "A" = 1 := by
  decide

end Resolver

end Testwright
