import Testwright.Settings.File

/-!
# Settings of a document

What a document says about a setting is read, and what it leaves out is as by default: the settings of a
document are those which have at the path of each setting the value that the document has there, or else the
default (`Settings.ofJson?_eq_some_iff`).
-/

namespace Testwright

namespace Json

/-- A way into a value: the names on it, each with the known names of the record that has it. -/
abbrev Path := List (List String × String)

variable {j r s d : Json} {known : List String} {name : String} {paths : List Path}

/-- The value that a record with some known names has under a name. -/
def member? (known : List String) (name : String) (j : Json) : Option Json :=
  (j.record? known).bind fun r => r.get? name

/-- The value at the end of a path. -/
def at? : Path → Json → Option Json
  | [], j => some j
  | (known, name) :: path, j => (j.member? known name).bind (at? path)

/-- The paths to the members of a record. -/
def leaves (known : List String) : List Path := known.map fun name => [(known, name)]

/-- The paths through a member of a record. -/
def inside (known : List String) (name : String) (paths : List Path) : List Path :=
  paths.map ((known, name) :: ·)

/-- A value has at the end of some paths what a second one has there, or a third one where the second has
nothing. -/
def Fills (paths : List Path) (s j d : Json) : Prop :=
  ∀ path ∈ paths, s.at? path = (j.at? path).or (d.at? path)

theorem member?_of_record? (h : j.record? known = some r) : j.member? known name = r.get? name := by
  rw [member?, h, Option.bind_some]

theorem fills_append {paths' : List Path} (h : Fills paths s j d) (h' : Fills paths' s j d) :
    Fills (paths ++ paths') s j d :=
  List.forall_mem_append.2 ⟨h, h'⟩

theorem fills_leaves (hr : j.record? known = some r)
    (h : ∀ name ∈ known, s.member? known name = (r.get? name).or (d.member? known name)) :
    Fills (leaves known) s j d := by
  intro path hpath
  obtain ⟨name, hname, rfl⟩ := List.mem_map.1 hpath
  simp only [at?, Option.bind_fun_some, member?_of_record? hr]
  exact h name hname

/-! ## Values that were read -/

section
variable {α : Type} {read : Json → Option α} {write : α → Json} {a default : α}

/-- The value of a member that was read, or the default. -/
theorem member?_of_optional? (hread : ∀ v a, read v = some a → write a = v)
    (h : r.optional? name default read = some a) (hs : s.member? known name = some (write a))
    (hd : d.member? known name = some (write default)) :
    s.member? known name = (r.get? name).or (d.member? known name) := by
  rw [hs, hd]
  rw [optional?] at h
  split at h
  · next v hv =>
    rw [hv, hread v a h]
    rfl
  · next hv =>
    cases h
    rw [hv]
    rfl

/-- A record within a record is that of the document, filled from the default, or the default. -/
theorem fills_inside (hr : j.record? known = some r)
    (hread : ∀ v a, read v = some a → Fills paths (write a) v (write default))
    (h : r.optional? name default read = some a) (hs : s.member? known name = some (write a))
    (hd : d.member? known name = some (write default)) : Fills (inside known name paths) s j d := by
  intro _ hinside
  obtain ⟨path, hpath, rfl⟩ := List.mem_map.1 hinside
  simp only [at?, hs, hd, member?_of_record? hr, Option.bind_some]
  rw [optional?] at h
  split at h
  · next v hv =>
    rw [hv]
    exact hread v a h path hpath
  · next hv =>
    cases h
    rw [hv]
    rfl

theorem member?_of_required? (hread : ∀ v a, read v = some a → write a = v)
    (h : r.required? name read = some a) (hs : s.member? known name = some (write a)) :
    s.member? known name = (r.get? name).or (d.member? known name) := by
  obtain ⟨v, hv, ha⟩ := Option.bind_eq_some_iff.1 h
  rw [hs, hv, hread v a ha]
  rfl

end

theorem ofNat_of_nat? (v : Json) (n : Nat) (h : v.nat? = some n) : ofNat n = v := by
  unfold nat? at h
  split at h
  · next i =>
    split at h
    · next hrange =>
      cases h
      rw [ofNat, Int.toNat_of_nonneg hrange.1]
    · cases h
  · cases h

theorem bool_of_bool? (v : Json) (b : Bool) (h : v.bool? = some b) : bool b = v := by
  cases v with
  | bool => cases h; rfl
  | _ => cases h

theorem str_of_str? (v : Json) (s : String) (h : v.str? = some s) : str s = v := by
  cases v with
  | str => cases h; rfl
  | _ => cases h

theorem text_of_str? (v : Json) (o : Option String) (h : v.str?.map some = some o) :
    ofOption str o = v := by
  obtain ⟨s, hs, rfl⟩ := Option.map_eq_some_iff.1 h
  exact str_of_str? v s hs

theorem strings_of_textList? (v : Json) (l : List String) (h : textList? v = some l) : strings l = v := by
  cases v with
  | arr xs =>
    have hmapM : xs.mapM str? = some l := h
    rw [strings, arr.injEq]
    induction xs generalizing l with
    | nil => cases hmapM; rfl
    | cons x xs ih =>
      rw [List.mapM_cons] at hmapM
      obtain ⟨s, hs, hrest⟩ := Option.bind_eq_some_iff.1 hmapM
      obtain ⟨l', hl', heq⟩ := Option.bind_eq_some_iff.1 hrest
      cases heq
      rw [List.map_cons, str_of_str? x s hs, ih l' hl' hl']
  | _ => cases h

/-! ## Values that were written -/

theorem ofNat_inj {m n : Nat} (h : some (ofNat m) = some (ofNat n)) : m = n := by
  rw [ofNat, ofNat, Option.some.injEq, int.injEq] at h
  exact Int.ofNat.inj h

theorem bool_inj {a b : Bool} (h : some (bool a) = some (bool b)) : a = b := by
  cases h
  rfl

theorem str_inj {a b : String} (h : some (str a) = some (str b)) : a = b := by
  cases h
  rfl

theorem text_inj {a b : Option String} (h : some (ofOption str a) = some (ofOption str b)) : a = b := by
  cases a <;> cases b <;> cases h <;> rfl

theorem strings_inj {l l' : List String} (h : some (strings l) = some (strings l')) : l = l' := by
  rw [strings, strings, Option.some.injEq, arr.injEq] at h
  exact (List.map_inj_right fun _ _ hstr => str.inj hstr).1 h

end Json

open Json

/-! ## Tables -/

namespace GenerationSettings

def names : List String :=
  ["max_rounds", "attempt_count", "stop_when_success", "enable_multithreading", "generate_report",
    "coverage", "enrich_from_diagnostics"]

def toJson (g : GenerationSettings) : Json := ({ generation := g } : Settings).toJson.get "generation"

theorem fills (j : Json) (g : GenerationSettings) (h : ofJson? j = some g) :
    Fills (leaves names) (toJson g) j (toJson {}) := by
  simp only [ofJson?, Option.bind_eq_bind, Option.bind_eq_some_iff, Option.some.injEq] at h
  obtain ⟨r, hr, _, h1, _, h2, _, h3, _, h4, _, h5, _, h6, _, h7, rfl⟩ := h
  refine fills_leaves hr ?_
  simp only [names, List.forall_mem_cons]
  exact ⟨member?_of_optional? ofNat_of_nat? h1 rfl rfl, member?_of_optional? ofNat_of_nat? h2 rfl rfl,
    member?_of_optional? bool_of_bool? h3 rfl rfl, member?_of_optional? bool_of_bool? h4 rfl rfl,
    member?_of_optional? bool_of_bool? h5 rfl rfl, member?_of_optional? bool_of_bool? h6 rfl rfl,
    member?_of_optional? bool_of_bool? h7 rfl rfl, nofun⟩

theorem eq_of_at? {g g' : GenerationSettings}
    (h : ∀ path ∈ leaves names, (toJson g).at? path = (toJson g').at? path) : g = g' := by
  simp only [leaves, names, List.map, List.forall_mem_cons] at h
  obtain ⟨h1, h2, h3, h4, h5, h6, h7, -⟩ := h
  cases g
  cases g'
  rw [mk.injEq]
  exact ⟨ofNat_inj h1, ofNat_inj h2, bool_inj h3, bool_inj h4, bool_inj h5, bool_inj h6, bool_inj h7⟩

end GenerationSettings

namespace ContextSettings

def names : List String := ["dependency_depth", "dependency_paths", "cache_decompiled"]

def toJson (c : ContextSettings) : Json := ({ context := c } : Settings).toJson.get "context"

theorem fills (j : Json) (c : ContextSettings) (h : ofJson? j = some c) :
    Fills (leaves names) (toJson c) j (toJson {}) := by
  simp only [ofJson?, Option.bind_eq_bind, Option.bind_eq_some_iff, Option.some.injEq] at h
  obtain ⟨r, hr, _, h1, _, h2, _, h3, rfl⟩ := h
  refine fills_leaves hr ?_
  simp only [names, List.forall_mem_cons]
  exact ⟨member?_of_optional? ofNat_of_nat? h1 rfl rfl,
    member?_of_optional? strings_of_textList? h2 rfl rfl, member?_of_optional? bool_of_bool? h3 rfl rfl,
    nofun⟩

theorem eq_of_at? {c c' : ContextSettings}
    (h : ∀ path ∈ leaves names, (toJson c).at? path = (toJson c').at? path) : c = c' := by
  simp only [leaves, names, List.map, List.forall_mem_cons] at h
  obtain ⟨h1, h2, h3, -⟩ := h
  cases c
  cases c'
  rw [mk.injEq]
  exact ⟨ofNat_inj h1, strings_inj h2, bool_inj h3⟩

end ContextSettings

theorem Measure.name_inj {m m' : Measure} (h : m.name = m'.name) : m = m' := by
  cases m <;> cases m' <;> first | rfl | exact absurd h (by decide)

namespace GatePolicy

def names : List String := ["kind", "threshold"]

def toGateJson (p : GatePolicy) : Json := ({ gate := p } : Settings).toJson.get "gate"

def toJson (p : GatePolicy) : Json := p.toGateJson.get "policy"

theorem fills (j : Json) (p : GatePolicy) (h : ofJson? j = some p) :
    Fills (leaves names) (toJson p) j (toJson {}) := by
  simp only [ofJson?, Option.bind_eq_bind, Option.bind_eq_some_iff, Option.some.injEq] at h
  obtain ⟨r, hr, kind, h1, measure, hmeasure, _, h2, rfl⟩ := h
  obtain rfl : measure.name = kind := by simpa using List.find?_some hmeasure
  refine fills_leaves hr ?_
  simp only [names, List.forall_mem_cons]
  exact ⟨member?_of_required? str_of_str? h1 rfl, member?_of_required? ofNat_of_nat? h2 rfl, nofun⟩

theorem eq_of_at? {p p' : GatePolicy}
    (h : ∀ path ∈ leaves names, (toJson p).at? path = (toJson p').at? path) : p = p' := by
  simp only [leaves, names, List.map, List.forall_mem_cons] at h
  obtain ⟨h1, h2, -⟩ := h
  cases p
  cases p'
  rw [mk.injEq]
  exact ⟨Measure.name_inj (str_inj h1), ofNat_inj h2⟩

theorem fills_gate (j : Json) (p : GatePolicy) (h : ofGateJson? j = some p) :
    Fills (inside ["policy"] "policy" (leaves names)) (toGateJson p) j (toGateJson {}) := by
  simp only [ofGateJson?, Option.bind_eq_bind, Option.bind_eq_some_iff] at h
  obtain ⟨r, hr, hp⟩ := h
  exact fills_inside hr fills hp rfl rfl

end GatePolicy

namespace DecompilerSettings

def names : List String := ["java", "cfr_jar"]

def toJson (d : DecompilerSettings) : Json := ({ decompiler := d } : Settings).toJson.get "decompiler"

theorem fills (j : Json) (d : DecompilerSettings) (h : ofJson? j = some d) :
    Fills (leaves names) (toJson d) j (toJson {}) := by
  simp only [ofJson?, Option.bind_eq_bind, Option.bind_eq_some_iff, Option.some.injEq] at h
  obtain ⟨r, hr, _, h1, _, h2, rfl⟩ := h
  refine fills_leaves hr ?_
  simp only [names, List.forall_mem_cons]
  exact ⟨member?_of_optional? str_of_str? h1 rfl rfl, member?_of_optional? text_of_str? h2 rfl rfl, nofun⟩

theorem eq_of_at? {d d' : DecompilerSettings}
    (h : ∀ path ∈ leaves names, (toJson d).at? path = (toJson d').at? path) : d = d' := by
  simp only [leaves, names, List.map, List.forall_mem_cons] at h
  obtain ⟨h1, h2, -⟩ := h
  cases d
  cases d'
  rw [mk.injEq]
  exact ⟨str_inj h1, text_inj h2⟩

end DecompilerSettings

namespace AuthorSettings

def names : List String := ["provider", "model", "base_url", "max_retries"]

def toJson (a : AuthorSettings) : Json := ({ author := a } : Settings).toJson.get "oracle"

theorem fills (j : Json) (a : AuthorSettings) (h : ofJson? j = some a) :
    Fills (leaves names) (toJson a) j (toJson {}) := by
  simp only [ofJson?, Option.bind_eq_bind, Option.bind_eq_some_iff, Option.some.injEq] at h
  obtain ⟨r, hr, _, h1, _, h2, _, h3, _, h4, rfl⟩ := h
  refine fills_leaves hr ?_
  simp only [names, List.forall_mem_cons]
  exact ⟨member?_of_optional? str_of_str? h1 rfl rfl, member?_of_optional? text_of_str? h2 rfl rfl,
    member?_of_optional? text_of_str? h3 rfl rfl, member?_of_optional? ofNat_of_nat? h4 rfl rfl, nofun⟩

theorem eq_of_at? {a a' : AuthorSettings}
    (h : ∀ path ∈ leaves names, (toJson a).at? path = (toJson a').at? path) : a = a' := by
  simp only [leaves, names, List.map, List.forall_mem_cons] at h
  obtain ⟨h1, h2, h3, h4, -⟩ := h
  cases a
  cases a'
  rw [mk.injEq]
  exact ⟨str_inj h1, text_inj h2, text_inj h3, ofNat_inj h4⟩

end AuthorSettings

namespace HarnessSettings

def names : List String :=
  ["classpath", "build_path", "source_roots", "work_dir", "javac", "java", "junit_launcher",
    "coverage_command"]

def toJson (h : HarnessSettings) : Json := ({ harness := h } : Settings).toJson.get "harness"

theorem fills (j : Json) (s : HarnessSettings) (h : ofJson? j = some s) :
    Fills (leaves names) (toJson s) j (toJson {}) := by
  simp only [ofJson?, Option.bind_eq_bind, Option.bind_eq_some_iff, Option.some.injEq] at h
  obtain ⟨r, hr, _, h1, _, h2, _, h3, _, h4, _, h5, _, h6, _, h7, _, h8, rfl⟩ := h
  refine fills_leaves hr ?_
  simp only [names, List.forall_mem_cons]
  exact ⟨member?_of_optional? strings_of_textList? h1 rfl rfl, member?_of_optional? str_of_str? h2 rfl rfl,
    member?_of_optional? strings_of_textList? h3 rfl rfl, member?_of_optional? str_of_str? h4 rfl rfl,
    member?_of_optional? str_of_str? h5 rfl rfl, member?_of_optional? str_of_str? h6 rfl rfl,
    member?_of_optional? text_of_str? h7 rfl rfl,
    member?_of_optional? strings_of_textList? h8 rfl rfl, nofun⟩

theorem eq_of_at? {s s' : HarnessSettings}
    (h : ∀ path ∈ leaves names, (toJson s).at? path = (toJson s').at? path) : s = s' := by
  simp only [leaves, names, List.map, List.forall_mem_cons] at h
  obtain ⟨h1, h2, h3, h4, h5, h6, h7, h8, -⟩ := h
  cases s
  cases s'
  rw [mk.injEq]
  exact ⟨strings_inj h1, str_inj h2, strings_inj h3, str_inj h4, str_inj h5, str_inj h6, text_inj h7,
    strings_inj h8⟩

end HarnessSettings

namespace Settings

def groups : List String := ["generation", "context", "gate", "decompiler", "oracle", "harness"]

/-- The paths to all settings. -/
def allPaths : List Path :=
  inside groups "generation" (leaves GenerationSettings.names) ++
  inside groups "context" (leaves ContextSettings.names) ++
  inside groups "gate" (inside ["policy"] "policy" (leaves GatePolicy.names)) ++
  inside groups "decompiler" (leaves DecompilerSettings.names) ++
  inside groups "oracle" (leaves AuthorSettings.names) ++
  inside groups "harness" (leaves HarnessSettings.names)

/-- The settings of a document are what it says about each, or the default. -/
theorem fills_of_ofJson? (j : Json) (s : Settings) (h : ofJson? j = some s) :
    Fills allPaths (toJson s) j (toJson {}) := by
  simp only [ofJson?, Option.bind_eq_bind, Option.bind_eq_some_iff, Option.some.injEq] at h
  obtain ⟨r, hr, _, h1, _, h2, _, h3, _, h4, _, h5, _, h6, rfl⟩ := h
  refine fills_append (fills_append (fills_append (fills_append (fills_append ?_ ?_) ?_) ?_) ?_) ?_
  · exact fills_inside hr GenerationSettings.fills h1 rfl rfl
  · exact fills_inside hr ContextSettings.fills h2 rfl rfl
  · exact fills_inside hr GatePolicy.fills_gate h3 rfl rfl
  · exact fills_inside hr DecompilerSettings.fills h4 rfl rfl
  · exact fills_inside hr AuthorSettings.fills h5 rfl rfl
  · exact fills_inside hr HarnessSettings.fills h6 rfl rfl

/-- Settings are told by their values at all paths. -/
theorem eq_of_at? {s s' : Settings} (h : ∀ path ∈ allPaths, s.toJson.at? path = s'.toJson.at? path) :
    s = s' := by
  simp only [allPaths, List.forall_mem_append] at h
  obtain ⟨⟨⟨⟨⟨h1, h2⟩, h3⟩, h4⟩, h5⟩, h6⟩ := h
  simp only [inside, List.forall_mem_map] at h1 h2 h3 h4 h5 h6
  cases s
  cases s'
  rw [mk.injEq]
  exact ⟨GenerationSettings.eq_of_at? h1, ContextSettings.eq_of_at? h2, GatePolicy.eq_of_at? h3,
    DecompilerSettings.eq_of_at? h4, AuthorSettings.eq_of_at? h5, HarnessSettings.eq_of_at? h6⟩

/-- The settings of a document that holds settings are those which have at every path what it has there, or
the default. -/
theorem ofJson?_eq_some_iff {j : Json} {s : Settings} :
    ofJson? j = some s ↔ (ofJson? j).isSome = true ∧ Fills allPaths (toJson s) j (toJson {}) := by
  constructor
  · intro h
    exact ⟨by rw [h]; rfl, fills_of_ofJson? j s h⟩
  · rintro ⟨hsome, hfills⟩
    obtain ⟨s', hs'⟩ := Option.isSome_iff_exists.1 hsome
    rw [hs', eq_of_at? fun path hpath =>
      (fills_of_ofJson? j s' hs' path hpath).trans (hfills path hpath).symm]

end Settings

end Testwright
