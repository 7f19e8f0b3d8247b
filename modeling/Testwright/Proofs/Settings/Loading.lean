import Mathlib.Logic.Function.Basic
import Testwright.Proofs.Disk.Writing
import Testwright.Proofs.Settings.Decoding
import Testwright.Workspace.Configuration

/-!
# Which settings hold

Settings come from a file, or are as by default without one (`Decodes`); then some of them are replaced by
variables of the environment that can be read (`Overlaid`); and only then they are checked (`Faulty`). So a
variable that cannot be read is as good as unset, and one that can may rescue a file and may break one
(`load_layers`).
-/

namespace Testwright.Settings

/-! ## Variables -/

/-- A text is a numeral of a number below `2 ^ 64`, possibly behind a plus sign. -/
def IsNumeral (text : String) (n : Nat) : Prop :=
  ∃ digits, (text.toList = digits ∨ text.toList = '+' :: digits) ∧ digits ≠ [] ∧
    (∀ c ∈ digits, c.isDigit = true) ∧ Nat.ofDigitChars 10 digits 0 = n ∧ n < 0x10000000000000000

def IsBoolean (text : String) (b : Bool) : Prop := text = if b then "true" else "false"

/-- A text lists some paths with colons between them. -/
structure IsPaths (text : String) (ps : List String) : Prop where
  text : text.toList = Text.join [':'] (ps.map String.toList)
  some : ps ≠ []
  apart : ∀ p ∈ ps, ':' ∉ p.toList

variable {text : String} {n : Nat} {b : Bool} {ps : List String}

theorem unsigned?_eq_some_iff {ds : List Char} :
    (if ds.isEmpty || !ds.all Char.isDigit then none
      else
        let n := ds.foldl (fun n c => n * 10 + (c.toNat - '0'.toNat)) 0
        if n < 0x10000000000000000 then some n else none) = some n ↔
      ds ≠ [] ∧ (∀ c ∈ ds, c.isDigit = true) ∧ Nat.ofDigitChars 10 ds 0 = n ∧ n < 0x10000000000000000 := by
  have hvalue : ds.foldl (fun n c => n * 10 + (c.toNat - '0'.toNat)) 0 = Nat.ofDigitChars 10 ds 0 := by
    simp only [Nat.ofDigitChars, Nat.mul_comm]
  have hpast : (ds.isEmpty || !ds.all Char.isDigit) = false ↔ ds ≠ [] ∧ ∀ c ∈ ds, c.isDigit = true := by
    rw [Bool.or_eq_false_iff, Bool.not_eq_false', List.all_eq_true, List.isEmpty_eq_false_iff]
  rw [← and_assoc, ← hpast, hvalue]
  split
  · next hfault => simp [hfault]
  · next hfault =>
    rw [← Bool.not_eq_true, and_iff_right hfault]
    simp only [Option.ite_none_right_eq_some, Option.some.injEq]
    constructor
    · rintro ⟨hlt, rfl⟩
      exact ⟨rfl, hlt⟩
    · rintro ⟨rfl, hlt⟩
      exact ⟨hlt, rfl⟩

theorem number?_eq_some_iff : number? text = some n ↔ IsNumeral text n := by
  rw [number?, unsigned?_eq_some_iff]
  constructor
  · intro h
    refine ⟨_, ?_, h⟩
    split
    · next hplus => exact .inr hplus
    · exact .inl rfl
  · rintro ⟨digits, htext | htext, hdigits⟩
    · split
      · next rest hplus =>
        rw [← htext, hplus] at hdigits
        exact absurd (hdigits.2.1 '+' List.mem_cons_self) (by decide)
      · rwa [htext]
    · rw [htext]
      exact hdigits

/-- The decimal digits of a number are a numeral of it. -/
theorem isNumeral_toString (h : n < 0x10000000000000000) : IsNumeral (toString n) n := by
  refine ⟨Nat.toDigits 10 n, .inl ?_, Nat.toDigits_ne_nil, fun c hc => ?_, ?_, h⟩
  · rw [Nat.toString_eq_ofList_toDigits, String.toList_ofList]
  · exact Nat.isDigit_of_mem_toDigits (by decide) (by decide) hc
  · exact Nat.ofDigitChars_ten_toDigits

theorem boolean?_eq_some_iff : boolean? text = some b ↔ IsBoolean text b := by
  unfold boolean? IsBoolean
  cases b <;> grind

theorem paths_eq_iff : paths text = ps ↔ IsPaths text ps := by
  constructor
  · rintro rfl
    have hchars : (paths text).map String.toList = Text.fields ':' text.toList := by
      rw [paths, List.map_map]
      exact List.map_id'' (fun _ => String.toList_ofList) _
    refine ⟨by rw [hchars, Text.fields_join], fun hnil => ?_, fun p hp => ?_⟩
    · exact Text.fields_ne_nil ':' text.toList (List.map_eq_nil_iff.1 hnil)
    · have hmem : p.toList ∈ Text.fields ':' text.toList := hchars ▸ List.mem_map_of_mem hp
      exact Text.not_mem_of_mem_fields hmem
  · rintro ⟨htext, hne, hapart⟩
    rw [paths, htext, Text.fields_join_of_not_mem (mt List.map_eq_nil_iff.1 hne), List.map_map]
    · exact List.map_id'' (fun _ => String.ofList_toList) _
    · simpa using hapart

/-! ## Layers -/

/-- A setting is what a variable reads as, or as it was if the variable is unset or cannot be read. -/
def Overridden {α : Type} (Reads : String → α → Prop) (value : Option String) (old new : α) : Prop :=
  (∃ t, value = some t ∧ Reads t new) ∨ (∀ t, value = some t → ∀ a, ¬Reads t a) ∧ new = old

section
variable {environment environment' : String → Option String} {file s : Settings} {e : SettingsError}
  {name : String}

theorem overridden_iff {α : Type} {read : String → Option α} {Reads : String → α → Prop}
    (hread : ∀ {t a}, read t = some a ↔ Reads t a) {old new : α} :
    Overridden Reads (environment name) old new ↔ new = override environment read name old := by
  unfold Overridden override
  cases hvalue : environment name with
  | none => simp
  | some t =>
    cases ha : read t with
    | none =>
      have hunread : ∀ a, ¬Reads t a := fun a h => by rw [← hread, ha] at h; cases h
      simp [ha, hunread]
    | some a =>
      have hreads (b : α) : Reads t b ↔ b = a := by rw [← hread, ha, Option.some.injEq, eq_comm]
      simp [ha, hreads]

/-- The settings of a file under the variables of an environment. -/
structure Overlaid (environment : String → Option String) (file s : Settings) : Prop where
  maxRounds : Overridden IsNumeral (environment "UNITSMITH_MAX_ROUNDS")
    file.generation.maxRounds s.generation.maxRounds
  attemptCount : Overridden IsNumeral (environment "UNITSMITH_ATTEMPTS")
    file.generation.attemptCount s.generation.attemptCount
  stopWhenSuccess : Overridden IsBoolean (environment "UNITSMITH_STOP_WHEN_SUCCESS")
    file.generation.stopWhenSuccess s.generation.stopWhenSuccess
  parallel : Overridden IsBoolean (environment "UNITSMITH_MULTITHREADING")
    file.generation.parallel s.generation.parallel
  dependencyDepth : Overridden IsNumeral (environment "UNITSMITH_DEPENDENCY_DEPTH")
    file.context.dependencyDepth s.context.dependencyDepth
  dependencyPaths : Overridden IsPaths (environment "UNITSMITH_DEPENDENCY_PATHS")
    file.context.dependencyPaths s.context.dependencyPaths
  /-- No other setting is touched. -/
  rest : s = { file with
    generation := { file.generation with
      maxRounds := s.generation.maxRounds
      attemptCount := s.generation.attemptCount
      stopWhenSuccess := s.generation.stopWhenSuccess
      parallel := s.generation.parallel }
    context := { file.context with
      dependencyDepth := s.context.dependencyDepth
      dependencyPaths := s.context.dependencyPaths } }

theorem isPaths_iff {t : String} {ps : List String} : some (paths t) = some ps ↔ IsPaths t ps := by
  rw [Option.some.injEq, paths_eq_iff]

theorem overlaid_iff : Overlaid environment file s ↔ s = file.withEnvironment environment := by
  constructor
  · rintro ⟨h1, h2, h3, h4, h5, h6, hrest⟩
    rw [overridden_iff number?_eq_some_iff] at h1 h2 h5
    rw [overridden_iff boolean?_eq_some_iff] at h3 h4
    rw [overridden_iff isPaths_iff] at h6
    rw [h1, h2, h3, h4, h5, h6] at hrest
    exact hrest
  · rintro rfl
    exact
      { maxRounds := (overridden_iff number?_eq_some_iff).2 rfl
        attemptCount := (overridden_iff number?_eq_some_iff).2 rfl
        stopWhenSuccess := (overridden_iff boolean?_eq_some_iff).2 rfl
        parallel := (overridden_iff boolean?_eq_some_iff).2 rfl
        dependencyDepth := (overridden_iff number?_eq_some_iff).2 rfl
        dependencyPaths := (overridden_iff isPaths_iff).2 rfl
        rest := rfl }

/-- What is wrong with settings, the first thing first. -/
inductive Faulty (s : Settings) : SettingsError → Prop where
  | noAttempts (h : s.generation.attemptCount = 0) : Faulty s .noAttempts
  | noThreshold (h : s.generation.attemptCount ≠ 0) (h' : s.gate.threshold = 0) :
      Faulty s (.noThreshold s.gate.measure)
  | tooManyRetries (h : s.generation.attemptCount ≠ 0) (h' : s.gate.threshold ≠ 0)
      (h'' : 10 < s.author.maxRetries) : Faulty s (.tooManyRetries s.author.maxRetries)

/-- Settings that a run can honour. -/
structure Sound (s : Settings) : Prop where
  attempts : s.generation.attemptCount ≠ 0
  threshold : s.gate.threshold ≠ 0
  retries : s.author.maxRetries ≤ 10

theorem fault?_eq_some_iff : s.fault? = some e ↔ Faulty s e := by
  constructor
  · intro h
    unfold fault? at h
    split at h
    · next hattempts =>
      cases h
      exact .noAttempts hattempts
    · next hattempts =>
      split at h
      · next hthreshold =>
        cases h
        exact .noThreshold hattempts hthreshold
      · next hthreshold =>
        split at h
        · next hretries =>
          cases h
          exact .tooManyRetries hattempts hthreshold hretries
        · cases h
  · intro h
    cases h with
    | noAttempts h => rw [fault?, if_pos h]
    | noThreshold h h' => rw [fault?, if_neg h, if_pos h']
    | tooManyRetries h h' h'' => rw [fault?, if_neg h, if_neg h', if_pos (by rwa [maxRetries])]

theorem fault?_eq_none_iff : s.fault? = none ↔ Sound s := by
  constructor
  · intro h
    have hsound (e : SettingsError) : ¬Faulty s e := by
      rw [← fault?_eq_some_iff, h]
      nofun
    have hattempts : s.generation.attemptCount ≠ 0 := fun h => hsound _ (.noAttempts h)
    have hthreshold : s.gate.threshold ≠ 0 := fun h => hsound _ (.noThreshold hattempts h)
    exact ⟨hattempts, hthreshold, Nat.not_lt.1 fun h => hsound _ (.tooManyRetries hattempts hthreshold h)⟩
  · rintro ⟨hattempts, hthreshold, hretries⟩
    rw [fault?, if_neg hattempts, if_neg hthreshold, if_neg (by rwa [maxRetries, Nat.not_lt])]

/-- The settings of a file: those by default without one, and those of its document, which are as by
default where that says nothing. -/
def Decodes : Option String → Settings → Prop
  | none, s => s = {}
  | some text, s => ∃ j, Toml.parse? text = some j ∧ (ofJson? j).isSome = true ∧
      Json.Fills allPaths s.toJson j (toJson {})

theorem ofFile_eq_ok_iff {text : Option String} : ofFile text = .ok s ↔ Decodes text s := by
  cases text with
  | none => exact ⟨fun h => (Except.ok.inj h).symm, fun h => congrArg Except.ok (Eq.symm h)⟩
  | some text =>
    have hdecodes : Decodes (some text) s ↔ (Toml.parse? text).bind ofJson? = some s := by
      rw [Option.bind_eq_some_iff]
      exact exists_congr fun j => and_congr_right fun _ => ofJson?_eq_some_iff.symm
    rw [hdecodes, ofFile]
    cases (Toml.parse? text).bind ofJson? <;> simp

theorem ofFile_eq_error_iff {text : Option String} :
    ofFile text = .error e ↔ e = .malformed ∧ ∀ s, ¬Decodes text s := by
  simp only [← ofFile_eq_ok_iff]
  cases text with
  | none => simp [ofFile]
  | some text =>
    rw [ofFile]
    cases (Toml.parse? text).bind ofJson? <;> simp [eq_comm]

theorem resolve_eq_ok_iff : resolve environment file = .ok s ↔ Overlaid environment file s ∧ Sound s := by
  rw [overlaid_iff, ← fault?_eq_none_iff, resolve]
  constructor
  · intro h
    split at h
    · cases h
    · next hnone =>
      cases h
      exact ⟨rfl, hnone⟩
  · rintro ⟨rfl, hnone⟩
    simp only [hnone]

theorem resolve_eq_error_iff :
    resolve environment file = .error e ↔ ∃ s, Overlaid environment file s ∧ Faulty s e := by
  simp only [overlaid_iff, exists_eq_left, ← fault?_eq_some_iff, resolve]
  split
  · next e' he' => simp [he', eq_comm]
  · next hnone => simp [hnone]

/-! ## Environments -/

def numberVariables : List String :=
  ["UNITSMITH_MAX_ROUNDS", "UNITSMITH_ATTEMPTS", "UNITSMITH_DEPENDENCY_DEPTH"]

def booleanVariables : List String := ["UNITSMITH_STOP_WHEN_SUCCESS", "UNITSMITH_MULTITHREADING"]

/-- Environments whose variables read alike are the same for settings. -/
theorem load_congr {text : Option String}
    (hnumber : ∀ v ∈ numberVariables, (environment v).bind number? = (environment' v).bind number?)
    (hboolean : ∀ v ∈ booleanVariables, (environment v).bind boolean? = (environment' v).bind boolean?)
    (hpaths : environment "UNITSMITH_DEPENDENCY_PATHS" = environment' "UNITSMITH_DEPENDENCY_PATHS") :
    load environment text = load environment' text := by
  simp only [numberVariables, booleanVariables, List.forall_mem_cons] at hnumber hboolean
  have hoverlay (file : Settings) :
      file.withEnvironment environment = file.withEnvironment environment' := by
    simp only [withEnvironment, override, hnumber, hboolean, hpaths]
  unfold load resolve
  simp only [hoverlay]

theorem load_eq_ok_iff {text : Option String} : load environment text = .ok s ↔
    ∃ file, Decodes text file ∧ Overlaid environment file s ∧ Sound s := by
  simp only [← ofFile_eq_ok_iff, ← resolve_eq_ok_iff, load]
  cases ofFile text <;> simp

theorem load_eq_error_iff {text : Option String} : load environment text = .error e ↔
    (e = .malformed ∧ ∀ file, ¬Decodes text file) ∨
      ∃ file s, Decodes text file ∧ Overlaid environment file s ∧ Faulty s e := by
  rw [← ofFile_eq_error_iff]
  simp only [exists_and_left, ← resolve_eq_error_iff, ← ofFile_eq_ok_iff, load]
  cases ofFile text <;> simp

/-- A value of a variable that cannot be read is as good as none. -/
theorem load_unread {text : Option String} {t : String}
    (h : name ∈ numberVariables ∧ (∀ n, ¬IsNumeral t n) ∨ name ∈ booleanVariables ∧ ∀ b, ¬IsBoolean t b) :
    load (Function.update environment name (some t)) text =
      load (Function.update environment name none) text := by
  have alike {α : Type} {read : String → Option α} {v : String} (h : v = name → read t = none) :
      (Function.update environment name (some t) v).bind read =
        (Function.update environment name none v).bind read := by
    by_cases hv : v = name
    · subst hv
      simpa using h rfl
    · rw [Function.update_of_ne hv, Function.update_of_ne hv]
  have hapart : ∀ v ∈ numberVariables, v ∉ booleanVariables := by decide
  have hpath : "UNITSMITH_DEPENDENCY_PATHS" ∉ numberVariables ++ booleanVariables := by decide
  have hpaths : "UNITSMITH_DEPENDENCY_PATHS" ≠ name := by
    rintro rfl
    exact hpath (List.mem_append.2 (h.imp And.left And.left))
  refine load_congr (fun v hv => alike ?_) (fun v hv => alike ?_) ?_
  · rintro rfl
    obtain ⟨-, hunread⟩ := h.resolve_right fun h => hapart v hv h.1
    exact Option.eq_none_iff_forall_ne_some.2 fun n hn => hunread n (number?_eq_some_iff.1 hn)
  · rintro rfl
    obtain ⟨-, hunread⟩ := h.resolve_left fun h => hapart v h.1 hv
    exact Option.eq_none_iff_forall_ne_some.2 fun b hb => hunread b (boolean?_eq_some_iff.1 hb)
  · rw [Function.update_of_ne hpaths, Function.update_of_ne hpaths]

/-- No other variable matters. -/
theorem load_update_of_not_mem {text value : Option String} (hnumber : name ∉ numberVariables)
    (hboolean : name ∉ booleanVariables) (hpaths : name ≠ "UNITSMITH_DEPENDENCY_PATHS") :
    load (Function.update environment name value) text = load environment text := by
  refine load_congr (fun v hv => ?_) (fun v hv => ?_) (Function.update_of_ne hpaths.symm ..)
  · have hne : v ≠ name := fun heq => hnumber (heq ▸ hv)
    rw [Function.update_of_ne hne]
  · have hne : v ≠ name := fun heq => hboolean (heq ▸ hv)
    rw [Function.update_of_ne hne]

/-- A number of attempts in the environment decides whether there are any, whatever the file says. -/
theorem load_attempts {text : Option String} {t : String} (hfile : Decodes text file)
    (ht : IsNumeral t n) :
    (load (Function.update environment "UNITSMITH_ATTEMPTS" (some t)) text = .error .noAttempts ↔ n = 0) ∧
      ((∃ s, load (Function.update environment "UNITSMITH_ATTEMPTS" (some t)) text = .ok s) ↔
        n ≠ 0 ∧ file.gate.threshold ≠ 0 ∧ file.author.maxRetries ≤ 10) := by
  generalize henvironment : Function.update environment "UNITSMITH_ATTEMPTS" (some t) = environment'
  have hcount : (file.withEnvironment environment').generation.attemptCount = n := by
    subst henvironment
    simp [withEnvironment, override, number?_eq_some_iff.2 ht]
  have hload : load environment' text = resolve environment' file := by
    rw [load, ofFile_eq_ok_iff.2 hfile]
  constructor
  · rw [hload, resolve_eq_error_iff]
    simp only [overlaid_iff, exists_eq_left]
    constructor
    · intro hfaulty
      cases hfaulty with
      | noAttempts h => exact hcount.symm.trans h
    · intro hn
      exact .noAttempts (hcount.trans hn)
  · simp only [hload, resolve_eq_ok_iff, overlaid_iff, exists_eq_left]
    constructor
    · rintro ⟨hattempts, hthreshold, hretries⟩
      exact ⟨hcount ▸ hattempts, hthreshold, hretries⟩
    · rintro ⟨hn, hthreshold, hretries⟩
      exact ⟨hcount.symm ▸ hn, hthreshold, hretries⟩

/-! ## Loading -/

/-- The file of the settings in a workspace is some text, or is not there. -/
def Stored (d : Disk) (root : String) : Option String → Prop
  | some text => d.readText (Workspace.settingsFile root) = .ok text
  | none => d.isPresent (Workspace.settingsFile root) = false

theorem settings_eq {text : Option String} {d : Disk} {root : String} (h : Stored d root text) :
    Workspace.settings environment d root = load environment text := by
  cases text with
  | none =>
    have hmissing : d.isPresent (Workspace.settingsFile root) = false := h
    simp only [Workspace.settings, hmissing, Bool.false_eq_true, if_false]
  | some text =>
    have hread : d.readText (Workspace.settingsFile root) = .ok text := h
    simp only [Workspace.settings, Disk.isPresent_of_readText hread, if_true, hread]

/-- What there is to know about the settings that hold under an environment with some file or none. -/
structure Loads (environment : String → Option String) (text : Option String) : Prop where
  loaded : ∀ s, load environment text = .ok s ↔
    ∃ file, Decodes text file ∧ Overlaid environment file s ∧ Sound s
  refused : ∀ e, load environment text = .error e ↔
    (e = .malformed ∧ ∀ file, ¬Decodes text file) ∨
      ∃ file s, Decodes text file ∧ Overlaid environment file s ∧ Faulty s e
  unread : ∀ name t,
    name ∈ numberVariables ∧ (∀ n, ¬IsNumeral t n) ∨ name ∈ booleanVariables ∧ (∀ b, ¬IsBoolean t b) →
      load (Function.update environment name (some t)) text =
        load (Function.update environment name none) text
  others : ∀ name value, name ∉ numberVariables → name ∉ booleanVariables →
    name ≠ "UNITSMITH_DEPENDENCY_PATHS" →
      load (Function.update environment name value) text = load environment text
  /-- A number of attempts in the environment may rescue a file and may break one. -/
  attempts : ∀ file t n, Decodes text file → IsNumeral t n →
    (load (Function.update environment "UNITSMITH_ATTEMPTS" (some t)) text = .error .noAttempts ↔ n = 0) ∧
      ((∃ s, load (Function.update environment "UNITSMITH_ATTEMPTS" (some t)) text = .ok s) ↔
        n ≠ 0 ∧ file.gate.threshold ≠ 0 ∧ file.author.maxRetries ≤ 10)
  workspace : ∀ d root, Stored d root text → Workspace.settings environment d root = load environment text

theorem loads (environment : String → Option String) (text : Option String) : Loads environment text where
  loaded _ := load_eq_ok_iff
  refused _ := load_eq_error_iff
  unread _ _ := load_unread
  others _ _ := load_update_of_not_mem
  attempts _ _ _ := load_attempts
  workspace _ _ := settings_eq

/-- A document that asks for no attempts. -/
theorem ofFile_noAttempts : ofFile (some "[generation]\nattempt_count = 0\n") =
    .ok { generation := { attemptCount := 0 } } := by
  have hparse : (Toml.parse? "[generation]\nattempt_count = 0\n").bind ofJson? =
      some { generation := { attemptCount := 0 } } := by decide +kernel
  rw [ofFile, hparse]

end

/-- **Which settings hold.** They are those of the file, or by default, with the variables that can be read in
their places, if nothing is wrong with these; and a variable rescues a file that is refused without it and
breaks one that is not. -/
theorem load_layers (environment : String → Option String) (text : Option String) :
    Loads environment text ∧
    (∃ text t s, load (fun _ => none) text = .error .noAttempts ∧
      load (Function.update (fun _ => none) "UNITSMITH_ATTEMPTS" (some t)) text = .ok s) ∧
    ∃ text t s, load (fun _ => none) text = .ok s ∧
      load (Function.update (fun _ => none) "UNITSMITH_ATTEMPTS" (some t)) text = .error .noAttempts := by
  refine ⟨loads environment text, ?_, ?_⟩
  · have hfile := ofFile_eq_ok_iff.1 ofFile_noAttempts
    have hone : IsNumeral (toString 1) 1 := isNumeral_toString (by decide)
    obtain ⟨s, hs⟩ := (load_attempts hfile hone).2.2 ⟨by decide, by decide, by decide⟩
    exact ⟨_, toString 1, s, by rw [load, ofFile_noAttempts]; rfl, hs⟩
  · have hzero : IsNumeral (toString 0) 0 := isNumeral_toString (by decide)
    have hfile : Decodes none {} := rfl
    exact ⟨none, toString 0, {}, rfl, (load_attempts hfile hzero).1.2 rfl⟩

end Testwright.Settings
