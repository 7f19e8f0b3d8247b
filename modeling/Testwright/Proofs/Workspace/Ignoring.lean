import Testwright.Proofs.Disk.Writing
import Testwright.Workspace.Store

/-!
# The ignore list, however often it is looked after

The entry of the workspace is appended to the ignore list of a project at most once, on a line of its own
(`IgnoreEntry.hasEntry_append`): the list it leaves has the entry, and a list that has it is left alone
(`Workspace.ensureIgnored_of_hasEntry`), so that all but the first of several times are idle.
-/

namespace Testwright

namespace IgnoreEntry

variable {list line : List Char}

/-- A list has the entry on a line of its own. -/
def HasEntry (list : List Char) : Prop :=
  ∃ line ∈ Text.lines list, Text.trim line = ".unitsmith".toList ∨ Text.trim line = ".unitsmith/".toList

theorem isListed_iff : isListed list = true ↔ HasEntry list := by
  simp only [isListed, List.any_eq_true, isEntry, Bool.or_eq_true, beq_iff_eq, HasEntry]
  rfl

theorem hasEntry_lines : HasEntry lines := ⟨".unitsmith/".toList, by decide, by decide⟩

/-- What is appended begins behind a line feed, so it does not touch the last line. -/
theorem exists_append_eq (list : List Char) : ∃ rest, append list = list ++ '\n' :: rest ∧
    ".unitsmith/".toList ∈ (Text.fields '\n' rest).map Text.trim := by
  unfold append
  split
  · exact ⟨lines, by rw [List.append_nil], by decide⟩
  · exact ⟨'\n' :: lines, by rw [List.append_assoc]; rfl, by decide⟩

theorem hasEntry_append (list : List Char) : HasEntry (append list) := by
  obtain ⟨rest, happend, hentry⟩ := exists_append_eq list
  have hmem : ".unitsmith/".toList ∈ (Text.lines (append list)).map Text.trim := by
    rw [Text.mem_map_trim_lines (by decide), happend, Text.fields_append, List.map_append]
    exact List.mem_append_right _ hentry
  obtain ⟨line, hline, htrim⟩ := List.mem_map.1 hmem
  exact ⟨line, hline, .inr htrim⟩

/-- A list holds an older one: that is its beginning, and every line of it that is not blank is a line
still, but for blanks at its ends. -/
structure Holds (list old : List Char) : Prop where
  front : old <+: list
  line : ∀ line ∈ Text.lines old, Text.trim line ≠ [] →
    ∃ line' ∈ Text.lines list, Text.trim line' = Text.trim line

theorem Holds.refl (list : List Char) : Holds list list where
  front := List.prefix_rfl
  line l hl _ := ⟨l, hl, rfl⟩

theorem holds_nil (list : List Char) : Holds list [] where
  front := List.nil_prefix
  line := nofun

theorem holds_append (list : List Char) : Holds (append list) list := by
  obtain ⟨rest, happend, -⟩ := exists_append_eq list
  refine ⟨⟨'\n' :: rest, happend.symm⟩, fun line hline hne => ?_⟩
  have hmem := (Text.mem_map_trim_lines hne).1 (List.mem_map_of_mem hline)
  refine List.mem_map.1 ((Text.mem_map_trim_lines hne).2 ?_)
  rw [happend, Text.fields_append, List.map_append]
  exact List.mem_append_left _ hmem

end IgnoreEntry

namespace Workspace

open IgnoreEntry

variable {d d' : Disk} {root : String} {text : Option String}

/-- The ignore list of a project is some text, or is not there although there is a place for it. -/
def Lists (d : Disk) (root : String) : Option String → Prop
  | some text => d.readText (ignoreFile root) = .ok text
  | none => d.isPresent (ignoreFile root) = false ∧ ∃ place, d.place (ignoreFile root) = .ok place

/-- Keep the workspace out of the repository some times in a row; the answers in their order. -/
def ensureIgnoredTimes (root : String) : Nat → Disk → Except DiskError (List Bool × Disk)
  | 0, d => .ok ([], d)
  | n + 1, d => do
    let (listed, d) ← ensureIgnored d root
    let (later, d) ← ensureIgnoredTimes root n d
    return (listed :: later, d)

/-- What is written is the list with the entry. -/
theorem ensureIgnored_eq (h : Lists d root text) : ensureIgnored d root =
    match ensure (text.map String.toList) with
    | (true, _) => .ok (true, d)
    | (false, list) => (d.writeText (ignoreFile root) (.ofList list)).map fun d' => (false, d') := by
  cases text with
  | none =>
    simp only [ensureIgnored, h.1, Bool.false_eq_true, if_false]
    rfl
  | some t =>
    have hread : d.readText (ignoreFile root) = .ok t := h
    simp only [ensureIgnored, Disk.isPresent_of_readText hread, if_true, hread]
    rfl

/-- A list that has the entry is left alone. -/
theorem ensureIgnored_of_hasEntry {t : String} (h : Lists d root (some t)) (hentry : HasEntry t.toList) :
    ensureIgnored d root = .ok (true, d) := by
  rw [ensureIgnored_eq h, Option.map_some, ensure, if_pos (isListed_iff.2 hentry)]

theorem Lists.exists_writeText (h : Lists d root text) (t : String) :
    ∃ d', d.writeText (ignoreFile root) t = .ok d' := by
  cases text with
  | none =>
    obtain ⟨hmissing, place, hplace⟩ := h
    refine Disk.exists_write_eq_ok _ hplace ?_
    rw [Disk.node?_eq_none hplace hmissing]
    nofun
  | some t =>
    obtain ⟨place, hplace, hnode⟩ := Disk.place_of_readText h
    exact Disk.exists_write_eq_ok _ hplace hnode

/-- The workspace is kept out of the repository: what the answer says about the ignore list as it was,
and what list the disk has then. -/
structure Ensured (d : Disk) (root : String) (text : Option String) (listed : Bool) (d' : Disk) : Prop where
  answer : listed = true ↔ ∃ t, text = some t ∧ HasEntry t.toList
  idle : listed = true → d' = d
  list : ∃ t, Lists d' root (some t) ∧ HasEntry t.toList ∧ Holds t.toList (text.getD "").toList
  elsewhere : ∀ place, d.place (ignoreFile root) ≠ .ok place → d'.node? place = d.node? place

theorem exists_ensured (h : Lists d root text) :
    ∃ listed d', ensureIgnored d root = .ok (listed, d') ∧ Ensured d root text listed d' := by
  have written {list : List Char} (hanswer : ¬∃ t, text = some t ∧ HasEntry t.toList)
      (hensure : ensure (text.map String.toList) = (false, list)) (hentry : HasEntry list)
      (hholds : Holds list (text.getD "").toList) :
      ∃ listed d', ensureIgnored d root = .ok (listed, d') ∧ Ensured d root text listed d' := by
    obtain ⟨d', hd'⟩ := h.exists_writeText (.ofList list)
    have hfirst : ensureIgnored d root = .ok (false, d') := by
      rw [ensureIgnored_eq h, hensure]
      exact congrArg (Except.map fun d' => (false, d')) hd'
    exact ⟨false, d', hfirst,
      { answer := ⟨nofun, fun hlisted => absurd hlisted hanswer⟩
        idle := nofun
        list := ⟨.ofList list, Disk.readText_writeText hd', by rwa [String.toList_ofList],
          by rwa [String.toList_ofList]⟩
        elsewhere := fun _ => Disk.node?_write_of_ne hd' }⟩
  cases text with
  | none => exact written nofun rfl hasEntry_lines (holds_nil _)
  | some t =>
    by_cases hentry : HasEntry t.toList
    · exact ⟨true, d, ensureIgnored_of_hasEntry h hentry,
        { answer := ⟨fun _ => ⟨t, rfl, hentry⟩, fun _ => rfl⟩
          idle := fun _ => rfl
          list := ⟨t, h, hentry, .refl _⟩
          elsewhere := fun _ _ => rfl }⟩
    · refine written (fun ⟨_, ht, hlisted⟩ => hentry (Option.some.inj ht ▸ hlisted)) ?_
        (hasEntry_append t.toList) (holds_append t.toList)
      rw [Option.map_some, ensure, if_neg (mt isListed_iff.1 hentry)]

/-- Once the list has the entry, no time changes it. -/
theorem ensureIgnoredTimes_of_hasEntry {t : String} (h : Lists d root (some t))
    (hentry : HasEntry t.toList) (n : Nat) :
    ensureIgnoredTimes root n d = .ok (List.replicate n true, d) := by
  induction n with
  | zero => rfl
  | succ n ih =>
    rw [ensureIgnoredTimes, ensureIgnored_of_hasEntry h hentry]
    simp only [bind, Except.bind, ih]
    rfl

/-- **The entry is appended once.** The first time tells whether the ignore list had the entry, and leaves
a list that has it and holds the old one; all other times find the entry and write nothing. -/
theorem ensureIgnored_settles (h : Lists d root text) : ∃ listed d', Ensured d root text listed d' ∧
    ∀ n, ensureIgnoredTimes root (n + 1) d = .ok (listed :: List.replicate n true, d') := by
  obtain ⟨listed, d', hfirst, hensured⟩ := exists_ensured h
  refine ⟨listed, d', hensured, fun n => ?_⟩
  obtain ⟨t, hlist, hentry, -⟩ := hensured.list
  rw [ensureIgnoredTimes, hfirst]
  simp only [bind, Except.bind, ensureIgnoredTimes_of_hasEntry hlist hentry]
  rfl

/-- A list without the entry and without a line feed at its end. -/
theorem ensureIgnored_settles_target :
    let d : Disk := ⟨.ofList [("/.gitignore", .file (.bytes (Utf8.encode "/target")) false)], "/"⟩
    Lists d "/" (some "/target") ∧ ∃ listed d', Ensured d "/" (some "/target") listed d' ∧
      ∀ n, ensureIgnoredTimes "/" (n + 1) d = .ok (listed :: List.replicate n true, d') := by
  intro d
  have hlists : Lists d "/" (some "/target") := by
    rw [Lists]
    decide +kernel
  exact ⟨hlists, ensureIgnored_settles hlists⟩

end Workspace

end Testwright
