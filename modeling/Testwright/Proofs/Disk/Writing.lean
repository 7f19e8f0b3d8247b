import Testwright.Disk.Basic
import Testwright.Proofs.Text.Cutting
import Testwright.Proofs.Text.Encoding

/-!
# Writing on a disk

Making directories only adds to a disk (`makeDirectories_grows`), and writing a file changes no other
place and no directory. So a path that leads somewhere leads there ever after (`place_of_keeps`), and
two files of one directory do not touch each other (`find_after_write`). A text that was written is read
back (`readText_writeText`).
-/

namespace Testwright.Disk

variable {d d' : Disk} {path place piece base name : String} {n : Node} {content : Content}

/-- The directories of a disk are directories of another one, where relative paths begin at the same
place. -/
structure Keeps (d d' : Disk) : Prop where
  current : d'.current = d.current
  directory : ∀ place, d.node? place = some .directory → d'.node? place = some .directory

/-- All that lies on a disk lies on another one. -/
structure Grows (d d' : Disk) : Prop where
  current : d'.current = d.current
  node : ∀ place n, d.node? place = some n → d'.node? place = some n

theorem Grows.refl (d : Disk) : d.Grows d := ⟨rfl, fun _ _ h => h⟩

theorem Grows.trans {d'' : Disk} (h : d.Grows d') (h' : d'.Grows d'') : d.Grows d'' :=
  ⟨h'.current.trans h.current, fun place n hn => h'.node place n (h.node place n hn)⟩

theorem Grows.keeps (h : d.Grows d') : d.Keeps d' := ⟨h.current, fun place => h.node place _⟩

theorem node?_put_of_ne {other : String} (h : place ≠ other) :
    (d.put place n).node? other = d.node? other := by
  rw [node?, node?, put, Dict.get?_insert, if_neg h]

theorem node?_put_self (h : place ≠ "/") : (d.put place n).node? place = some n := by
  rw [node?, if_neg (by rwa [beq_iff_eq]), put, Dict.get?_insert, if_pos rfl]

theorem ne_root_of_node? (h : d.node? place ≠ some .directory) : place ≠ "/" := by
  rintro rfl
  exact h rfl

/-! ## Paths -/

theorem follow_of_keeps (hkeeps : d.Keeps d') {target : String} (h : d.follow place piece = .ok target) :
    d'.follow place piece = .ok target := by
  unfold follow at h
  split at h
  · cases h
  · cases h
  · next hdirectory =>
    rw [follow, hkeeps.directory place hdirectory]
    exact h

/-- A path leads where it led as long as no directory is lost. -/
theorem place_of_keeps (hkeeps : d.Keeps d') (h : d.place path = .ok place) :
    d'.place path = .ok place := by
  have hstart : d'.start path = d.start path := by rw [start, start, hkeeps.current]
  unfold Disk.place at h ⊢
  split at h
  · cases h
  · next hempty =>
    rw [if_neg hempty, hstart]
    generalize d.start path = from_ at h ⊢
    generalize Path.pieces path = pieces at h ⊢
    induction pieces generalizing from_ with
    | nil => exact h
    | cons piece pieces ih =>
      rw [List.foldlM_cons] at h ⊢
      cases hfollow : d.follow from_ piece with
      | error e =>
        rw [hfollow] at h
        cases h
      | ok next =>
        rw [hfollow] at h
        rw [follow_of_keeps hkeeps hfollow]
        exact ih next h

theorem find_of_grows (hgrows : d.Grows d') (h : d.find path = .ok n) : d'.find path = .ok n := by
  unfold find at h
  split at h
  · cases h
  · next place hplace =>
    split at h
    · next m hnode =>
      cases h
      rw [find, place_of_keeps hgrows.keeps hplace]
      simp only
      rw [hgrows.node place n hnode]
    · cases h

/-- The name of a file or directory: it can stand as a piece of a path and leads on. -/
structure IsFileName (name : String) : Prop where
  no_slash : '/' ∉ name.toList
  moves : Path.isIdle name = false
  not_up : (name == "..") = false

/-- The path of something in a directory leads to the directory first. -/
theorem place_join {c : Char} (hname : IsFileName name) (hlast : base.toList.getLast? = some c)
    (hc : c ≠ '/') : d.place (Path.join base name) = (d.place base).bind fun place => d.follow place name := by
  have hbase : base.isEmpty = false := by
    rw [Bool.eq_false_iff]
    intro hempty
    rw [String.isEmpty_iff.1 hempty] at hlast
    cases hlast
  have hrelative : Path.isAbsolute name = false := by
    rw [Path.isAbsolute, beq_eq_false_iff_ne]
    intro hhead
    exact hname.no_slash (List.mem_of_mem_head? hhead)
  have hslash : (base.toList.getLast? == some '/') = false := by
    rw [hlast, beq_eq_false_iff_ne]
    exact fun h => hc (Option.some.inj h)
  have hjoin : Path.join base name = base ++ "/" ++ name := by
    rw [Path.join, hrelative, hbase, hslash]
    rfl
  have hpieces : Path.pieces (base ++ "/" ++ name) = Path.pieces base ++ [name] := by
    rw [Path.pieces, String.toList_append, String.toList_append, List.append_assoc,
      show "/".toList ++ name.toList = '/' :: name.toList from rfl, Text.fields_append,
      Text.fields_of_not_mem hname.no_slash, List.map_append, Path.pieces]
    simp
  obtain ⟨first, rest, hfirst⟩ : ∃ first rest, base.toList = first :: rest :=
    List.exists_cons_of_ne_nil fun hnil => by simp [hnil] at hlast
  have habsolute : Path.isAbsolute (base ++ "/" ++ name) = Path.isAbsolute base := by
    rw [Path.isAbsolute, String.toList_append, String.toList_append, Path.isAbsolute, hfirst]
    rfl
  have hstart : d.start (base ++ "/" ++ name) = d.start base := by rw [start, habsolute, start]
  have hempty : (base ++ "/" ++ name).isEmpty = false := by
    rw [Bool.eq_false_iff]
    intro hempty
    have := congrArg String.toList (String.isEmpty_iff.1 hempty)
    simp [hfirst] at this
  rw [hjoin, Disk.place, hempty, hpieces, hstart, List.foldlM_append, Disk.place, hbase]
  simp only [Bool.false_eq_true, if_false]
  cases List.foldlM d.follow (d.start base) (Path.pieces base) with
  | error e => rfl
  | ok place =>
    change (d.follow place name >>= pure) = d.follow place name
    exact bind_pure _

theorem childPlace_inj {other : String} (h : childPlace place name = childPlace place other) :
    name = other := by
  unfold childPlace at h
  apply String.toList_injective
  split at h
  · have hchars := congrArg String.toList h
    simp only [String.toList_append] at hchars
    exact List.append_cancel_left hchars
  · have hchars := congrArg String.toList h
    simp only [String.toList_append] at hchars
    exact List.append_cancel_left hchars

theorem follow_isFileName (hname : IsFileName name) {target : String}
    (h : d.follow place name = .ok target) : target = childPlace place name := by
  unfold follow at h
  split at h
  · cases h
  · cases h
  · rw [hname.moves, hname.not_up] at h
    cases h
    rfl

/-! ## Changes -/

theorem enter_grows {st st' : Disk × String} (h : enter st piece = .ok st') : st.1.Grows st'.1 := by
  unfold enter at h
  split at h
  · cases h
  · next place _ =>
    split at h
    · next hnone =>
      cases h
      refine ⟨rfl, fun other m hm => ?_⟩
      rw [node?_put_of_ne fun heq => ?_]
      · exact hm
      · rw [heq, hm] at hnone
        cases hnone
    · cases h
      exact .refl _

theorem makeDirectories_grows (h : d.makeDirectories path = .ok d') : d.Grows d' := by
  have entered (pieces : List String) {st st' : Disk × String}
      (h : pieces.foldlM enter st = .ok st') : st.1.Grows st'.1 := by
    induction pieces generalizing st with
    | nil =>
      cases h
      exact .refl _
    | cons piece pieces ih =>
      rw [List.foldlM_cons] at h
      cases henter : enter st piece with
      | error e =>
        rw [henter] at h
        cases h
      | ok next =>
        rw [henter] at h
        exact (enter_grows henter).trans (ih h)
  unfold makeDirectories at h
  split at h
  · cases h
    exact .refl _
  · split at h
    · cases h
    · next made place hmade =>
      have hgrows := entered _ hmade
      split at h
      · cases h
      · cases h
        exact hgrows

/-- Writing puts a file at the place of a path unless that is a directory. -/
theorem write_eq_ok (h : d.write path content = .ok d') : ∃ place executable,
    d.place path = .ok place ∧ d.node? place ≠ some .directory ∧
      d' = d.put place (.file content executable) := by
  unfold write at h
  split at h
  · cases h
  · next place hplace =>
    split at h
    · cases h
    · next old executable hnode =>
      cases h
      exact ⟨place, executable, hplace, by rw [hnode]; nofun, rfl⟩
    · next hnode =>
      cases h
      exact ⟨place, false, hplace, by rw [hnode]; nofun, rfl⟩

theorem put_keeps (h : d.node? place ≠ some .directory) : d.Keeps (d.put place n) := by
  refine ⟨rfl, fun other hother => ?_⟩
  rw [node?_put_of_ne fun heq => ?_]
  · exact hother
  · rw [heq] at h
    exact h hother

theorem find_write (h : d.write path content = .ok d') :
    ∃ executable, d'.find path = .ok (.file content executable) := by
  obtain ⟨place, executable, hplace, hnode, rfl⟩ := write_eq_ok h
  refine ⟨executable, ?_⟩
  rw [find, place_of_keeps (put_keeps hnode) hplace]
  simp only
  rw [node?_put_self (ne_root_of_node? hnode)]

theorem exists_write_eq_ok (content : Content) (hplace : d.place path = .ok place)
    (hnode : d.node? place ≠ some .directory) : ∃ d', d.write path content = .ok d' := by
  simp only [write, hplace]
  split
  · next hdirectory => exact absurd hdirectory hnode
  · exact ⟨_, rfl⟩
  · exact ⟨_, rfl⟩

theorem node?_write_of_ne {other : String} (h : d.write path content = .ok d')
    (hother : d.place path ≠ .ok other) : d'.node? other = d.node? other := by
  obtain ⟨place, executable, hplace, -, rfl⟩ := write_eq_ok h
  exact node?_put_of_ne fun heq => hother (heq ▸ hplace)

theorem node?_eq_none (hplace : d.place path = .ok place) (h : d.isPresent path = false) :
    d.node? place = none := by
  simp only [isPresent, find, hplace] at h
  cases hnode : d.node? place with
  | none => rfl
  | some n =>
    rw [hnode] at h
    cases h

theorem read_of_find {executable : Bool} (h : d.find path = .ok (.file content executable)) :
    d.read path = .ok content := by
  rw [read, h]

/-- A file stays what it is when another one is written into its directory. -/
theorem find_after_write {c : Char} {other : String} (hlast : base.toList.getLast? = some c)
    (hc : c ≠ '/') (hname : IsFileName name) (hother : IsFileName other) (hne : name ≠ other)
    (hfind : d.find (Path.join base name) = .ok n)
    (h : d.write (Path.join base other) content = .ok d') :
    d'.find (Path.join base name) = .ok n := by
  obtain ⟨target, executable, htarget, hnode, rfl⟩ := write_eq_ok h
  unfold find at hfind
  split at hfind
  · cases hfind
  next place hplace =>
  have hplaces := hplace
  rw [place_join hname hlast hc] at hplaces
  rw [place_join hother hlast hc] at htarget
  cases hdirectory : d.place base with
  | error e =>
    rw [hdirectory] at hplaces
    cases hplaces
  | ok directory =>
    rw [hdirectory] at hplaces htarget
    have happart : target ≠ place := by
      rw [follow_isFileName hname hplaces, follow_isFileName hother htarget]
      exact fun heq => hne (childPlace_inj heq).symm
    rw [find, place_of_keeps (put_keeps hnode) hplace]
    simp only
    rw [node?_put_of_ne happart]
    exact hfind

/-! ## Texts -/

variable {text : String}

theorem find_of_readText (h : d.readText path = .ok text) :
    ∃ content executable, d.find path = .ok (.file content executable) := by
  unfold readText read at h
  cases hfind : d.find path with
  | error e =>
    rw [hfind] at h
    cases h
  | ok n =>
    cases n with
    | directory =>
      rw [hfind] at h
      cases h
    | file content executable => exact ⟨content, executable, rfl⟩

theorem isPresent_of_readText (h : d.readText path = .ok text) : d.isPresent path = true := by
  obtain ⟨content, executable, hfind⟩ := find_of_readText h
  rw [isPresent, hfind]

theorem place_of_readText (h : d.readText path = .ok text) :
    ∃ place, d.place path = .ok place ∧ d.node? place ≠ some .directory := by
  obtain ⟨content, executable, hfind⟩ := find_of_readText h
  unfold find at hfind
  split at hfind
  · cases hfind
  · next place hplace =>
    refine ⟨place, hplace, fun hnode => ?_⟩
    rw [hnode] at hfind
    cases hfind

/-- A text that was written is read back. -/
theorem readText_writeText (h : d.writeText path text = .ok d') : d'.readText path = .ok text := by
  obtain ⟨executable, hfind⟩ := find_write h
  rw [readText, read_of_find hfind]
  simp only [Utf8.text?_encode]

end Testwright.Disk
