import Testwright.Proofs.Attempt.Outlines
import Testwright.Proofs.Disk.Writing
import Testwright.Workspace.Store

/-!
# Which reports share a file

No piece between the underscores of a stem holds one itself, so two stems are equal exactly if all their
pieces are (`stem_eq_iff`), and a report leaves the files of those with other stems alone
(`find_after_report`). Simple names do not tell all overloads of a method apart (`dates_share_file`).
-/

namespace Testwright

open Text (past_of_forall)

/-- A method signature. -/
structure Signature where
  name : List Char
  identifier : IsIdentifier name
  parameters : List Parameter

def Signature.text (σ : Signature) : List Char :=
  σ.name ++ '(' :: (Text.join [','] (σ.parameters.map Parameter.text) ++ [')'])

/-- What a stem keeps of a signature, cut at the underscores. -/
def Signature.pieces (σ : Signature) : List (List Char) :=
  Text.fields '_' σ.name ++ σ.parameters.map Parameter.outline

/-! ## Stems -/

/-- The stem of a report is the class, and behind it the pieces of the signature and the attempt, each
behind an underscore. -/
theorem Report.stem_toList {r : Report} {σ : Signature} (h : r.methodSignature.toList = σ.text) :
    r.stem.toList = (simpleName r.className).toList ++
      '_' :: Text.join ['_'] (σ.pieces ++ [Nat.toDigits 10 r.attempt]) := by
  have hcut : Text.cutAt? '(' r.methodSignature.toList =
      some (σ.name, Text.join [','] (σ.parameters.map Parameter.text) ++ [')']) := by
    rw [h, Signature.text, Text.cutAt?_append (σ.identifier.not_mem (by decide))]
  have htrim : Text.trim σ.name = σ.name := by
    have hinked := σ.identifier.inked
    exact Text.trim_of_past σ.identifier.1 (past_of_forall hinked)
      (past_of_forall fun c hc => hinked c (List.mem_reverse.1 hc))
  have hparts : (String.join ((σ.parameters.map Parameter.outline).map fun p =>
      "_" ++ String.ofList p)).toList = (σ.parameters.map Parameter.outline).flatMap ('_' :: ·) := by
    rw [String.toList_join, List.flatMap_map]
    simp
  have hname : Text.join ['_'] (Text.fields '_' σ.name) = σ.name := Text.fields_join '_' σ.name
  obtain ⟨first, rest, hfields⟩ := List.exists_cons_of_ne_nil (Text.fields_ne_nil '_' σ.name)
  rw [hfields, Text.join_cons] at hname
  rw [stem, hcut, Signature.pieces, hfields, List.cons_append, List.cons_append, Text.join_cons,
    List.flatMap_append, List.flatMap_append, ← List.append_assoc, ← List.append_assoc, hname]
  simp only [Option.getD_some, Parameter.stemParts_text, htrim, String.toList_append, hparts,
    String.toList_ofList, Nat.toString_eq_ofList_toDigits]
  simp

theorem Signature.underscore_not_mem {σ : Signature} {attempt : Nat} :
    ∀ piece ∈ σ.pieces ++ [Nat.toDigits 10 attempt], '_' ∉ piece := by
  intro piece hpiece
  rw [List.mem_append, pieces, List.mem_append, List.mem_singleton] at hpiece
  rcases hpiece with (h | h) | rfl
  · exact Text.not_mem_of_mem_fields h
  · obtain ⟨p, -, rfl⟩ := List.mem_map.1 h
    rw [Parameter.outline, List.mem_append, not_or, List.mem_filter, List.mem_flatten]
    constructor
    · rintro ⟨-, h⟩
      cases h
    · rintro ⟨word, hword, h⟩
      rw [List.eq_of_mem_replicate hword] at h
      revert h
      decide
  · exact Nat.underscore_not_in_toDigits

theorem toDigits_inj {m n : Nat} (h : Nat.toDigits 10 m = Nat.toDigits 10 n) : m = n := by
  have hvalue := congrArg (fun digits => Nat.ofDigitChars 10 digits 0) h
  simpa using hvalue

section
variable {r s : Report} {σ τ : Signature}

/-- Two reports of a class share a stem exactly if they agree in the attempt and in all pieces of their
signatures. -/
theorem Report.stem_eq_iff (hclass : s.className = r.className)
    (hr : r.methodSignature.toList = σ.text) (hs : s.methodSignature.toList = τ.text) :
    r.stem = s.stem ↔ r.attempt = s.attempt ∧ σ.pieces = τ.pieces := by
  constructor
  · intro h
    have hchars := congrArg String.toList h
    rw [stem_toList hr, stem_toList hs, hclass] at hchars
    have hjoined := (List.cons.inj (List.append_cancel_left hchars)).2
    have hpieces := congrArg (Text.fields '_') hjoined
    rw [Text.fields_join_of_not_mem (by simp) Signature.underscore_not_mem,
      Text.fields_join_of_not_mem (by simp) Signature.underscore_not_mem] at hpieces
    obtain ⟨hsignature, hattempt⟩ := List.append_inj' hpieces rfl
    exact ⟨toDigits_inj (List.singleton_inj.1 hattempt), hsignature⟩
  · rintro ⟨hattempt, hpieces⟩
    apply String.toList_injective
    rw [stem_toList hr, stem_toList hs, hclass, hattempt, hpieces]

theorem arrays_inj {x y : List Char} {m n : Nat} (hx : ¬"Array".toList <:+ x)
    (hy : ¬"Array".toList <:+ y)
    (h : x ++ (List.replicate m "Array".toList).flatten = y ++ (List.replicate n "Array".toList).flatten) :
    x = y ∧ m = n := by
  have flatten_succ (k : Nat) : (List.replicate (k + 1) "Array".toList).flatten =
      (List.replicate k "Array".toList).flatten ++ "Array".toList := by
    rw [List.replicate_succ', List.flatten_append, List.flatten_singleton]
  induction m generalizing n with
  | zero =>
    cases n with
    | zero => exact ⟨List.append_cancel_right h, rfl⟩
    | succ n =>
      rw [flatten_succ, ← List.append_assoc] at h
      rw [List.replicate_zero, List.flatten_nil, List.append_nil] at h
      exact absurd (h ▸ List.suffix_append _ _) hx
  | succ m ih =>
    cases n with
    | zero =>
      rw [flatten_succ, ← List.append_assoc] at h
      rw [List.replicate_zero, List.flatten_nil, List.append_nil] at h
      exact absurd (h ▸ List.suffix_append _ _) hy
    | succ n =>
      rw [flatten_succ, flatten_succ, ← List.append_assoc, ← List.append_assoc] at h
      obtain ⟨hxy, hmn⟩ := ih (List.append_cancel_right h)
      exact ⟨hxy, congrArg Nat.succ hmn⟩

theorem Parameter.outline_eq_iff {p q : Parameter} (hp : p.Plain) (hq : q.Plain) :
    p.outline = q.outline ↔ p.visible = q.visible := by
  have outlined {p : Parameter} (hp : p.Plain) :
      p.outline = p.simple.name ++ (List.replicate p.rank "Array".toList).flatten := by
    rw [outline, List.filter_eq_self.2 hp.ascii]
  rw [outlined hp, outlined hq, visible, visible, Prod.mk.injEq]
  constructor
  · exact arrays_inj hp.element hq.element
  · rintro ⟨hname, hrank⟩
    rw [hname, hrank]

theorem outlines_eq_iff {ps qs : List Parameter} (hps : ∀ p ∈ ps, p.Plain) (hqs : ∀ q ∈ qs, q.Plain) :
    ps.map Parameter.outline = qs.map Parameter.outline ↔
      ps.map Parameter.visible = qs.map Parameter.visible := by
  induction ps generalizing qs with
  | nil => simp
  | cons p ps ih =>
    cases qs with
    | nil => simp
    | cons q qs =>
      obtain ⟨hp, hps⟩ := List.forall_mem_cons.1 hps
      obtain ⟨hq, hqs⟩ := List.forall_mem_cons.1 hqs
      rw [List.map_cons, List.map_cons, List.map_cons, List.map_cons, List.cons_eq_cons,
        List.cons_eq_cons, Parameter.outline_eq_iff hp hq, ih hps hqs]

/-- Pieces tell plain signatures apart that differ in more than packages and type arguments. -/
theorem Signature.pieces_eq_iff (hname : σ.name = τ.name ∨ '_' ∉ σ.name ∧ '_' ∉ τ.name)
    (hσ : ∀ p ∈ σ.parameters, p.Plain) (hτ : ∀ p ∈ τ.parameters, p.Plain) :
    σ.pieces = τ.pieces ↔ σ.name = τ.name ∧
      σ.parameters.map Parameter.visible = τ.parameters.map Parameter.visible := by
  rw [← outlines_eq_iff hσ hτ, pieces, pieces]
  rcases hname with hname | ⟨hσname, hτname⟩
  · rw [hname, List.append_cancel_left_eq]
    exact (and_iff_right rfl).symm
  · rw [Text.fields_of_not_mem hσname, Text.fields_of_not_mem hτname, List.singleton_append,
      List.singleton_append, List.cons_eq_cons]

end

/-! ## Files -/

section
variable {r s : Report} {σ τ : Signature} {d d' : Disk} {root : String} {n : Node}

/-- The stem of a report on a method of a class is a name. -/
theorem Report.isFileName_stem (hclass : '/' ∉ r.className.toList)
    (hr : r.methodSignature.toList = σ.text) : Disk.IsFileName (r.stem ++ ".json") where
  no_slash := by
    have hsimple : '/' ∉ (simpleName r.className).toList := by
      intro h
      rw [simpleName, toList_onChars] at h
      exact hclass (Text.mem_of_mem_before (Text.mem_of_mem_afterLast h))
    have hpieces : '/' ∉ Text.join ['_'] (σ.pieces ++ [Nat.toDigits 10 r.attempt]) := by
      intro h
      rcases Text.mem_join h with h | ⟨piece, hpiece, h⟩
      · cases h
      rw [List.mem_append, Signature.pieces, List.mem_append, List.mem_singleton] at hpiece
      rcases hpiece with (hpiece | hpiece) | rfl
      · have hname := Text.mem_join_of_mem (c := '_') hpiece h
        rw [Text.fields_join] at hname
        exact σ.identifier.not_mem (by decide) hname
      · obtain ⟨p, -, rfl⟩ := List.mem_map.1 hpiece
        rw [Parameter.outline, List.mem_append, List.mem_filter, List.mem_flatten] at h
        rcases h with ⟨-, h⟩ | ⟨word, hword, h⟩
        · cases h
        · rw [List.eq_of_mem_replicate hword] at h
          revert h
          decide
      · cases Nat.isDigit_of_mem_toDigits (by decide) (by decide) h
    rw [String.toList_append, stem_toList hr, List.mem_append, List.mem_append, List.mem_cons, not_or,
      not_or, not_or]
    exact ⟨⟨hsimple, by decide, hpieces⟩, by decide⟩
  moves := by
    rw [Path.isIdle, Bool.or_eq_false_iff, beq_eq_false_iff_ne, beq_eq_false_iff_ne]
    constructor
    · intro h
      have hlength := congrArg (fun s => s.toList.length) h
      simp at hlength
    · intro h
      have hlength := congrArg (fun s => s.toList.length) h
      simp at hlength
  not_up := by
    rw [beq_eq_false_iff_ne]
    intro h
    have hlength := congrArg (fun s => s.toList.length) h
    simp at hlength

namespace Workspace

theorem getLast?_reportsDirectory (root : String) :
    (reportsDirectory root).toList.getLast? = some 's' := by
  have ends (base : String) : (Path.join base "reports").toList.getLast? = some 's' := by
    unfold Path.join
    split
    · rfl
    · split
      · rw [String.toList_append, List.getLast?_append]
        rfl
      · rw [String.toList_append, List.getLast?_append]
        rfl
  exact ends _

theorem writeReport_eq_ok (h : writeReport d root r = .ok d') : ∃ d₀,
    d.Grows d₀ ∧ d₀.writeText (reportFile root r) r.toJson.pretty = .ok d' := by
  unfold writeReport at h
  split at h
  · cases h
  · next d₀ hmade =>
    split at h
    · cases h
    · next hwritten =>
      cases h
      exact ⟨d₀, Disk.makeDirectories_grows hmade, hwritten⟩

theorem find_writeReport (h : writeReport d root r = .ok d') : ∃ executable,
    d'.find (reportFile root r) = .ok (.file (.bytes (Utf8.encode r.toJson.pretty)) executable) := by
  obtain ⟨d₀, -, hwritten⟩ := writeReport_eq_ok h
  exact Disk.find_write hwritten

/-- A report leaves the file of another one alone. -/
theorem find_after_report (hr : Disk.IsFileName (r.stem ++ ".json"))
    (hs : Disk.IsFileName (s.stem ++ ".json")) (hne : s.stem ≠ r.stem)
    (hfind : d.find (reportFile root r) = .ok n) (h : writeReport d root s = .ok d') :
    d'.find (reportFile root r) = .ok n := by
  obtain ⟨d₀, hgrows, hwritten⟩ := writeReport_eq_ok h
  have hnames : r.stem ++ ".json" ≠ s.stem ++ ".json" := by
    intro heq
    have hchars := congrArg String.toList heq
    rw [String.toList_append, String.toList_append] at hchars
    exact hne (String.toList_injective (List.append_cancel_right hchars)).symm
  exact Disk.find_after_write (getLast?_reportsDirectory root) (by decide) hr hs hnames
    (Disk.find_of_grows hgrows hfind) hwritten

/-- Write some reports, one after another. -/
def writeReports (d : Disk) (root : String) (reports : List Report) : Except WorkspaceError Disk :=
  reports.foldlM (fun d r => writeReport d root r) d

theorem find_after_reports {reports : List Report} (hr : Disk.IsFileName (r.stem ++ ".json"))
    (hreports : ∀ s ∈ reports, Disk.IsFileName (s.stem ++ ".json") ∧ s.stem ≠ r.stem)
    (hfind : d.find (reportFile root r) = .ok n) (h : writeReports d root reports = .ok d') :
    d'.find (reportFile root r) = .ok n := by
  induction reports generalizing d with
  | nil =>
    cases h
    exact hfind
  | cons s reports ih =>
    obtain ⟨⟨hs, hne⟩, hreports⟩ := List.forall_mem_cons.1 hreports
    rw [writeReports, List.foldlM_cons] at h
    cases hwritten : writeReport d root s with
    | error e =>
      rw [hwritten] at h
      cases h
    | ok next =>
      rw [hwritten] at h
      exact ih hreports (find_after_report hr hs hne hfind hwritten) h

end Workspace

/-- A report tells of a method with a signature, in a class whose name leads out of no directory. -/
structure Report.Bears (r : Report) (σ : Signature) : Prop where
  signature : r.methodSignature.toList = σ.text
  className : '/' ∉ r.className.toList

/-- **Files of reports.** Two reports on methods of a class share a stem exactly if they agree in the
attempt and in the pieces of their signatures, which for plain signatures of one name are the simple
names and dimensions of the parameters. A report stays as it was written when others are written that
differ from it in the attempt or in a piece. -/
theorem reports_apart (hr : r.Bears σ) :
    (∀ (s : Report) (τ : Signature), s.Bears τ → s.className = r.className →
      (s.stem = r.stem ↔ s.attempt = r.attempt ∧ τ.pieces = σ.pieces) ∧
      ((τ.name = σ.name ∨ '_' ∉ τ.name ∧ '_' ∉ σ.name) →
        (∀ p ∈ τ.parameters ++ σ.parameters, p.Plain) →
          (τ.pieces = σ.pieces ↔ τ.name = σ.name ∧
            τ.parameters.map Parameter.visible = σ.parameters.map Parameter.visible))) ∧
    ∀ (d d₁ d₂ : Disk) (root : String) (reports : List Report),
      Workspace.writeReport d root r = .ok d₁ → Workspace.writeReports d₁ root reports = .ok d₂ →
      (∀ s ∈ reports, s.className = r.className ∧
        ∃ τ : Signature, s.Bears τ ∧ (s.attempt ≠ r.attempt ∨ τ.pieces ≠ σ.pieces)) →
      d₂.read (Workspace.reportFile root r) = .ok (.bytes (Utf8.encode r.toJson.pretty)) := by
  have sharing {s : Report} {τ : Signature} (hs : s.Bears τ) (hclass : s.className = r.className) :
      s.stem = r.stem ↔ s.attempt = r.attempt ∧ τ.pieces = σ.pieces :=
    Report.stem_eq_iff hclass.symm hs.signature hr.signature
  constructor
  · intro s τ hs hclass
    refine ⟨sharing hs hclass, fun hname hplain => ?_⟩
    rw [List.forall_mem_append] at hplain
    exact Signature.pieces_eq_iff hname hplain.1 hplain.2
  · intro d d₁ d₂ root reports hwritten hothers happart
    obtain ⟨executable, hfind⟩ := Workspace.find_writeReport hwritten
    have hname := Report.isFileName_stem hr.className hr.signature
    refine Disk.read_of_find (Workspace.find_after_reports hname ?_ hfind hothers)
    intro s hs
    obtain ⟨hclass, τ, hbears, hdiffers⟩ := happart s hs
    refine ⟨Report.isFileName_stem hbears.className hbears.signature, fun hstem => ?_⟩
    obtain ⟨hattempt, hpieces⟩ := (sharing hbears hclass).1 hstem
    exact hdiffers.elim (absurd hattempt) (absurd hpieces)

end

/-! ## A cart -/

def reportOn (signature : String) (attempt : Nat) : Report :=
  .skipped { className := "acme.Cart", methodSignature := signature, attempt } "no branches" default

def typeNamed (name : List Char) (identifier : IsIdentifier name) (dimensions : Nat) : Parameter where
  outer := []
  simple := { name, identifier, enclosed := .inl rfl }
  dimensions
  blanks := by simp

/-- The signatures `add(int)` and `add(int[])`. -/
def addInt (dimensions : Nat) : Signature where
  name := "add".toList
  identifier := ⟨nofun, List.all_eq_true.1 rfl⟩
  parameters := [typeNamed "int".toList ⟨nofun, List.all_eq_true.1 rfl⟩ dimensions]

theorem exists_ok {ε α : Type} {x : Except ε α} (h : x.isOk = true) : ∃ a, x = .ok a := by
  cases x with
  | error e => cases h
  | ok a => exact ⟨a, rfl⟩

/-- The report on a method survives those on its overload and on another attempt. -/
theorem reports_apart_cart : ∃ d₁ d₂,
    Workspace.writeReport {} "/shop" (reportOn "add(int)" 0) = .ok d₁ ∧
    Workspace.writeReports d₁ "/shop" [reportOn "add(int[])" 0, reportOn "add(int)" 1] = .ok d₂ ∧
    d₂.read (Workspace.reportFile "/shop" (reportOn "add(int)" 0)) =
      .ok (.bytes (Utf8.encode (reportOn "add(int)" 0).toJson.pretty)) := by
  have hclass : '/' ∉ "acme.Cart".toList := by decide +kernel
  have helement : "add(int)".toList = (addInt 0).text := by decide +kernel
  have harray : "add(int[])".toList = (addInt 1).text := by decide +kernel
  obtain ⟨d₁, hfirst⟩ : ∃ d₁, Workspace.writeReport {} "/shop" (reportOn "add(int)" 0) = .ok d₁ :=
    exists_ok (by decide +kernel)
  obtain ⟨d₂, hothers⟩ : ∃ d₂, ((Workspace.writeReport {} "/shop" (reportOn "add(int)" 0)).bind fun d =>
      Workspace.writeReports d "/shop" [reportOn "add(int[])" 0, reportOn "add(int)" 1]) = .ok d₂ :=
    exists_ok (by decide +kernel)
  rw [hfirst] at hothers
  simp only [Except.bind] at hothers
  refine ⟨d₁, d₂, hfirst, hothers, (reports_apart ⟨helement, hclass⟩).2 _ _ _ _ _ hfirst hothers ?_⟩
  intro s hs
  simp only [List.mem_cons, List.not_mem_nil, or_false] at hs
  rcases hs with rfl | rfl
  · exact ⟨rfl, addInt 1, ⟨harray, hclass⟩, .inr (by decide +kernel)⟩
  · exact ⟨rfl, addInt 0, ⟨helement, hclass⟩, .inl (by decide)⟩

/-- Overloads that take a date of the one and of the other package have one file, and the report on the
second takes the place of that on the first. -/
theorem dates_share_file :
    let r := reportOn "add(java.util.Date)" 0
    let s := reportOn "add(java.sql.Date)" 0
    r.stem = s.stem ∧ r.toJson.pretty ≠ s.toJson.pretty ∧ ∃ d₁ d₂,
      Workspace.writeReport {} "/shop" r = .ok d₁ ∧ Workspace.writeReport d₁ "/shop" s = .ok d₂ ∧
      d₂.read (Workspace.reportFile "/shop" r) = .ok (.bytes (Utf8.encode s.toJson.pretty)) := by
  intro r s
  have hstem : r.stem = s.stem := by decide +kernel
  obtain ⟨d₁, hfirst⟩ : ∃ d₁, Workspace.writeReport {} "/shop" r = .ok d₁ :=
    exists_ok (by decide +kernel)
  obtain ⟨d₂, hsecond⟩ : ∃ d₂, ((Workspace.writeReport {} "/shop" r).bind fun d =>
      Workspace.writeReport d "/shop" s) = .ok d₂ := exists_ok (by decide +kernel)
  rw [hfirst] at hsecond
  simp only [Except.bind] at hsecond
  refine ⟨hstem, by decide +kernel, d₁, d₂, hfirst, hsecond, ?_⟩
  obtain ⟨executable, hfind⟩ := Workspace.find_writeReport hsecond
  rw [Workspace.reportFile, hstem]
  exact Disk.read_of_find hfind

end Testwright
