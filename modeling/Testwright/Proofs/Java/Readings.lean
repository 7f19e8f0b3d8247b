import Testwright.Proofs.Java.Boundaries
import Testwright.Proofs.Java.Locality
import Testwright.Proofs.Java.Scanning

/-!
# Texts put together

`Reads x pos u ts` says that the scanner reads `u`, in front of `x`, as some tokens. So texts one behind
the other are read one after the other (`Reads.append`), and a text is read in parts as well
(`Reads.split`). A text that begins with a token keeps its tokens wherever it stands in front of a stopper
(`Reads.move`), and in front of anything if it ends with a mark (`Reads.move_mark`).
-/

namespace Testwright.Java

open Token

/-- In front of `x`, the scanner reads `u` as some tokens; `pos` is the place of its first character. -/
inductive Reads (x : List Char) : Nat → List Char → List Token → Prop
  | blank {pos u} (space : ∀ c ∈ u, isSpace c = true) : Reads x pos u []
  | token {pos w v u lexeme start stop ts} (space : ∀ c ∈ w, isSpace c = true) (full : v ≠ [])
      (solid : Text.Past isSpace v) (scan : scan? (v ++ (u ++ x)) = some (lexeme, v.length))
      (hstart : start = pos + w.length) (hstop : stop = start + v.length) (rest : Reads x stop u ts) :
      Reads x pos (w ++ (v ++ u)) (⟨lexeme, .ofList v, start, stop⟩ :: ts)

variable {x x' s u v w : List Char} {pos pos' fuel : Nat} {ts us : List Token} {t : Token}

theorem reads_of_tokensFrom? (h : tokensFrom? pos s fuel = some ts) : Reads [] pos s ts := by
  induction fuel generalizing pos s ts with
  | zero => cases h
  | succ fuel ih =>
    have hsplit : s.takeWhile isSpace ++ s.drop (s.takeWhile isSpace).length = s := by
      rw [drop_length_takeWhile, List.takeWhile_append_dropWhile]
    unfold tokensFrom? at h
    simp only at h
    split at h
    · next hdrop =>
      cases h
      rw [hdrop, List.append_nil] at hsplit
      exact .blank (hsplit ▸ List.all_eq_true.1 List.all_takeWhile)
    · next c r hdrop =>
      split at h
      · cases h
      · next lexeme n hscan =>
        obtain ⟨rest, hrest, rfl⟩ := Option.map_eq_some_iff.1 h
        have hc : Solid c := by
          have := List.head?_dropWhile_not isSpace s
          rwa [← drop_length_takeWhile, hdrop] at this
        have hn : n ≠ 0 := by
          rintro rfl
          rw [List.drop_zero, tokensFrom?_of_empty hc hscan] at hrest
          cases hrest
        obtain ⟨n, rfl⟩ := Nat.exists_eq_succ_of_ne_zero hn
        have hlength : ((c :: r).take (n + 1)).length = n + 1 :=
          List.length_take_of_le ((scan?_closed hscan).resolve_left hn).le_length
        have key : Reads [] pos (s.takeWhile isSpace ++ ((c :: r).take (n + 1) ++ (c :: r).drop (n + 1)))
            (⟨lexeme, .ofList ((c :: r).take (n + 1)), pos + (s.takeWhile isSpace).length,
              pos + (s.takeWhile isSpace).length + (n + 1)⟩ :: rest) := by
          refine .token (List.all_eq_true.1 List.all_takeWhile) (List.cons_ne_nil _ _) ?_ ?_ rfl
            (by rw [hlength]) (ih hrest)
          · rintro _ ⟨⟩
            exact hc
          · rw [List.append_nil, List.take_append_drop, hlength]
            exact hscan
        have hwhole : s.takeWhile isSpace ++ ((c :: r).take (n + 1) ++ (c :: r).drop (n + 1)) = s := by
          rw [List.take_append_drop, ← hdrop, hsplit]
        rwa [hwhole] at key

theorem tokensFrom?_append {c : Char} {r : List Char} (hw : ∀ c ∈ w, isSpace c = true)
    (hc : isSpace c = false) : tokensFrom? pos (w ++ c :: r) (fuel + 1) =
      match scan? (c :: r) with
      | none => none
      | some (lexeme, n) => (tokensFrom? (pos + w.length + n) ((c :: r).drop n) fuel).map fun ts =>
        ⟨lexeme, .ofList ((c :: r).take n), pos + w.length, pos + w.length + n⟩ :: ts := by
  have htake : (w ++ c :: r).takeWhile isSpace = w := by
    refine Text.takeWhile_run hw ?_
    rintro _ ⟨⟩
    exact hc
  rw [Token.tokensFrom?]
  cases hscan : scan? (c :: r) with
  | none => simp only [htake, List.drop_left, hscan]
  | some found => simp only [htake, List.drop_left, hscan]

namespace Reads

theorem tokensFrom? (h : Reads [] pos s ts) (hfuel : s.length < fuel) :
    tokensFrom? pos s fuel = some ts := by
  induction h generalizing fuel with
  | @blank pos u space =>
    obtain ⟨fuel, rfl⟩ := Nat.exists_eq_add_one_of_ne_zero (Nat.ne_zero_of_lt hfuel)
    have htake : u.takeWhile isSpace = u := by simpa using Text.takeWhile_run (r := []) space nofun
    simp only [Token.tokensFrom?, htake, List.drop_length]
  | @token pos w v u lexeme start stop ts space full solid scan hstart hstop rest ih =>
    obtain ⟨fuel, rfl⟩ := Nat.exists_eq_add_one_of_ne_zero (Nat.ne_zero_of_lt hfuel)
    have hlength := List.length_pos_iff.2 full
    simp only [List.length_append] at hfuel
    have hrest : Token.tokensFrom? stop u fuel = some ts := ih (by omega)
    subst hstart hstop
    rw [List.append_nil] at scan
    obtain ⟨c, v, rfl⟩ := List.exists_cons_of_ne_nil full
    rw [List.cons_append] at scan ⊢
    rw [tokensFrom?_append space (solid c rfl), scan]
    simp only [← List.cons_append, List.drop_left, List.take_left, hrest]
    rfl

theorem append (h : Reads (v ++ x) pos u ts) (h' : Reads x (pos + u.length) v us) :
    Reads x pos (u ++ v) (ts ++ us) := by
  induction h with
  | @blank pos u space =>
    cases h' with
    | blank space' => exact .blank (List.forall_mem_append.2 ⟨space, space'⟩)
    | @token _ w v u' lexeme start stop ts space' full solid scan hstart hstop rest =>
      rw [← List.append_assoc]
      refine .token (List.forall_mem_append.2 ⟨space, space'⟩) full solid scan ?_ hstop rest
      rw [hstart, List.length_append, Nat.add_assoc]
  | @token pos w v' u lexeme start stop ts space full solid scan hstart hstop rest ih =>
    rw [List.append_assoc, List.append_assoc]
    refine .token space full solid (by rwa [List.append_assoc]) hstart hstop (ih ?_)
    rw [hstop, hstart]
    simpa [Nat.add_assoc] using h'

/-- Tokens lie behind each other from the first place on. -/
theorem places (h : Reads x pos u ts) : ∀ t ∈ ts, pos ≤ t.start ∧ t.start ≤ t.stop := by
  induction h with
  | blank => nofun
  | @token pos w v u lexeme start stop ts _ _ _ _ hstart hstop _ ih =>
    have hplace : pos ≤ start ∧ start ≤ stop := by omega
    refine List.forall_mem_cons.2 ⟨hplace, fun t ht => ?_⟩
    obtain ⟨hle, hle'⟩ := ih t ht
    exact ⟨by omega, hle'⟩

theorem inside (h : Reads x pos u ts) : ∀ t ∈ ts, t.stop ≤ pos + u.length := by
  induction h with
  | blank => nofun
  | @token pos w v u lexeme start stop ts _ _ _ _ hstart hstop _ ih =>
    have hlength : pos + (w ++ (v ++ u)).length = stop + u.length := by
      simp only [List.length_append]
      omega
    rw [hlength]
    exact List.forall_mem_cons.2 ⟨Nat.le_add_right stop _, ih⟩

theorem eq_nil (h : Reads x pos u ts) (hu : u = []) : ts = [] := by
  cases h with
  | blank => rfl
  | token _ full => simp [full] at hu

/-- No text that is read begins with a byte order mark. -/
theorem head?_ne (h : Reads x pos u ts) : u.head? ≠ some '\uFEFF' := by
  have space : isSpace '\uFEFF' = false := by decide
  cases h with
  | blank blank =>
    intro hu
    have := blank _ (List.mem_of_head? hu)
    rw [space] at this
    cases this
  | @token _ w v u lexeme start stop _ blank full solid scan =>
    intro hu
    cases w with
    | cons d w =>
      cases hu
      have := blank _ List.mem_cons_self
      rw [space] at this
      cases this
    | nil =>
      obtain ⟨c, v, rfl⟩ := List.exists_cons_of_ne_nil full
      cases hu
      rcases first_of_scan? scan with hword | hascii
      · exact absurd hword (by decide +kernel)
      · exact absurd hascii (by decide)

/-- What is read as some tokens and others consists of two parts. -/
theorem split (h : Reads x pos u (ts ++ us)) : ∃ v w, u = v ++ w ∧ Reads (w ++ x) pos v ts ∧
    Reads x (pos + v.length) w us ∧ (ts = [] → v = []) ∧ ∀ t ∈ ts.getLast?, t.stop = pos + v.length := by
  induction ts generalizing pos u with
  | nil => exact ⟨[], u, rfl, .blank nofun, h, fun _ => rfl, nofun⟩
  | cons t ts ih =>
    cases h with
    | @token _ w v u lexeme start stop _ space full solid scan hstart hstop rest =>
      obtain ⟨v', w', rfl, hfirst, hsecond, hnil, hlast⟩ := ih rest
      have hlength : pos + (w ++ (v ++ v')).length = stop + v'.length := by
        simp only [List.length_append]
        omega
      refine ⟨w ++ (v ++ v'), w', by simp, .token space full solid (by rwa [List.append_assoc] at scan)
        hstart hstop hfirst, hlength ▸ hsecond, nofun, fun b hb => ?_⟩
      rw [hlength]
      cases ts with
      | nil =>
        cases hb
        cases hnil rfl
        rfl
      | cons t' ts => exact hlast b (by rwa [List.getLast?_cons_cons] at hb)

/-- A text keeps its tokens at another place and in front of another text, if both begin with a stopper.
A line comment at its end asks for the same stopper. -/
theorem move {f : Nat → Nat} (h : Reads x pos u ts) (hx : Stopped x) (hx' : Stopped x')
    (hlast : (∀ t ∈ ts.getLast?, t.lexeme ≠ .comment .lineComment) ∨ x.head? = x'.head?)
    (hf : ∀ k, f (pos + k) = pos' + k) : Reads x' pos' u (ts.map (Token.move f)) := by
  induction h generalizing pos' with
  | blank space => exact .blank space
  | @token pos w v u lexeme start stop ts space full solid scan hstart hstop rest ih =>
    have hstart' : f start = pos' + w.length := hstart ▸ hf _
    have hstop' : f stop = f start + v.length := by
      rw [hstart', hstop, hstart, Nat.add_assoc, hf, Nat.add_assoc]
    refine .token space full solid ?_ hstart' hstop' (ih ?_ fun k => ?_)
    · rw [← List.append_assoc] at scan ⊢
      refine scan?_append (List.append_ne_nil_of_left_ne_nil full u) hx hx' scan (by simp) fun hline => ?_
      by_cases hu : u = []
      · subst hu
        cases rest.eq_nil rfl
        exact .inr (hlast.resolve_left fun hcode => hcode _ rfl hline)
      · have := List.length_pos_iff.2 hu
        rw [List.length_append]
        exact .inl (by omega)
    · refine hlast.imp_left fun hcode t ht => hcode t ?_
      cases ts with
      | nil => cases ht
      | cons t' ts => rwa [List.getLast?_cons_cons]
    · rw [hstop', hstart', hstop, hstart, Nat.add_assoc, Nat.add_assoc, hf, Nat.add_assoc, Nat.add_assoc]

/-- A token that is a mark has one character. -/
theorem char_of_mark {lexeme : Lexeme} {start stop : Nat}
    (h : (Token.mk lexeme (.ofList v) start stop).mark ∈ marks) : lexeme = .symbol ∧
      ∃ c ∈ stoppers, v = [c] ∧ c ∈ [';', '(', '[', '\x7b', ')', ']', '\x7d'] := by
  unfold Token.mark at h
  split at h
  · next hsymbol =>
    have hmem : v ∈ marks.map String.toList := by simpa using List.mem_map_of_mem (f := String.toList) h
    have hall : ∀ v ∈ marks.map String.toList, ∃ c ∈ stoppers, v = [c] ∧
        c ∈ [';', '(', '[', '\x7b', ')', ']', '\x7d'] := by decide
    exact ⟨hsymbol, hall v hmem⟩
  · exact absurd h (by decide)

/-- In front of a token stands white space only. -/
theorem exists_gap (h : Reads x pos u (t :: ts)) : ∃ gap rest, u = gap ++ (t.text.toList ++ rest) ∧
    (∀ c ∈ gap, isSpace c = true) ∧ t.start = pos + gap.length ∧ t.stop = t.start + t.text.toList.length := by
  cases h with
  | @token _ gap v rest lexeme start stop _ space full solid scan hstart hstop =>
    exact ⟨gap, rest, by simp, space, hstart, by simpa using hstop⟩

/-- A mark is read with white space around it. -/
theorem mark {c : Char} (gap rest : List Char) (hc : c ∈ [';', '(', '[', '\x7b', ')', ']', '\x7d'])
    (hgap : ∀ c ∈ gap, isSpace c = true) (hrest : ∀ c ∈ rest, isSpace c = true) :
    Reads x pos (gap ++ ([c] ++ rest)) [⟨.symbol, .ofList [c], pos + gap.length, pos + gap.length + 1⟩] := by
  refine .token hgap (List.cons_ne_nil c []) ?_ (scan?_mark hc _) rfl rfl (.blank hrest)
  rintro _ ⟨⟩
  have hall : ∀ c ∈ [';', '(', '[', '\x7b', ')', ']', '\x7d'], isSpace c = false := by decide
  exact hall c hc

/-- A text that begins with the character of a mark begins with that mark. -/
theorem mark_of_char {c : Char} {r : List Char} (h : Reads x t.start (c :: r) (t :: ts))
    (hc : c ∈ [';', '(', '[', '\x7b', ')', ']', '\x7d']) : t.mark = .ofList [c] := by
  generalize htext : c :: r = s at h
  cases h with
  | @token _ w v u lexeme start stop _ _ full _ scan hstart =>
    obtain rfl : w = [] := List.eq_nil_of_length_eq_zero (by simp only at hstart; omega)
    obtain ⟨d, v, rfl⟩ := List.exists_cons_of_ne_nil full
    cases htext
    have hmark := scan?_mark hc (v ++ (u ++ x))
    rw [List.cons_append] at scan
    obtain ⟨rfl, rfl⟩ : lexeme = .symbol ∧ v = [] := by simpa using scan.symm.trans hmark
    rfl

theorem stopped_of_space {c : Char} {r : List Char} (h : ∀ c ∈ w, isSpace c = true) (hc : c ∈ stoppers) :
    Stopped (w ++ c :: r) := by
  cases w with
  | nil => exact .cons hc
  | cons d w =>
    have hd : isSpace d = true := h d List.mem_cons_self
    simp only [isSpace, Bool.or_eq_true, beq_iff_eq, Bool.and_eq_true, decide_eq_true_eq] at hd
    rcases hd with rfl | ⟨hle, hle'⟩
    · exact .cons (by decide)
    · have hall : ∀ n ∈ List.range' 9 5, Char.ofNat n ∈ stoppers := by decide
      have hmem := hall d.toNat (List.mem_range'_1.2 ⟨hle, by omega⟩)
      rw [Char.ofNat_toNat] at hmem
      exact .cons hmem

/-- In front of a mark stands a stopper. -/
theorem stopped (h : Reads x pos u (t :: ts)) (hmark : t.mark ∈ marks) : Stopped u := by
  cases h with
  | token space =>
    obtain ⟨-, c, hc, rfl, -⟩ := char_of_mark hmark
    exact stopped_of_space space hc

/-- A text that ends with a mark keeps its tokens wherever it stands. -/
theorem move_mark {f : Nat → Nat} (h : Reads x pos u ts) (hlast : ∃ t ∈ ts.getLast?, t.mark ∈ marks)
    (hf : ∀ k, f (pos + k) = pos' + k) : Reads x' pos' u (ts.map (Token.move f)) := by
  obtain ⟨t, ht, hmark⟩ := hlast
  obtain ⟨ts, rfl⟩ := List.getLast?_eq_some_iff.1 ht
  obtain ⟨v, w, rfl, hfirst, hsecond, -, -⟩ := h.split
  cases hsecond with
  | @token _ gap v₁ u₁ lexeme start stop _ space full solid scan hstart hstop rest =>
    cases rest with
    | blank space' =>
      obtain ⟨rfl, c, hc, rfl, hlisted⟩ := char_of_mark hmark
      have hstopped (y : List Char) : Stopped (gap ++ ([c] ++ u₁) ++ y) := by
        rw [List.append_assoc]
        exact stopped_of_space space hc
      rw [List.map_append]
      refine append (hfirst.move (hstopped x) (hstopped x') (.inr ?_) hf) ?_
      · cases gap <;> rfl
      · have hstart' : f start = pos' + v.length + gap.length := by
          rw [hstart, Nat.add_assoc, hf, Nat.add_assoc]
        refine .token space full solid (scan?_mark hlisted _) hstart' ?_ (.blank space')
        show f stop = f start + _
        rw [hstart', hstop, hstart, Nat.add_assoc, Nat.add_assoc, hf, Nat.add_assoc, Nat.add_assoc]

end Reads

end Testwright.Java
