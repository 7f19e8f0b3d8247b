import Testwright.Proofs.Java.Excerpts
import Testwright.Proofs.Java.Stripping

/-!
# Texts of members

A text spells members if its tokens are matched as members wherever it stands (`Spells`). The text of a member
does, and members may follow one another, with blanks between them. Around a text that spells members, the
header of a declaration and braces spell a declaration (`Frame.spells`), and what spells elements is accepted
by the parser (`Spells.isSome_parse?`).
-/

namespace Testwright.Java

/-- Whether the header of a declaration ends in a line comment, which takes in what is put behind it. -/
def Tree.hasOpenHeader (source : List Char) (decl : Tree) : Bool :=
  match tokens? source, decl.child? .body with
  | some ts, some body =>
    (ts.takeWhile fun t => t.stop ≤ body.start).getLast?.any fun t => t.lexeme == .comment .lineComment
  | _, _ => false

theorem Tree.hasOpenHeader_stripped (source : List Char) (t : Tree) :
    t.stripped.hasOpenHeader source = t.hasOpenHeader source := by
  rw [hasOpenHeader, hasOpenHeader, child?_stripped]
  cases tokens? source with
  | none => rfl
  | some ts => cases t.child? .body <;> simp

namespace Grammar

open Rule Token

/-- Tokens that are matched as repetitions of a rule in front of others. -/
def Yields (ν : Rule Variable) (ts : List Token) : Prop :=
  ∀ us ms rest, eval grammar (.many ν) us = some (ms, rest) →
    ∃ ms', eval grammar (.many ν) (ts ++ us) = some (ms', rest)

/-- A text whose tokens are matched as repetitions of a rule, wherever it stands. -/
def Spells (ν : Rule Variable) (u : List Char) : Prop :=
  ∀ x pos, ∃ ts, Reads x pos u ts ∧ Yields ν (code ts)

variable {ν : Rule Variable} {source u v : List Char} {H X ts us all : List Token} {m : Tree}

namespace Yields

theorem nil : Yields ν [] := fun _ ms _ h => ⟨ms, h⟩

theorem append (h : Yields ν ts) (h' : Yields ν us) : Yields ν (ts ++ us) := by
  intro vs ms rest hvs
  obtain ⟨ms', hus⟩ := h' vs ms rest hvs
  rw [List.append_assoc]
  exact h _ ms' rest hus

theorem of_eval (hready : (many ν).Ready known cost)
    (h : ∀ us, ∃ xs, eval grammar ν (ts ++ us) = some (xs, us)) : Yields ν ts := by
  intro us ms rest hus
  obtain ⟨xs, hxs⟩ := h us
  refine ⟨xs ++ ms, ?_⟩
  rw [eval_many paced hready, hxs]
  exact congrArg (Option.map (andThen xs)) hus

end Yields

namespace Spells

theorem blank (h : ∀ c ∈ u, isSpace c = true) : Spells ν u := fun _ _ => ⟨[], .blank h, .nil⟩

theorem append (h : Spells ν u) (h' : Spells ν v) : Spells ν (u ++ v) := by
  intro x pos
  obtain ⟨ts, hts, hyields⟩ := h (v ++ x) pos
  obtain ⟨us, hus, hyields'⟩ := h' x (pos + u.length)
  exact ⟨ts ++ us, hts.append hus, by rw [code_append]; exact hyields.append hyields'⟩

theorem flatten {l : List (List Char)} (h : ∀ u ∈ l, Spells ν u) : Spells ν l.flatten := by
  induction l with
  | nil => exact blank nofun
  | cons u l ih =>
    obtain ⟨hu, hl⟩ := List.forall_mem_cons.1 h
    exact hu.append (ih hl)

/-- What is matched wherever it stands may be put anywhere. -/
theorem of_portable (hready : (many ν).Ready known cost) (hX : Retains ν X)
    (h : Portable (fun _ => True) u X) : Spells ν u := by
  intro x pos
  obtain ⟨f, ts, hts, hcode, hsteady⟩ := h x pos trivial
  exact ⟨ts, hts, hcode ▸ .of_eval hready fun us => hX f us hsteady⟩

/-- A text of elements is accepted. -/
theorem isSome_parse? (h : Spells element u) : (parse? u).isSome = true := by
  obtain ⟨ts, hts, hyields⟩ := h [] 0
  obtain ⟨ms, heval⟩ := hyields [] [] [] eval_elements_nil
  rw [List.append_nil] at heval
  rw [parse?_of_eval (tokens?_of_reads hts) heval]
  rfl

end Spells

/-- A header in front of members in braces declares a class. -/
theorem Frame.spells (h : Frame ν H X m) (hheader : Portable Stopped u H) (hv : Spells ν v) :
    Spells element (u ++ ([' ', '\x7b'] ++ (v ++ ['\x7d']))) := by
  intro x pos
  obtain ⟨f, hs, hhs, hcode, hsteady⟩ := hheader ([' ', '\x7b'] ++ (v ++ ['\x7d']) ++ x) pos (.cons (by decide))
  let a : Token := ⟨.symbol, "\x7b", pos + u.length + 1, pos + u.length + 2⟩
  have ha : Reads (v ++ ['\x7d'] ++ x) (pos + u.length) [' ', '\x7b'] [a] :=
    .mark [' '] [] (by decide) (by simp [isSpace]) nofun
  obtain ⟨ts, hts, hyields⟩ := hv (['\x7d'] ++ x) (pos + u.length + 2)
  let c : Token :=
    ⟨.symbol, "\x7d", pos + u.length + 2 + v.length, pos + u.length + 2 + v.length + 1⟩
  have hc : Reads x (pos + u.length + 2 + v.length) ['\x7d'] [c] :=
    .mark [] [] (by decide) nofun nofun
  refine ⟨hs ++ ([a] ++ (ts ++ [c])), hhs.append (ha.append (hts.append hc)), ?_⟩
  have hcode_all : code (hs ++ ([a] ++ (ts ++ [c]))) = H.map (Token.move f) ++ a :: (code ts ++ [c]) := by
    rw [code_append, code_append, code_append, hcode]
    rfl
  rw [hcode_all]
  refine .of_eval ready_elements fun us => ?_
  have hclose : eval grammar (.many ν) (c :: us) = some ([], c :: us) := by
    rw [eval_many paced h.ready, h.closes c us rfl]
  obtain ⟨ms, hmany⟩ := hyields (c :: us) [] (c :: us) hclose
  obtain ⟨xs, hxs⟩ := h.rebuilds f a c (code ts) us ms hsteady rfl rfl hmany
  refine ⟨xs, eval_element_of_declaration ?_⟩
  simpa using hxs

/-! ## Parts of a text -/

variable (htokens : tokens? source = some all)
include htokens

/-- The text of a member is read as its tokens, with the comments between them. -/
theorem Segment.exists_reads (h : Segment ν X m) (hX : X <:+: code all) : ∃ a B back,
    Reads back a.start (m.chars source) (a :: B) ∧ code (a :: B) = X ∧ a ∈ X.head? ∧
      (a :: B).getLast? = X.getLast? ∧ Neat (m.chars source) := by
  obtain ⟨b, hb, hmark⟩ := h.ends
  obtain ⟨a, ha, hstart⟩ := h.spanned.start
  have hne : X ≠ [] := by
    rintro rfl
    cases hb
  obtain ⟨A, B, C, rfl, rfl, hhead, hlast⟩ := exists_with_comments hX hne
  have hfirst := ha
  rw [Option.mem_def, ← hhead, List.head?_eq_some_iff] at hfirst
  obtain ⟨B, rfl⟩ := hfirst
  obtain ⟨u, back, hdrop, hreads, -, hstop, hneat⟩ := exists_excerpt htokens
  have hb' : b ∈ (a :: B).getLast? := hlast ▸ hb
  have hchars : m.chars source = u := by
    obtain ⟨b', hb'', hstop'⟩ := h.spanned.stop
    cases hb.symm.trans hb''
    rw [Tree.chars, Tree.slice, ← hstart, ← hstop', hstop b hb', hdrop, Nat.add_sub_cancel_left,
      List.take_left]
  rw [hchars]
  refine ⟨a, B, back, hreads, rfl, ha, hlast, hneat fun b' hb'' => ?_⟩
  cases hb'.symm.trans hb''
  intro hcomment
  rw [Token.mark, hcomment] at hmark
  exact absurd hmark (show "" ∉ marks by decide)

/-- The text of a member may be put among the members of any declaration that has such members. -/
theorem Segment.spells (h : Segment ν X m) (hready : (many ν).Ready known cost) (hX : X <:+: code all) :
    Spells ν (m.chars source) ∧ Neat (m.chars source) := by
  obtain ⟨a, B, back, hreads, hcode, -, hlast, hneat⟩ := h.exists_reads htokens hX
  obtain ⟨b, hb, hmark⟩ := h.ends
  have hportable := hreads.portable_of_mark ⟨b, hlast ▸ hb, hmark⟩
  rw [hcode] at hportable
  exact ⟨.of_portable hready h.retains hportable, hneat⟩

/-- The text of a member begins with a visible character that is no closing brace. -/
theorem Segment.exists_first (h : Segment ν X m) (hX : X <:+: code all) : ∃ ch ∈ (m.chars source).head?,
    Text.isBlank ch = false ∧ ch ≠ '\x7d' := by
  obtain ⟨a, B, back, hreads, -, ha, -, hneat⟩ := h.exists_reads htokens hX
  obtain ⟨ch, rest, hchars⟩ := List.exists_cons_of_ne_nil hneat.full
  have hfirst : ch ∈ (m.chars source).head? := by
    rw [hchars]
    rfl
  refine ⟨ch, hfirst, hneat.first ch hfirst, ?_⟩
  rintro rfl
  rw [hchars] at hreads
  have hmark : a.mark = "\x7d" := hreads.mark_of_char (by decide)
  exact h.begins a ha (hmark ▸ by decide)

/-- The header of a declaration may be put in front of other members unless it ends in a line comment. -/
theorem Frame.portable (h : Frame ν H X m) (hspan : m.SpannedBy X) (hX : X <:+: code all)
    (hopen : m.hasOpenHeader source = false) : Portable Stopped (m.header source) H ∧ Neat (m.header source) := by
  obtain ⟨a, body, hfront, hmark, hbody, hplace⟩ := h.body
  -- the tokens in front of the brace, comments included, are those of the header
  obtain ⟨A, t, B, C, rfl, rfl, ht⟩ := exists_in_front (hfront.isInfix.trans hX) h.nonempty
  obtain ⟨u, back, hdrop, hreads, hback, hstop, hneat⟩ := exists_excerpt htokens
  have hstart : m.start = t.start := by
    obtain ⟨R, rfl⟩ := hfront
    obtain ⟨a', ha', hstart⟩ := hspan.start
    rw [List.append_assoc, List.head?_append_of_ne_nil _ h.nonempty, Option.mem_def.1 ht] at ha'
    cases ha'
    exact hstart.symm
  have hline : ∀ b ∈ (t :: B).getLast?, b.lexeme ≠ .comment .lineComment := by
    refine (tokens?_placed htokens).last_ne_lineComment ?_
    simpa only [Tree.hasOpenHeader, htokens, hbody, hplace] using hopen
  have hheader : m.header source = u := by
    simp only [Tree.header, hbody, hstart, hplace]
    exact (hneat hline).trimEnd_slice hdrop hback
  rw [hheader]
  exact ⟨hreads.portable_of_stopped (hback.stopped (hmark ▸ by decide)) hline, hneat hline⟩

end Grammar

end Testwright.Java
