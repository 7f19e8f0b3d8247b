import Testwright.Proofs.Java.Remnants

/-!
# What pruning leaves of a text

What stands in front of the members of a class moves as one, and so does the bracket behind them
(`Prunable.left_of_declaration`). What is left of the members is matched in front of that bracket: `Prune.Remnant` says
so of some members in a row, and that the nodes made of it have the profiles that pruning leaves (`Prune.Echoes`). So by
induction on how declarations are matched, each is matched in the result as well (`Prunable.exists_left`), and a text of
declarations is left as one with the profiles that pruning leaves (`Prunable.exists_result`).
-/

namespace Testwright.Java

open Grammar Rule Token Tree

variable {source : List Char} {wanted : Names} {root t u : Tree} {all : List Token}

/-! ## What is left of nodes -/

namespace Prune

variable (source wanted root all)

/-- Nodes of the result without comments stand for nodes of the text: with the comments of the result in them, they
have the profiles that pruning leaves. -/
def Echoes (inInterface : Bool) (us zs : List Tree) : Prop :=
  ∀ vs : List Tree, vs.map stripped = zs → (∀ v ∈ vs, v.Forall (Dressed (remarks (left source wanted root all)))) →
    vs.filterMap (profile? (out source wanted root) inInterface) =
        (us.filterMap (profile? source inInterface)).filterMap (Profile.pruned? wanted) ∧
      vs.flatMap (Tree.profiles (out source wanted root)) =
        (us.flatMap (Tree.profiles source)).filterMap (Profile.pruned? wanted)

/-- What is left of the tokens of some nodes is matched as nodes that stand for them, whatever follows. -/
def Remnant (ν : Rule Variable) (inInterface : Bool) (X : List Token) (us : List Tree) : Prop :=
  ∀ ts found, eval grammar (.many ν) ts = some found → ∃ zs,
    eval grammar (.many ν) (left source wanted root X ++ ts) = some (zs ++ found.1, found.2) ∧
      Echoes source wanted root all inInterface us zs

variable {source wanted root all} {inInterface : Bool} {us us' zs zs' : List Tree} {X Y : List Token} {z : Tree}
  {ν : Rule Variable}

theorem Echoes.of_one (h : ∀ v : Tree, v.stripped = z → v.Forall (Dressed (remarks (left source wanted root all))) →
    v.profile? (out source wanted root) inInterface = (u.profile? source inInterface).bind (Profile.pruned? wanted) ∧
      v.profiles (out source wanted root) = (u.profiles source).filterMap (Profile.pruned? wanted)) :
    Echoes source wanted root all inInterface [u] [z] := by
  intro vs hvs hdressed
  obtain ⟨v, rfl, hv⟩ := List.map_eq_singleton_iff.1 hvs
  obtain ⟨hown, hnested⟩ := h v hv (hdressed v (List.mem_singleton_self v))
  refine ⟨?_, by simpa using hnested⟩
  cases hp : u.profile? source inInterface with
  | none => simp [hown, hp]
  | some p => cases hpruned : p.pruned? wanted <;> simp [hown, hp, hpruned]

/-- Nothing stands for a node without profiles that stay. -/
theorem Echoes.of_none (hown : (u.profile? source inInterface).bind (Profile.pruned? wanted) = none)
    (hnested : u.profiles source = []) : Echoes source wanted root all inInterface [u] [] := by
  intro vs hvs _
  rw [List.map_eq_nil_iff] at hvs
  subst hvs
  cases hp : u.profile? source inInterface with
  | none => simp [hp, hnested]
  | some p =>
    rw [hp, Option.bind_some] at hown
    simp [hp, hnested, hown]

/-- A class stands for a class if what it holds stands for what that holds. -/
theorem Echoes.of_houses {ds : List Tree} (hclass : t.isClassLike = true) (hkind : z.kind = t.kind)
    (hhouses : z.Houses zs) (hprofiles : t.profiles source =
      ds.filterMap (profile? source (t.kind == .interfaceDeclaration)) ++ ds.flatMap (Tree.profiles source))
    (h : Echoes source wanted root all (t.kind == .interfaceDeclaration) ds zs) :
    Echoes source wanted root all inInterface [t] [z] := by
  refine .of_one fun v hv hdressed => ?_
  have hkind_v : v.kind = t.kind := by rw [← kind_stripped, hv, hkind]
  have hclass_v : v.isClassLike = true := by rwa [isClassLike_eq, hkind_v, ← isClassLike_eq]
  obtain ⟨vs, hvs, hstripped, hprofiles_v⟩ := (hv ▸ hhouses).exists_nodes hclass_v
  have hinterior := forall_interior (t := v) fun _ hu => hdressed.of_mem hu
  obtain ⟨hown, hnested⟩ := h vs hstripped fun w hw => hinterior w (hvs w hw).1
  rw [profile?_of_isClassLike hclass, profile?_of_isClassLike hclass_v, hprofiles, hprofiles_v, hkind_v,
    List.filterMap_append, hown, hnested]
  exact ⟨rfl, rfl⟩

theorem Echoes.nil : Echoes source wanted root all inInterface [] [] := by
  intro vs hvs _
  rw [List.map_eq_nil_iff] at hvs
  subst hvs
  exact ⟨rfl, rfl⟩

theorem Echoes.append (h : Echoes source wanted root all inInterface us zs)
    (h' : Echoes source wanted root all inInterface us' zs') :
    Echoes source wanted root all inInterface (us ++ us') (zs ++ zs') := by
  intro vs hvs hdressed
  obtain ⟨vs, vs', rfl, rfl, rfl⟩ := List.map_eq_append_iff.1 hvs
  obtain ⟨hdressed, hdressed'⟩ := List.forall_mem_append.1 hdressed
  obtain ⟨hown, hnested⟩ := h vs rfl hdressed
  obtain ⟨hown', hnested'⟩ := h' vs' rfl hdressed'
  simp [hown, hown', hnested, hnested']

/-- What is matched by a rule wherever it stands is one node of those that the rule repeats. -/
theorem Remnant.of_eval (hready : (many ν).Ready known cost)
    (h : ∀ ts, ∃ z, eval grammar ν (left source wanted root X ++ ts) = some ([z], ts) ∧
      Echoes source wanted root all inInterface [u] [z]) :
    Remnant source wanted root all ν inInterface X [u] := by
  intro ts found hmany
  obtain ⟨z, heval, hechoes⟩ := h ts
  refine ⟨[z], ?_, hechoes⟩
  rw [eval_many paced hready, heval]
  simp only [hmany]
  rfl

/-- Nodes that are left one by one are left one after the other. -/
theorem remnant_of_forall {l : List (List Token × Tree)} {ds : List Tree} (hds : ds.map stripped = l.map Prod.snd)
    (h : ∀ x ∈ l, ∀ d ∈ ds, d.stripped = x.2 → Remnant source wanted root all ν inInterface x.1 [d]) :
    Remnant source wanted root all ν inInterface (l.map Prod.fst).flatten ds := by
  induction l generalizing ds with
  | nil =>
    cases List.map_eq_nil_iff.1 hds
    exact fun ts found heval => ⟨[], heval, .nil⟩
  | cons x l ih =>
    obtain ⟨d, ds, rfl, hd, hds⟩ := List.map_eq_cons_iff.1 hds
    intro ts found heval
    have hlater := ih hds fun y hy d hd => h y (List.mem_cons_of_mem x hy) d (List.mem_cons_of_mem _ hd)
    obtain ⟨zs', heval', hechoes'⟩ := hlater ts found heval
    obtain ⟨zs, heval, hechoes⟩ := h x List.mem_cons_self d List.mem_cons_self hd _ _ heval'
    refine ⟨zs ++ zs', ?_, hechoes.append hechoes'⟩
    rw [List.map_cons, List.flatten_cons, left_append, List.append_assoc, heval, List.append_assoc]

end Prune

/-! ## Declarations -/

/-- The members of a class stand behind what is in front of them and in front of what is behind. -/
theorem between_of_houses {F : List Token} {c y : Token} {ν : Rule Variable} {l : List (List Token × Tree)}
    (hplaced : Placed source (F ++ (l.map Prod.fst).flatten ++ [c])) (hhouses : t.stripped.Houses (l.map Prod.snd))
    (hinner : ∀ x ∈ l, Kept ν x.1 x.2) (hy : y ∈ F) (hu : u ∈ t.members) (hnote : u.isNote = false) :
    y.stop ≤ u.start ∧ u.stop ≤ c.start := by
  obtain ⟨hplaced, -, hbefore⟩ := hplaced.of_append
  obtain ⟨-, -, hbetween⟩ := hplaced.of_append
  obtain ⟨x, hx, heq⟩ := List.mem_map.1 (hhouses.mem (mem_members_stripped hu hnote))
  have hspanned := (hinner x hx).segment.spanned
  rw [heq] at hspanned
  obtain ⟨a, ha, hstart⟩ := hspanned.start
  obtain ⟨b, hb, hstop⟩ := hspanned.stop
  have hmem : ∀ w ∈ x.1, w ∈ (l.map Prod.fst).flatten := fun w hw =>
    List.mem_flatten_of_mem (List.mem_map_of_mem hx) hw
  rw [← start_stripped u, ← stop_stripped u, ← hstart, ← hstop]
  exact ⟨hbetween y hy a (hmem a (List.mem_of_mem_head? ha)),
    hbefore b (List.mem_append_right F (hmem b (List.mem_of_getLast? hb))) c (List.mem_singleton_self c)⟩

namespace Prunable

open Prune

variable {F P Q X : List Token} {ν μ : Rule Variable} {m : Tree} {inInterface : Bool}
  (h : Prunable source wanted root all)
include h

/-- A node that is not edited stands for itself. -/
theorem echoes_of_free (hX : Segment ν X u.stripped) (hcode : code all = P ++ (X ++ Q))
    (hfree : Free source wanted root u.start u.stop) (hu : Settled source all u) (hnote : u.isNote = false)
    (hhollow : u.isClassLike = true → u.stripped.members = [])
    (hstay : (u.profile? source inInterface).bind (Profile.pruned? wanted) = u.profile? source inInterface) :
    Echoes source wanted root all inInterface [u] [u.stripped.move (shift source wanted root u.start)] := by
  refine .of_one fun v hv hdressed => ⟨?_, ?_⟩
  · rw [hstay, h.profile?_eq hX hcode hfree hu hnote hv hdressed]
  · have hclass : v.isClassLike = u.isClassLike := by
      rw [← isClassLike_stripped, hv, isClassLike_eq, kind_move, kind_stripped, isClassLike_eq]
    rw [profiles_eq_nil hhollow, profiles_eq_nil fun hclass_v => ?_]
    · rfl
    · rw [hv, members_move, hhollow (hclass.symm.trans hclass_v)]
      rfl

theorem remnant_of_isRemoved {n : Member} (hn : n ∈ Member.all root) (hremoved : n.isRemoved source wanted = true)
    (hX : Segment ν X n.node.stripped) (hcode : code all = P ++ (X ++ Q)) :
    Remnant source wanted root all ν (n.decl.kind == .interfaceDeclaration) X [n.node] := by
  have hleft := h.left_of_isRemoved hn hremoved hX hcode
  have hclass : n.node.isClassLike = false := by
    rw [isClassLike_eq]
    rcases Member.kind_of_isRemoved hremoved with hkind | hkind <;> exact hkind ▸ rfl
  exact fun ts found heval => ⟨[], by rwa [hleft],
    .of_none (Member.pruned?_of_isRemoved hremoved) (profiles_of_not_isClassLike hclass)⟩

theorem remnant_of_isStubbed {n : Member} (hn : n ∈ Member.all root) (hremoved : n.isRemoved source wanted = false)
    (hstubbed : n.isStubbed source wanted = true) (hsettled : Settled source all n.node) (hν : ν ∈ memberRules)
    (hX : Segment ν X n.node.stripped) (hcode : code all = P ++ (X ++ Q)) :
    Remnant source wanted root all ν (n.decl.kind == .interfaceDeclaration) X [n.node] := by
  have hkind := Member.kind_of_isStubbed hstubbed
  have hclass {v : Tree} (hv : v.kind = .methodDeclaration) : v.isClassLike = false := by
    rw [isClassLike_eq]
    exact hv ▸ rfl
  obtain ⟨o, -, rfl, -⟩ := exists_opening_of_segment h.tokens hX hcode hkind hsettled.nested hsettled.dressed
  obtain ⟨s, heval⟩ := h.eval_of_isStubbed hn hstubbed o hν
  refine .of_eval (ready_memberRules ν hν) fun ts => ⟨_, heval ts, .of_one fun v hv hdressed => ⟨?_, ?_⟩⟩
  · rw [h.profile?_of_isStubbed hn hstubbed o hsettled hv hdressed]
    exact (Member.pruned?_of_isStubbed hremoved hstubbed).symm
  · have hkind_v : v.kind = .methodDeclaration := by rw [← kind_stripped, hv]; rfl
    rw [profiles_of_not_isClassLike (hclass hkind_v), profiles_of_not_isClassLike (hclass hkind)]
    rfl

/-- What is left of a node in the body of a class, where classes inside are left as the induction says. -/
theorem remnant_of_mem_interior (hclass : t.isClassLike = true) (ht : Settled source all t)
    (henclosed : Enclosed source wanted root t) (hu : u ∈ t.interior) (hν : ν ∈ memberRules)
    (hX : Segment ν X u.stripped) (hcode : code all = P ++ (X ++ Q)) (ih : Enclosed source wanted root u → ∀ ts, ∃ z,
      eval grammar ν (left source wanted root X ++ ts) = some ([z], ts) ∧ ∀ inInterface,
        (u.profile? source inInterface).bind (Profile.pruned? wanted) = u.profile? source inInterface →
          Echoes source wanted root all inInterface [u] [z]) :
    Remnant source wanted root all ν (t.kind == .interfaceDeclaration) X [u] := by
  have hmem (hnamed : u.kind.named = true) : Member.mk t u ∈ Member.all root :=
    henclosed.members _ (Member.mem_below.2 ⟨hclass, .inl ⟨rfl, members_eq t ▸ List.mem_filter.2 ⟨hu, hnamed⟩⟩⟩)
  cases hremoved : (Member.mk t u).isRemoved source wanted with
  | true =>
    have hnamed : u.kind.named = true := by
      rcases Member.kind_of_isRemoved hremoved with hkind | hkind <;> exact hkind ▸ rfl
    exact h.remnant_of_isRemoved (hmem hnamed) hremoved hX hcode
  | false =>
    cases hstubbed : (Member.mk t u).isStubbed source wanted with
    | true =>
      have hnamed : u.kind.named = true := Member.kind_of_isStubbed hstubbed ▸ rfl
      exact h.remnant_of_isStubbed (hmem hnamed) hremoved hstubbed (ht.of_mem_interior hclass hu) hν hX hcode
    | false =>
      have hnone := Member.edit?_eq_none hremoved hstubbed
      refine .of_eval (ready_memberRules ν hν) fun ts => ?_
      obtain ⟨z, heval, hechoes⟩ := ih (henclosed.of_mem_interior hclass ht hu hnone) ts
      exact ⟨z, heval, hechoes _ (Member.pruned?_of_neither hremoved hstubbed)⟩

/-- What stands in front of the members of a class and behind them moves. -/
theorem left_of_declaration {c : Token} {l : List (List Token × Tree)} (hX : Segment μ X t.stripped)
    (hsplit : X = F ++ (l.map Prod.fst).flatten ++ [c]) (hhouses : t.stripped.Houses (l.map Prod.snd))
    (hinner : ∀ x ∈ l, Kept ν x.1 x.2) (hfull : F ≠ []) (hcode : code all = P ++ (X ++ Q))
    (ht : Settled source all t) (henclosed : Enclosed source wanted root t) : ∃ f g, Steady f F ∧
      left source wanted root X =
        F.map (Token.move f) ++ (left source wanted root (l.map Prod.fst).flatten ++ [c.move g]) := by
  obtain ⟨x, hx, hstart⟩ := hX.spanned.start
  obtain ⟨z, hz, hstop⟩ := hX.spanned.stop
  obtain ⟨y, hy⟩ := Option.isSome_iff_exists.1 (List.getLast?_isSome.2 hfull)
  rw [hsplit, List.append_assoc, List.head?_append_of_ne_nil _ hfull] at hx
  rw [hsplit, List.getLast?_concat] at hz
  cases hz
  rw [start_stripped] at hstart
  rw [stop_stripped] at hstop
  have hcode_F : code all = P ++ (F ++ ((l.map Prod.fst).flatten ++ [c] ++ Q)) := by
    rw [hcode, hsplit]
    simp
  have hcode_c : code all = P ++ F ++ (l.map Prod.fst).flatten ++ ([c] ++ Q) := by
    rw [hcode, hsplit]
    simp
  obtain ⟨-, -, -, -, -, -, -, -, hfirm_F⟩ := h.exists_run hcode_F hx hy
  have hc : c ∈ [c].getLast? := rfl
  obtain ⟨-, -, -, -, -, -, -, -, hfirm_c⟩ := h.exists_run hcode_c rfl hc
  have hplaced : Placed source (code all) := h.placed.filter _
  rw [hcode, hsplit] at hplaced
  have hplaced := hplaced.of_append.2.1.of_append.1
  have hy_mem := List.mem_of_getLast? hy
  have hle := hplaced.of_append.2.2 y (List.mem_append_left _ hy_mem) c (List.mem_singleton_self c)
  have hlt_F := hfirm_F.nonempty
  have hlt_c := hfirm_c.nonempty
  have hfree_F : Free source wanted root x.start y.stop :=
    henclosed.free ht hfirm_F (by omega) (by omega) fun _ u hu hnote =>
      .inl (between_of_houses hplaced hhouses hinner hy_mem hu hnote).1
  have hfree_c : Free source wanted root c.start c.stop :=
    henclosed.free ht hfirm_c (by omega) (by omega) fun _ u hu hnote =>
      .inr (between_of_houses hplaced hhouses hinner hy_mem hu hnote).2
  obtain ⟨hleft_F, hsteady⟩ := h.left_run hcode_F hx hy hfree_F
  obtain ⟨hleft_c, -⟩ := h.left_run hcode_c rfl hc hfree_c
  refine ⟨_, shift source wanted root c.start, hsteady, ?_⟩
  rw [hsplit, left_append, left_append, hleft_F, hleft_c, List.append_assoc]
  rfl

/-- A declaration is matched in the result with what is left of its members; the induction is on how it is matched in
the text. -/
theorem exists_left (hkept : Kept μ X m) (hm : t.stripped = m) (hnote : t.isNote = false)
    (hcode : code all = P ++ (X ++ Q)) (ht : Settled source all t) (henclosed : Enclosed source wanted root t)
    (ts : List Token) : ∃ z, eval grammar μ (left source wanted root X ++ ts) = some ([z], ts) ∧ ∀ inInterface,
      (t.profile? source inInterface).bind (Profile.pruned? wanted) = t.profile? source inInterface →
        Echoes source wanted root all inInterface [t] [z] := by
  induction hkept generalizing t P Q ts with
  | @plain μ X m segment hollow =>
    subst hm
    rw [isClassLike_stripped] at hollow
    have hfree := henclosed.free_of_hollow ht hollow
    exact ⟨_, h.eval_left segment hcode hfree ts, fun _ => h.echoes_of_free segment hcode hfree ht hnote hollow⟩
  | @declaration μ ν F X c m l segment hclass split close houses inner shell frame ih =>
    subst hm
    rw [isClassLike_stripped] at hclass
    obtain ⟨ds, hds, hstripped, hprofiles⟩ := houses.exists_nodes hclass
    have hmembers : Remnant source wanted root all ν (t.kind == .interfaceDeclaration) (l.map Prod.fst).flatten ds :=
      remnant_of_forall hstripped fun x hx d hd heq => by
        obtain ⟨l₁, l₂, rfl⟩ := List.append_of_mem hx
        have hcode' : code all = P ++ F ++ (l₁.map Prod.fst).flatten ++
            (x.1 ++ ((l₂.map Prod.fst).flatten ++ [c] ++ Q)) := by
          rw [hcode, split]
          simp
        obtain ⟨hd, hnote⟩ := hds d hd
        exact h.remnant_of_mem_interior hclass ht henclosed hd shell.host (heq ▸ (inner x hx).segment) hcode'
          (ih x hx heq hnote hcode' (ht.of_mem_interior hclass hd))
    obtain ⟨y, hy, -⟩ := shell.last
    obtain ⟨f, g, hsteady, hleft⟩ := h.left_of_declaration segment split houses inner
      (List.ne_nil_of_mem (List.mem_of_getLast? hy)) hcode ht henclosed
    have hclose : eval grammar (.many ν) (c.move g :: ts) = some ([], c.move g :: ts) :=
      eval_many_of_close shell.host close
    obtain ⟨zs, hmany, hechoes⟩ := hmembers _ _ hclose
    rw [List.append_nil] at hmany
    obtain ⟨z, heval, hkind, hhouses⟩ := shell.rebuilds f (c.move g) _ ts zs hsteady close hmany
    refine ⟨z, ?_, fun _ _ => .of_houses hclass (hkind.trans (kind_stripped t)) hhouses (hprofiles source) hechoes⟩
    rw [hleft]
    simpa using heval

end Prunable

/-! ## Texts -/

/-- Whether a text consists of declarations and semicolons, comments apart. -/
def Tree.isUnit (root : Tree) : Bool := root.children.all fun t => t.isNote || isUsual t.kind

namespace Prunable

open Prune

variable {P Q X : List Token} (h : Prunable source wanted root all)
include h

theorem settled_of_mem_root (ht : t ∈ root.children) : Settled source all t where
  nested := ((wellNested_iff.1 h.laidOut.nested).2.of_mem ht).2.2
  sits := h.laidOut.nodes t ht
  dressed := parse?_dressed h.parsed h.tokens t ht

theorem enclosed_of_mem_root (ht : t ∈ root.children) : Enclosed source wanted root t :=
  .of_mem_root h.laidOut.nested (fun _ => h.settled_of_mem_root) ht

/-- What is left of a declaration of a text, or of a semicolon. -/
theorem remnant_of_mem_root (ht : t ∈ root.children) (hnote : t.isNote = false) (husual : isUsual t.kind = true)
    (helement : Element X t.stripped) (hcode : code all = P ++ (X ++ Q)) :
    Remnant source wanted root all element false X [t] := by
  have hsettled := h.settled_of_mem_root ht
  have henclosed := h.enclosed_of_mem_root ht
  refine .of_eval ready_elements fun ts => ?_
  generalize hm : t.stripped = m at helement
  cases helement with
  | kept kept =>
    obtain ⟨z, heval, hechoes⟩ := h.exists_left kept hm hnote hcode hsettled henclosed ts
    have hnone : t.profile? source false = none := by
      refine profile?_eq_none (fun hkind => ?_) fun hkind => ?_ <;>
      · rw [hkind] at husual
        cases husual
    exact ⟨z, eval_element_of_declaration heval, hechoes false (by rw [hnone]; rfl)⟩
  | @semicolon s mark =>
    have hkind : t.kind = .token ";" := by
      rw [← kind_stripped, hm]
      rfl
    have hclass {v : Tree} (hv : v.kind = .token ";") : v.isClassLike = false := by
      rw [isClassLike_eq]
      exact hv ▸ rfl
    have hfree := henclosed.free_of_hollow hsettled fun hclass_t => by cases (hclass hkind).symm.trans hclass_t
    rw [← start_stripped, ← stop_stripped, hm] at hfree
    obtain ⟨hleft, -⟩ := h.left_run hcode (x := s) (y := s) rfl rfl hfree
    refine ⟨leafOf ";" (s.move (shift source wanted root s.start)), ?_, .of_one fun v hv _ => ?_⟩
    · rw [hleft]
      exact eval_element_of_semicolon mark
    · have hkind_v : v.kind = .token ";" := by
        rw [← kind_stripped, hv]
        rfl
      have hnamed {v : Tree} (hv : v.kind = .token ";") : v.kind.named = false := hv ▸ rfl
      rw [profile?_of_not_named (hnamed hkind), profile?_of_not_named (hnamed hkind_v),
        profiles_of_not_isClassLike (hclass hkind), profiles_of_not_isClassLike (hclass hkind_v)]
      exact ⟨rfl, rfl⟩
  | other unusual =>
    rw [← hm, kind_stripped, husual] at unusual
    cases unusual

/-- A text of declarations is left as a text of declarations, with the profiles that pruning leaves. -/
theorem exists_result (hunit : root.isUnit = true) :
    ∃ root', parse? (out source wanted root) = some root' ∧ profiles (out source wanted root) root' =
      (profiles source root).filterMap (Profile.pruned? wanted) := by
  obtain ⟨_, xs, htokens, heval, rfl⟩ := parse?_eval h.parsed
  cases h.tokens.symm.trans htokens
  obtain ⟨l, hcode, hchildren, helement⟩ := exists_elements
    (fun t ht => sane_of_tokens? htokens t (List.mem_of_mem_filter ht)) heval
  rw [children_stripped] at hchildren
  rw [List.append_nil] at hcode
  have hremnant : Remnant source wanted root all element false (l.map Prod.fst).flatten
      (root.children.filter fun t => !t.isNote) :=
    remnant_of_forall hchildren fun x hx t ht heq => by
      obtain ⟨ht, hnote⟩ := List.mem_filter.1 ht
      have hnote : t.isNote = false := by simpa using hnote
      have husual := List.all_eq_true.1 hunit t ht
      rw [hnote, Bool.false_or] at husual
      obtain ⟨l₁, l₂, rfl⟩ := List.append_of_mem hx
      have hcode' : code all = (l₁.map Prod.fst).flatten ++ (x.1 ++ (l₂.map Prod.fst).flatten) := by
        rw [code, hcode]
        simp
      exact h.remnant_of_mem_root ht hnote husual (heq ▸ helement x hx) hcode'
  obtain ⟨zs, hzs, hechoes⟩ := hremnant [] _ eval_elements_nil
  rw [List.append_nil, List.append_nil, ← hcode, show all.filter (not ∘ isComment) = code all from rfl,
    ← code_left] at hzs
  have hparse := parse?_of_eval h.tokens?_out hzs
  refine ⟨_, hparse, ?_⟩
  generalize List.foldl _ _ _ = root' at hparse
  obtain ⟨_, zs', htokens', heval', hchildren'⟩ := parse?_eval hparse
  cases h.tokens?_out.symm.trans htokens'
  cases hzs.symm.trans heval'
  rw [children_stripped] at hchildren'
  have hdressed := parse?_dressed hparse h.tokens?_out
  rw [profiles_eq_flatMap_filter, profiles_eq_flatMap_filter]
  exact (hechoes _ hchildren' fun v hv => hdressed v (List.mem_of_mem_filter hv)).2

end Prunable

end Testwright.Java
