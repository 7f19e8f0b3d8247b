import Mathlib.Data.List.Nodup
import Testwright.Proofs.Project.Recording
import Testwright.Proofs.Text.Cutting

/-!
# The members that a context includes

The full context of a method is its class cut down to some members: constructors, accessors, methods
that the method calls, and the method itself at the end (`fullContext_assemble`). A called method
that is an accessor is left out among the called ones, but the method itself is never looked for:
if it is an accessor or calls itself it is there twice, and so is a called method whose class goes by
two names in the calls (`nodup_included`).
-/

namespace Testwright

/-! ## The place of a method -/

namespace Text

/-- A text that a longer text begins with, also when the first few characters of that are dropped,
is made of these characters. -/
theorem subset_of_append_eq {u s rest r : List Char} (hu : u ≠ []) (h : u ++ (s ++ rest) = s ++ r) :
    ∀ c ∈ s, c ∈ u := by
  induction s generalizing u with
  | nil => nofun
  | cons d s ih =>
    obtain ⟨e, u, rfl⟩ := List.exists_cons_of_ne_nil hu
    simp only [List.cons_append, List.cons.injEq] at h
    obtain ⟨rfl, h⟩ := h
    have htail := ih (u := u ++ [e]) (by simp) (by simpa using h)
    refine List.forall_mem_cons.2 ⟨List.mem_cons_self, fun c hc => ?_⟩
    have := htail c hc
    simp only [List.mem_append, List.mem_cons, List.not_mem_nil, or_false] at this ⊢
    exact this.symm

theorem dropPrefix?_eq_none {u s rest : List Char} (hu : u ≠ []) (hs : ∃ c ∈ s, c ∉ u) :
    dropPrefix? s (u ++ (s ++ rest)) = none := by
  obtain ⟨c, hc, hnot⟩ := hs
  refine Option.eq_none_iff_forall_ne_some.2 fun r hr => hnot ?_
  exact subset_of_append_eq hu (dropPrefix?_eq_some.1 hr) c hc

/-- In front of a closing brace on a line of its own a text occurs last, unless it is made of such
lines. -/
theorem cutLast?_closed {s : List Char} (front : List Char) (hs : ∃ c ∈ s, c ≠ '\n' ∧ c ≠ '\x7d') :
    cutLast? s (front ++ s ++ ['\n', '\x7d']) = some (front, ['\n', '\x7d']) := by
  obtain ⟨c, hc, hline, hbrace⟩ := hs
  have hmem : c ∈ s.reverse := List.mem_reverse.2 hc
  have hreverse : (front ++ s ++ ['\n', '\x7d']).reverse =
      '\x7d' :: '\n' :: (s.reverse ++ front.reverse) := by simp
  have hfirst : dropPrefix? s.reverse ('\x7d' :: '\n' :: (s.reverse ++ front.reverse)) = none :=
    dropPrefix?_eq_none (u := ['\x7d', '\n']) (by simp) ⟨c, hmem, by simp [hline, hbrace]⟩
  have hsecond : dropPrefix? s.reverse ('\n' :: (s.reverse ++ front.reverse)) = none :=
    dropPrefix?_eq_none (u := ['\n']) (by simp) ⟨c, hmem, by simp [hline]⟩
  rw [cutLast?, hreverse, cut?_cons hfirst, cut?_cons hsecond, cut?_append]
  simp

end Text

namespace Assembly

variable {σ : Type} {c : ClassInfo} {m : MethodInfo}

/-- Sources put in front of a method, with a blank line behind them. -/
def spaced (sources : String) : String :=
  match Text.trim sources.toList with
  | [] => ""
  | trimmed => .ofList (trimmed ++ ['\n', '\n'])

theorem fullContext_of_cut {d : Dossier} {front back : List Char} (hne : d.methodSource.toList ≠ [])
    (hcut : Text.cutLast? d.methodSource.toList d.context.toList = some (front, back)) :
    d.fullContext.toList =
      front ++ (spaced d.otherBodies).toList ++ d.methodSource.toList ++ back := by
  unfold Dossier.fullContext
  split
  · next hnil => exact absurd hnil hne
  · rw [hcut, String.toList_ofList, spaced]
    cases Text.trim d.otherBodies.toList with
    | nil => rfl
    | cons ch trimmed => rw [String.toList_ofList]

/-- Whatever the text in front of a method is, the other members are put at its end. -/
theorem fullContext_of_context {d : Dossier} {head : String}
    (hm : ∃ ch ∈ d.methodSource.toList, ch ≠ '\n' ∧ ch ≠ '\x7d')
    (hcontext : d.context = head ++ d.methodSource ++ "\n\x7d") :
    d.fullContext = head ++ spaced d.otherBodies ++ d.methodSource ++ "\n\x7d" := by
  have hcut : Text.cutLast? d.methodSource.toList d.context.toList =
      some (head.toList, ['\n', '\x7d']) := by
    rw [hcontext, String.toList_append, String.toList_append]
    exact Text.cutLast?_closed head.toList hm
  obtain ⟨ch, hch, -⟩ := hm
  rw [← String.toList_inj, fullContext_of_cut (List.ne_nil_of_mem hch) hcut]
  simp only [String.toList_append]
  rfl

/-- A text with a word in it is not made of closing braces and line breaks. -/
theorem unclosed_of_worded {s : String} (h : ∃ ch ∈ s.toList, Java.Token.isWordContinue ch = true) :
    ∃ ch ∈ s.toList, ch ≠ '\n' ∧ ch ≠ '\x7d' := by
  obtain ⟨ch, hch, hword⟩ := h
  refine ⟨ch, hch, ?_, ?_⟩ <;>
  · rintro rfl
    exact absurd hword (by decide)

/-- The texts of an assembled dossier are those of its class and method. -/
theorem texts_assemble (p : Project) (resolve : Resolve σ) (depth : Nat) (c : ClassInfo) (m : MethodInfo)
    (attempt : Nat) (s : σ) :
    (assemble p resolve depth c m attempt s).1.methodSource = m.source ∧
    (assemble p resolve depth c m attempt s).1.context = classHead c ++ m.source ++ "\n\x7d" ∧
    (assemble p resolve depth c m attempt s).1.otherBodies =
      String.join ((otherMembers c m).map fun o => o.2 ++ "\n\n") := by
  obtain ⟨st, steps, heq⟩ := filings_assemble p resolve depth c m attempt s
  rw [heq]
  exact ⟨congrArg Dossier.methodSource (core_filings steps), rfl, rfl⟩

/-- The full context of a method is the head of its class, the other members, the method and a
brace. -/
theorem fullContext_assemble (p : Project) (resolve : Resolve σ) (depth : Nat) (attempt : Nat) (s : σ)
    (hm : ∃ ch ∈ m.source.toList, ch ≠ '\n' ∧ ch ≠ '\x7d') :
    (assemble p resolve depth c m attempt s).1.fullContext =
      classHead c ++ spaced (String.join ((otherMembers c m).map fun o => o.2 ++ "\n\n")) ++
        m.source ++ "\n\x7d" := by
  obtain ⟨hsource, hcontext, hbodies⟩ := texts_assemble p resolve depth c m attempt s
  rw [← hsource] at hm hcontext ⊢
  rw [fullContext_of_context hm hcontext, hbodies]

/-- The full context of a method of a class in a source, alone in its project. -/
def contextIn? (source : List Char) (name signature : String) : Option String :=
  (Java.indexSource? source).bind fun classes =>
    (classes.find? fun c => c.fullName == name).bind fun c =>
      (c.method? signature).map fun m =>
        (assemble {} (Resolver.resolve {} {}) 0 c m 0 {}).1.fullContext

/-- A class whose header ends in a line comment. -/
def labelled : List Char :=
  "class Cart // goods\n\x7b\n    int total() \x7b return 1; \x7d\n\x7d\n".toList

/-- An enumeration with a method behind its constants. -/
def coin : List Char :=
  "enum Coin \x7b\n    CENT;\n    int value() \x7b return 1; \x7d\n\x7d\n".toList

/-- The head of a class is glued to its members without regard to what it ends in: the opening brace
becomes a part of a comment, and no semicolon stands for the constants of an enumeration. -/
theorem contexts_not_parsed : (Java.parse? labelled).isSome = true ∧
    contextIn? labelled "Cart" "total()" =
      some "\nclass Cart // goods \x7b\n\nint total() \x7b return 1; \x7d\n\x7d" ∧
    (contextIn? labelled "Cart" "total()").map (fun s => (Java.parse? s.toList).isSome) = some false ∧
    (Java.parse? coin).isSome = true ∧
    contextIn? coin "Coin" "value()" =
      some "\nenum Coin \x7b\n\nint value() \x7b return 1; \x7d\n\x7d" ∧
    (contextIn? coin "Coin" "value()").map (fun s => (Java.parse? s.toList).isSome) = some false := by
  have hlabelled : labelled = _ := Text.toList_literal rfl
  have hcoin : coin = _ := Text.toList_literal rfl
  rw [hlabelled, hcoin]
  decide +kernel

/-! ## The members -/

/-- A constructor or a method of a class, by its signature. -/
inductive Part where
  | constructor (signature : String)
  | method (signature : String)
  deriving DecidableEq, Repr

/-- The methods of its class that a method calls, without accessors. -/
def plainCallees (c : ClassInfo) (m : MethodInfo) : List MethodInfo :=
  (ownCallees c m).filter fun callee => !c.accessors.any fun a => a.source == callee.source

/-- The members in the full context of a method with their sources, the method itself last. -/
def included (c : ClassInfo) (m : MethodInfo) : List (Part × String) :=
  c.constructors.map (fun k => (.constructor k.signature, k.source)) ++
  c.accessors.map (fun a => (.method a.signature, a.source)) ++
  (plainCallees c m).map (fun callee => (.method callee.signature, callee.source)) ++
  [(.method m.signature, m.source)]

theorem sources_included : (included c m).map Prod.snd =
    (otherMembers c m).map Prod.snd ++ [m.source] := by
  simp [included, otherMembers, plainCallees, Function.comp_def]

/-- A method calls another one of its class, which is no accessor, under a name of the class. -/
structure CallsUnder (c : ClassInfo) (m : MethodInfo) (name : String) (callee : MethodInfo) : Prop where
  called : ∃ s, m.calls.Asks name s ∧ c.method? s = some callee
  plain : ∀ a ∈ c.accessors, a.source ≠ callee.source

/-- The methods called under one name that are no accessors. -/
def calleesOf (c : ClassInfo) (wanted : Names) : List MethodInfo :=
  (wanted.toList.filterMap c.method?).filter fun callee =>
    !c.accessors.any fun a => a.source == callee.source

theorem plainCallees_eq : plainCallees c m =
    (m.calls.edges.filter fun e => c.isNamed e.1).flatMap fun e => calleesOf c e.2 := by
  rw [plainCallees, ownCallees, List.filter_flatMap]
  rfl

theorem mem_calleesOf {name : String} {wanted : Names} (h : (name, wanted) ∈ m.calls.edges)
    {callee : MethodInfo} : callee ∈ calleesOf c wanted ↔ CallsUnder c m name callee := by
  have hget : m.calls.get? name = some wanted := Dict.mem_entries.1 h
  simp only [calleesOf, List.mem_filter, List.mem_filterMap, Names.mem_toList]
  constructor
  · rintro ⟨⟨s, hs, hcallee⟩, hplain⟩
    exact ⟨⟨s, ⟨wanted, hget, hs⟩, hcallee⟩, by simpa using hplain⟩
  · rintro ⟨⟨s, ⟨asked, hasked, hs⟩, hcallee⟩, hplain⟩
    cases hget.symm.trans hasked
    exact ⟨⟨s, hs, hcallee⟩, by simpa using hplain⟩

theorem mem_plainCallees {callee : MethodInfo} : callee ∈ plainCallees c m ↔
    ∃ name, c.isNamed name = true ∧ CallsUnder c m name callee := by
  simp only [plainCallees_eq, List.mem_flatMap, List.mem_filter]
  constructor
  · rintro ⟨e, ⟨he, hname⟩, hcallee⟩
    exact ⟨e.1, hname, (mem_calleesOf he).1 hcallee⟩
  · rintro ⟨name, hname, hcallee⟩
    obtain ⟨s, ⟨wanted, hget, -⟩, -⟩ := hcallee.called
    have he : (name, wanted) ∈ m.calls.edges := Dict.mem_entries.2 hget
    exact ⟨_, ⟨he, hname⟩, (mem_calleesOf he).2 hcallee⟩

theorem sublist_filterMap {α β : Type} {f : α → Option β} {g : β → α} {l : List α}
    (h : ∀ a ∈ l, ∀ b, f a = some b → g b = a) : ((l.filterMap f).map g).Sublist l := by
  induction l with
  | nil => exact .slnil
  | cons a l ih =>
    obtain ⟨ha, hl⟩ := List.forall_mem_cons.1 h
    cases hf : f a with
    | none =>
      rw [List.filterMap_cons_none hf]
      exact (ih hl).cons a
    | some b =>
      rw [List.filterMap_cons_some hf, List.map_cons, ha b hf]
      exact (ih hl).cons_cons a

section
variable (hc : c.Tidy)
include hc

theorem signature_of_method? {s : String} {callee : MethodInfo} (hs : normalizeSignature s = s)
    (h : c.method? s = some callee) : callee.signature = s := by
  rw [ClassInfo.method?, hs] at h
  exact (hc.signature s callee h).1

/-- The methods called under one name are different. -/
theorem nodup_calleesOf (hm : m.calls.Squeezed) {name : String} {wanted : Names}
    (h : (name, wanted) ∈ m.calls.edges) : ((calleesOf c wanted).map MethodInfo.signature).Nodup := by
  have hget : m.calls.get? name = some wanted := Dict.mem_entries.1 h
  have hsublist : ((wanted.toList.filterMap c.method?).map MethodInfo.signature).Sublist
      wanted.toList :=
    sublist_filterMap fun s hs callee hcallee =>
      signature_of_method? hc (hm name s ⟨wanted, hget, Names.mem_toList.1 hs⟩) hcallee
  exact ((List.filter_sublist.map _).trans hsublist).nodup wanted.nodup_keys

/-- The called methods are different unless one is called under two names. -/
theorem nodup_plainCallees (hm : m.calls.Squeezed) :
    ((plainCallees c m).map MethodInfo.signature).Nodup ↔
      c.fullName = c.name ∨
        ∀ callee, CallsUnder c m c.fullName callee → ¬CallsUnder c m c.name callee := by
  have htwo {name name' : String} (hname : c.isNamed name = true) (hname' : c.isNamed name' = true)
      (hne : name ≠ name') : c.fullName ≠ c.name ∧
        (name = c.fullName ∧ name' = c.name ∨ name = c.name ∧ name' = c.fullName) := by
    simp only [ClassInfo.isNamed, Bool.or_eq_true, beq_iff_eq] at hname hname'
    grind
  have same {s : String} {name : String} {wanted : Names} (he : (name, wanted) ∈ m.calls.edges)
      (hs : s ∈ (calleesOf c wanted).map MethodInfo.signature) :
      ∃ callee, CallsUnder c m name callee ∧ c.methods.get? s = some callee := by
    obtain ⟨callee, hcallee, rfl⟩ := List.mem_map.1 hs
    have hunder := (mem_calleesOf he).1 hcallee
    obtain ⟨s, hs, hmethod⟩ := hunder.called
    refine ⟨callee, hunder, ?_⟩
    rw [signature_of_method? hc (hm name s hs) hmethod]
    rwa [ClassInfo.method?, hm name s hs] at hmethod
  rw [plainCallees_eq, List.map_flatMap, List.nodup_flatMap]
  constructor
  · rintro ⟨-, hapart⟩
    refine Decidable.or_iff_not_imp_left.2 fun hne callee hfull hsimple => ?_
    obtain ⟨s, ⟨wanted, hget, -⟩, -⟩ := hfull.called
    obtain ⟨s', ⟨wanted', hget', -⟩, -⟩ := hsimple.called
    have he : (c.fullName, wanted) ∈ m.calls.edges := Dict.mem_entries.2 hget
    have he' : (c.name, wanted') ∈ m.calls.edges := Dict.mem_entries.2 hget'
    have hmem := List.mem_map_of_mem (f := MethodInfo.signature) ((mem_calleesOf he).2 hfull)
    have hmem' := List.mem_map_of_mem (f := MethodInfo.signature) ((mem_calleesOf he').2 hsimple)
    rcases Java.related_of_pairwise hapart (List.mem_filter.2 ⟨he, by simp [ClassInfo.isNamed]⟩)
      (List.mem_filter.2 ⟨he', by simp [ClassInfo.isNamed]⟩) (by simp [hne]) with h | h
    · exact h hmem hmem'
    · exact h hmem' hmem
  · intro honce
    refine ⟨fun e he => nodup_calleesOf hc hm (List.mem_filter.1 he).1,
      (m.calls.sorted.filter _).imp_of_mem fun {e e'} he he' hlt s hs hs' => ?_⟩
    obtain ⟨hedge, hname⟩ := List.mem_filter.1 he
    obtain ⟨hedge', hname'⟩ := List.mem_filter.1 he'
    obtain ⟨callee, hunder, hget⟩ := same hedge hs
    obtain ⟨callee', hunder', hget'⟩ := same hedge' hs'
    cases hget.symm.trans hget'
    obtain ⟨hne, ⟨heq, heq'⟩ | ⟨heq, heq'⟩⟩ := htwo hname hname' (Std.ne_of_lt hlt)
    · exact (honce.resolve_left hne) callee (heq ▸ hunder) (heq' ▸ hunder')
    · exact (honce.resolve_left hne) callee (heq' ▸ hunder') (heq ▸ hunder)

/-- The members in the full context of a method are different just if the method is no accessor, does
not call itself and calls no other method under two names of the class. -/
theorem nodup_included (hm : m.calls.Squeezed) (hself : c.methods.get? m.signature = some m) :
    ((included c m).map Prod.fst).Nodup ↔
      m.signature ∉ c.accessors.map Member.signature ∧
      (∀ name, c.isNamed name = true → ¬CallsUnder c m name m) ∧
      (c.fullName = c.name ∨
        ∀ callee, CallsUnder c m c.fullName callee → ¬CallsUnder c m c.name callee) := by
  have hkey {callee : MethodInfo} (hcallee : callee ∈ plainCallees c m) :
      c.methods.get? callee.signature = some callee ∧
        ∀ a ∈ c.accessors, a.source ≠ callee.source := by
    obtain ⟨name, -, hunder⟩ := mem_plainCallees.1 hcallee
    obtain ⟨s, hs, hmethod⟩ := hunder.called
    rw [signature_of_method? hc (hm name s hs) hmethod]
    rw [ClassInfo.method?, hm name s hs] at hmethod
    exact ⟨hmethod, hunder.plain⟩
  have hparts : (included c m).map Prod.fst =
      (c.constructors.map Member.signature).map .constructor ++
        (c.accessors.map Member.signature ++ (plainCallees c m).map MethodInfo.signature ++
          [m.signature]).map .method := by
    simp [included, Function.comp_def]
  -- an accessor that is called has the source of the accessor and is left out among the callees
  have hapart : ∀ a ∈ c.accessors.map Member.signature,
      ∀ b ∈ (plainCallees c m).map MethodInfo.signature, a ≠ b := by
    rintro _ ha _ hb rfl
    obtain ⟨a, hmem, heq⟩ := List.mem_map.1 ha
    obtain ⟨callee, hcallee, rfl⟩ := List.mem_map.1 hb
    obtain ⟨method, hmethod, hsource⟩ := hc.accessor a hmem
    obtain ⟨hget, hplain⟩ := hkey hcallee
    rw [heq, hget] at hmethod
    cases hmethod
    exact hplain a hmem hsource.symm
  have hmethod : m.signature ∉ (plainCallees c m).map MethodInfo.signature ↔
      ∀ name, c.isNamed name = true → ¬CallsUnder c m name m := by
    constructor
    · intro hnot name hname hunder
      exact hnot (List.mem_map_of_mem (mem_plainCallees.2 ⟨name, hname, hunder⟩))
    · intro hnot hmem
      obtain ⟨callee, hcallee, heq⟩ := List.mem_map.1 hmem
      have hget := (hkey hcallee).1
      rw [heq, hself] at hget
      cases hget
      obtain ⟨name, hname, hunder⟩ := mem_plainCallees.1 hcallee
      exact hnot name hname hunder
  have hconstructor : Function.Injective Part.constructor := fun _ _ h => by cases h; rfl
  have hinjective : Function.Injective Part.method := fun _ _ h => by cases h; rfl
  have hkinds : ∀ a ∈ (c.constructors.map Member.signature).map Part.constructor,
      ∀ b ∈ (c.accessors.map Member.signature ++ (plainCallees c m).map MethodInfo.signature ++
        [m.signature]).map Part.method, a ≠ b := by
    rintro _ ha _ hb rfl
    obtain ⟨_, -, rfl⟩ := List.mem_map.1 ha
    obtain ⟨_, -, heq⟩ := List.mem_map.1 hb
    cases heq
  rw [hparts, List.nodup_append, List.nodup_map_iff hconstructor, List.nodup_map_iff hinjective,
    List.nodup_append, List.nodup_append, nodup_plainCallees hc hm, ← hmethod]
  constructor
  · rintro ⟨-, ⟨⟨-, hcallees, -⟩, -, hlast⟩, -⟩
    exact ⟨fun h => hlast _ (List.mem_append_left _ h) _ List.mem_cons_self rfl,
      fun h => hlast _ (List.mem_append_right _ h) _ List.mem_cons_self rfl, hcallees⟩
  · rintro ⟨haccessor, hcallee, hcallees⟩
    refine ⟨hc.constructors, ⟨⟨hc.accessors, hcallees, hapart⟩, List.nodup_singleton _, ?_⟩, hkinds⟩
    rintro a ha b hb rfl
    rw [List.mem_singleton.1 hb] at ha
    rcases List.mem_append.1 ha with ha | ha
    · exact haccessor ha
    · exact hcallee ha

end

/-- The full context of a method of some sources lists constructors, accessors, called methods and the
method, and if the class has no signature twice in the sources, no member is listed twice just if the
method is no accessor, does not call itself and calls no other method under two names of the class. -/
theorem included_once_iff {σ : Type} (sources : List (List Char)) (p : Project) (resolve : Resolve σ)
    (depth attempt : Nat) (s : σ) {name signature : String} {c : ClassInfo} {m : MethodInfo}
    (hc : (Project.ofTexts sources).classes.get? name = some c)
    (hdistinct : Project.DeclaresOnce sources name) (hm : c.methods.get? signature = some m) :
    (∃ others, (included c m).map Prod.snd = others ++ [m.source] ∧
      (assemble p resolve depth c m attempt s).1.fullContext =
        classHead c ++ spaced (String.join (others.map fun source => source ++ "\n\n")) ++
          m.source ++ "\n\x7d") ∧
    (((included c m).map Prod.fst).Nodup ↔
      m.signature ∉ c.accessors.map Member.signature ∧
      (∀ name, c.isNamed name = true → ¬CallsUnder c m name m) ∧
      (c.fullName = c.name ∨
        ∀ callee, CallsUnder c m c.fullName callee → ¬CallsUnder c m c.name callee)) := by
  have htidy : c.Tidy := Project.tidy_ofTexts hc hdistinct
  refine ⟨⟨_, sources_included, ?_⟩, nodup_included htidy (htidy.calls signature m hm) ?_⟩
  · rw [List.map_map]
    exact fullContext_assemble p resolve depth attempt s (unclosed_of_worded (htidy.worded signature m hm))
  · rwa [(htidy.signature signature m hm).1]

/-- A method that calls another one of its class, beside a constructor and an accessor. -/
def till : List (List Char) :=
  [("class Till \x7b\n  int sum;\n  Till(int n) \x7b sum = n; \x7d\n" ++
    "  int getSum() \x7b return sum; \x7d\n  int total() \x7b return tax() + getSum(); \x7d\n" ++
    "  int tax() \x7b return 1; \x7d\n\x7d\n").toList]

theorem included_once_iff_till : ∃ c m, (Project.ofTexts till).classes.get? "Till" = some c ∧
    Project.DeclaresOnce till "Till" ∧ c.methods.get? "total()" = some m ∧
    (∃ others, (included c m).map Prod.snd = others ++ [m.source] ∧
      (assemble {} (Resolver.resolve {} {}) 1 c m 0 {}).1.fullContext =
        classHead c ++ spaced (String.join (others.map fun source => source ++ "\n\n")) ++
          m.source ++ "\n\x7d") ∧
    (((included c m).map Prod.fst).Nodup ↔
      m.signature ∉ c.accessors.map Member.signature ∧
      (∀ name, c.isNamed name = true → ¬CallsUnder c m name m) ∧
      (c.fullName = c.name ∨
        ∀ callee, CallsUnder c m c.fullName callee → ¬CallsUnder c m c.name callee)) := by
  have htill : till = [_] := congrArg (fun source => [source]) <| Text.toList_append_literal
    (Text.toList_append_literal (Text.toList_literal rfl) (Text.toList_literal rfl)) (Text.toList_literal rfl)
  have hsome : ((Project.ofTexts till).classes.get? "Till").any
      (fun c => c.methods.contains "total()") = true := by
    rw [htill]
    decide +kernel
  obtain ⟨c, hc, hcontains⟩ := (Option.any_eq_true _ _).1 hsome
  obtain ⟨m, hm⟩ := Option.isSome_iff_exists.1 hcontains
  have honce : Project.DeclaresOnce till "Till" := by
    rw [htill]
    decide +kernel
  have hcontext := included_once_iff till {} (Resolver.resolve {} {}) 1 0 {} hc honce hm
  exact ⟨c, m, hc, honce, hm, hcontext⟩

/-- A method that calls itself. -/
def recursive : List (List Char) :=
  ["class Cart \x7b\n    int total(int n) \x7b return total(n); \x7d\n\x7d\n".toList]

/-- The full context of such a method has it twice. -/
theorem recursive_included_twice : Project.DeclaresOnce recursive "Cart" ∧
    ∃ c m, (Project.ofTexts recursive).classes.get? "Cart" = some c ∧
      c.methods.get? "total(int)" = some m ∧
      (included c m).map Prod.fst = [.method "total(int)", .method "total(int)"] ∧
      (assemble {} (Resolver.resolve {} {}) 0 c m 0 {}).1.fullContext =
        "\nclass Cart \x7b\n\nint total(int n) \x7b return total(n); \x7d\n\n" ++
          "int total(int n) \x7b return total(n); \x7d\n\x7d" := by
  have hrecursive : recursive = [_] := congrArg (fun source => [source]) (Text.toList_literal rfl)
  have hfound : (((Project.ofTexts recursive).classes.get? "Cart").bind fun c =>
      (c.methods.get? "total(int)").map fun m => ((included c m).map Prod.fst,
        (assemble {} (Resolver.resolve {} {}) 0 c m 0 {}).1.fullContext)) =
      some ([.method "total(int)", .method "total(int)"],
        "\nclass Cart \x7b\n\nint total(int n) \x7b return total(n); \x7d\n\n" ++
          "int total(int n) \x7b return total(n); \x7d\n\x7d") := by
    rw [hrecursive]
    decide +kernel
  obtain ⟨c, hc, hfound⟩ := Option.bind_eq_some_iff.1 hfound
  obtain ⟨m, hm, hpair⟩ := Option.map_eq_some_iff.1 hfound
  obtain ⟨hparts, hcontext⟩ := Prod.mk.inj hpair
  exact ⟨by rw [hrecursive]; decide +kernel, c, m, hc, hm, hparts, hcontext⟩

end Assembly

end Testwright
