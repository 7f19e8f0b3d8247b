import Mathlib.Data.List.Nodup
import Testwright.Project.Model
import Testwright.Proofs.Data.Dict

/-!
# What was put in last

Classes are put into a project and methods into a class one after another. What stands under a key is
the last one that was put in under it (`Project.get?_ofList`, `ClassInfo.method?_foldl_insertMethod`), so a
project knows its history only by the classes that no later one replaced, and the keys are the full names of
the classes (`Project.Keyed`) and the signatures of the methods.
-/

namespace Testwright

namespace Project

variable {p : Project} {c : ClassInfo} {history : List ClassInfo} {name : String}

/-- Every class is kept under its full name. -/
def Keyed (p : Project) : Prop := ∀ name c, p.classes.get? name = some c → name = c.fullName

/-! ## Names of classes -/

theorem nodup_values (hp : p.Keyed) : p.classes.values.Nodup := by
  have hnames : p.classes.values.map ClassInfo.fullName = p.classes.keys := by
    rw [Dict.values, Dict.keys, List.map_map]
    refine List.map_congr_left fun e he => ?_
    exact (hp e.1 e.2 (Dict.mem_entries.1 he)).symm
  have hnodup := p.classes.nodup_keys
  rw [← hnames] at hnodup
  exact hnodup.of_map _

/-- A class is the only one of its simple name. -/
theorem filter_name_eq_singleton_iff (hp : p.Keyed) :
    (p.classes.values.filter fun d => d.name == name) = [c] ↔
      ∀ d, p.classes.get? d.fullName = some d ∧ d.name = name ↔ d = c := by
  have hmem (d : ClassInfo) : d ∈ (p.classes.values.filter fun d => d.name == name) ↔
      p.classes.get? d.fullName = some d ∧ d.name = name := by
    rw [List.mem_filter, Dict.mem_values, beq_iff_eq]
    exact and_congr_left fun _ => ⟨fun ⟨key, hkey⟩ => hp key d hkey ▸ hkey, fun h => ⟨_, h⟩⟩
  rw [← List.perm_singleton,
    List.perm_ext_iff_of_nodup ((nodup_values hp).filter _) (List.nodup_singleton c)]
  simp only [hmem, List.mem_singleton]

theorem class?_eq_some_iff (hp : p.Keyed) : p.class? name = some c ↔
    p.classes.get? name = some c ∨ p.classes.get? name = none ∧ '.' ∉ name.toList ∧
      ∀ d, p.classes.get? d.fullName = some d ∧ d.name = name ↔ d = c := by
  rw [← filter_name_eq_singleton_iff hp, class?]
  cases hget : p.classes.get? name with
  | some d => simp
  | none =>
    by_cases hpoint : '.' ∈ name.toList
    · simp [hpoint]
    · simp only [List.contains_eq_mem, hpoint, decide_false, Bool.false_eq_true, if_false]
      split
      · next d hsole => simp [hsole]
      · next hmany => simpa using hmany c

/-! ## Classes put in one after another -/

theorem classes_foldl_insert (p : Project) (l : List ClassInfo) :
    (l.foldl insert p).classes = l.foldl (fun d c => d.insert c.fullName c) p.classes := by
  induction l generalizing p with
  | nil => rfl
  | cons c l ih => exact ih (p.insert c)

/-- Under a full name stands the last class that was put in with it. -/
theorem get?_ofList : (ofList history).classes.get? name = some c ↔
    IsLast (fun d => d.fullName = name) history c := by
  rw [ofList, classes_foldl_insert]
  refine Dict.get?_foldl_insert_iff.trans ?_
  rw [Dict.get?_emptyCollection]
  simp

theorem get?_ofList_eq_none :
    (ofList history).classes.get? name = none ↔ ∀ d ∈ history, d.fullName ≠ name := by
  rw [Option.eq_none_iff_forall_ne_some]
  constructor
  · intro hnone d hd hname
    obtain ⟨c, hc⟩ := exists_isLast (fun d => d.fullName = name) ⟨d, hd, hname⟩
    exact hnone c (get?_ofList.2 hc)
  · intro hne c hc
    exact hne c (get?_ofList.1 hc).mem (get?_ofList.1 hc).holds

theorem keyed_ofList (l : List ClassInfo) : (ofList l).Keyed :=
  fun _ _ hc => (get?_ofList.1 hc).holds.symm

/-- A class was put in and no later one of its full name. -/
def Stands (history : List ClassInfo) (c : ClassInfo) : Prop :=
  IsLast (fun d => d.fullName = c.fullName) history c

theorem stands_of_isLast (h : IsLast (fun d => d.fullName = name) history c) : Stands history c := by
  rw [Stands, h.holds]
  exact h

/-- The classes that stand make up the project. -/
theorem ofList_eq_of_stands {other : List ClassInfo} (h : ∀ c, Stands other c ↔ Stands history c) :
    ofList other = ofList history := by
  have hlast {l l' : List ClassInfo} (h : ∀ c, Stands l c → Stands l' c) {name c}
      (hc : IsLast (fun d => d.fullName = name) l c) : IsLast (fun d => d.fullName = name) l' c := by
    have hc' := h c (stands_of_isLast hc)
    rwa [Stands, hc.holds] at hc'
  have hclasses : (ofList other).classes = (ofList history).classes :=
    Dict.ext_get? fun name => Option.ext fun c => by
      rw [get?_ofList, get?_ofList]
      exact ⟨hlast fun c => (h c).1, hlast fun c => (h c).2⟩
  exact congrArg Project.mk hclasses

/-- What looking a name up tells about the classes that were put into a project one after another. -/
structure Recalls (history : List ClassInfo) : Prop where
  /-- A name is the full name of the last class that was put in with it, or otherwise, if it is without
  points, the simple name of a class that stands while no other one of that name does. -/
  answer : ∀ name c, (ofList history).class? name = some c ↔
    IsLast (fun d => d.fullName = name) history c ∨
      (∀ d ∈ history, d.fullName ≠ name) ∧ '.' ∉ name.toList ∧
        ∀ d, Stands history d ∧ d.name = name ↔ d = c
  /-- The classes that stand may have been put in in any order and after any others. -/
  order : ∀ other, (∀ c, Stands other c ↔ Stands history c) → ofList other = ofList history
  /-- A class that a later one replaced need not have been put in. -/
  replaced : ∀ front c back, history = front ++ c :: back → (∃ d ∈ back, d.fullName = c.fullName) →
    ofList (front ++ back) = ofList history
  /-- Every class of the project is found under its full name. -/
  held : ∀ name c, (ofList history).classes.get? name = some c →
    name = c.fullName ∧ (ofList history).class? c.fullName = some c

theorem recalls_ofList (history : List ClassInfo) : Recalls history where
  answer name c := by
    rw [class?_eq_some_iff (keyed_ofList history), get?_ofList, get?_ofList_eq_none]
    simp only [get?_ofList, Stands]
  order _ := ofList_eq_of_stands
  replaced front c back hhistory hback := by
    subst hhistory
    obtain ⟨d, hd, hname⟩ := hback
    exact ofList_eq_of_stands fun x =>
      (isLast_append_cons fun hc => ⟨d, hd, hname.trans hc⟩).symm
  held name c hc := by
    obtain rfl := keyed_ofList history name c hc
    exact ⟨rfl, (class?_eq_some_iff (keyed_ofList history)).2 (.inl hc)⟩

end Project

/-! ## Methods put in one after another -/

/-- Two signatures are the same but for their blanks. -/
def SameButBlanks (s t : String) : Prop := Text.squeeze s.toList = Text.squeeze t.toList

theorem normalizeSignature_eq_iff {s t : String} :
    normalizeSignature s = normalizeSignature t ↔ SameButBlanks s t := String.ofList_inj

/-- The method as a class keeps it, without blanks in its signature. -/
def MethodInfo.kept (m : MethodInfo) : MethodInfo := { m with signature := normalizeSignature m.signature }

namespace ClassInfo

variable {c : ClassInfo} {methods : List MethodInfo} {s : String} {m : MethodInfo}

theorem methods_foldl_insertMethod (c : ClassInfo) (l : List MethodInfo) :
    (l.foldl insertMethod c).methods =
      l.foldl (fun d m => d.insert (normalizeSignature m.signature) m.kept) c.methods := by
  induction l generalizing c with
  | nil => rfl
  | cons m l ih => exact ih (c.insertMethod m)

/-- Under a signature stands the last method that was put in with it. -/
theorem method?_foldl_insertMethod (hempty : c.methods = ∅) :
    (methods.foldl insertMethod c).method? s = some m ↔
      ∃ n, IsLast (fun n => SameButBlanks n.signature s) methods n ∧ n.kept = m := by
  rw [method?, methods_foldl_insertMethod, hempty]
  refine Dict.get?_foldl_insert_iff.trans ?_
  rw [Dict.get?_emptyCollection]
  simp [normalizeSignature_eq_iff]

/-- What looking a signature up tells about the methods that were put into a class one after another. -/
structure RecallsMethods (c : ClassInfo) (methods : List MethodInfo) : Prop where
  found : ∀ s m, (methods.foldl insertMethod c).method? s = some m ↔
    ∃ n, IsLast (fun n => SameButBlanks n.signature s) methods n ∧ n.kept = m
  missing : ∀ s, (methods.foldl insertMethod c).method? s = none ↔
    ∀ n ∈ methods, ¬SameButBlanks n.signature s
  /-- A method is kept under its own signature, which has no blanks. -/
  keyed : ∀ key m, (methods.foldl insertMethod c).methods.get? key = some m →
    key = m.signature ∧ ∀ d ∈ key.toList, Text.isBlank d = false

theorem recallsMethods (hempty : c.methods = ∅) : RecallsMethods c methods where
  found _ _ := method?_foldl_insertMethod hempty
  missing s := by
    rw [Option.eq_none_iff_forall_ne_some]
    constructor
    · intro hnone n hn hs
      obtain ⟨m, hm⟩ := exists_isLast (fun n => SameButBlanks n.signature s) ⟨n, hn, hs⟩
      exact hnone _ ((method?_foldl_insertMethod hempty).2 ⟨m, hm, rfl⟩)
    · intro hne m hm
      obtain ⟨n, hn, -⟩ := (method?_foldl_insertMethod hempty).1 hm
      exact hne n hn.mem hn.holds
  keyed key m hm := by
    rw [methods_foldl_insertMethod, hempty, Dict.get?_foldl_insert_iff] at hm
    obtain ⟨n, hn, rfl⟩ | ⟨-, hm⟩ := hm
    · refine ⟨hn.holds.symm, fun d hd => ?_⟩
      rw [← hn.holds, normalizeSignature, toList_onChars] at hd
      simpa using List.of_mem_filter hd
    · cases hm

end ClassInfo

/-- **Look-ups and histories.** A name stands for the last class put in under it as its full name, or for the
only class of that simple name; a signature stands for the last method put in under it. -/
theorem lookups_recall (history : List ClassInfo) (c : ClassInfo) (methods : List MethodInfo)
    (hempty : c.methods = ∅) : Project.Recalls history ∧ c.RecallsMethods methods :=
  ⟨Project.recalls_ofList history, ClassInfo.recallsMethods hempty⟩

/-- Two carts leave `Cart` open until one of them is replaced by a basket. -/
theorem lookups_recall_carts :
    let carts := [{ fullName := "a.Cart", name := "Cart" }, { fullName := "b.Cart", name := "Cart" }]
    let history := carts ++ [{ fullName := "b.Cart", name := "Basket" }]
    let methods : List MethodInfo :=
      [{ signature := "add(int, int)", brief := "old" }, { signature := "add(int,int)", brief := "new" }]
    (Project.Recalls history ∧ ({} : ClassInfo).RecallsMethods methods) ∧
      (Project.ofList carts).class? "Cart" = none ∧
      (Project.ofList history).class? "Cart" = some { fullName := "a.Cart", name := "Cart" } ∧
      (methods.foldl ClassInfo.insertMethod {}).method? "add( int,int )" =
        some { signature := "add(int,int)", brief := "new" } :=
  ⟨lookups_recall _ {} _ rfl, by decide, by decide, by decide⟩

end Testwright
