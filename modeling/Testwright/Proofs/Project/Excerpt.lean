import Testwright.Project.Model
import Testwright.Proofs.Data.Dict

/-!
# Signatures as keys and excerpts of classes

Dropping the blanks of a signature twice is dropping them once, so a method is found under every
spelling of its signature, and an excerpt holds the source of each wanted method of the class, and of no
other (`ClassInfo.excerpt_kept`).
-/

namespace Testwright

@[simp] theorem normalizeSignature_idem (s : String) :
    normalizeSignature (normalizeSignature s) = normalizeSignature s := by
  rw [← String.toList_inj]
  simp [normalizeSignature, Text.squeeze]

theorem contains_normalizeSignatures {s : Names} {k : String} :
    (normalizeSignatures s).contains k = true ↔
      ∃ signature, s.contains signature = true ∧ normalizeSignature signature = k := by
  simp [normalizeSignatures, Names.contains_ofList, Names.mem_toList]

@[simp] theorem normalizeSignatures_idem (s : Names) :
    normalizeSignatures (normalizeSignatures s) = normalizeSignatures s := by
  refine Names.ext_contains fun k => ?_
  simp only [contains_normalizeSignatures]
  constructor
  · rintro ⟨_, ⟨signature, h, rfl⟩, rfl⟩
    exact ⟨signature, h, (normalizeSignature_idem signature).symm⟩
  · rintro ⟨signature, h, rfl⟩
    exact ⟨_, ⟨signature, h, rfl⟩, normalizeSignature_idem signature⟩

/-! ## Parts of a text -/

theorem toList_infix_append_left {s t u : String} (h : s.toList <:+: t.toList) :
    s.toList <:+: (t ++ u).toList := by
  rw [String.toList_append]
  exact List.infix_append_of_infix_left h

theorem toList_infix_append_right {s t u : String} (h : s.toList <:+: u.toList) :
    s.toList <:+: (t ++ u).toList := by
  rw [String.toList_append]
  exact List.infix_append_of_infix_right h

theorem toList_infix_join {s : String} {l : List String} (h : s ∈ l) :
    s.toList <:+: (String.join l).toList := by
  rw [String.toList_join, List.flatMap_def]
  exact List.infix_of_mem_flatten (List.mem_map.2 ⟨s, h, rfl⟩)

/-- Parts that are empty may be left out of a joined text. -/
theorem join_map_filter {p : String → Bool} {f : String → String} {l : List String}
    (h : ∀ s ∈ l, p s = false → f s = "") : String.join ((l.filter p).map f) = String.join (l.map f) := by
  rw [← String.toList_inj, String.toList_join, String.toList_join]
  induction l with
  | nil => rfl
  | cons s l ih =>
    have ih := ih fun s hs => h s (List.mem_cons_of_mem _ hs)
    cases hs : p s with
    | true =>
      rw [List.filter_cons_of_pos hs, List.map_cons, List.map_cons, List.flatMap_cons, ih]
      rfl
    | false =>
      rw [List.filter_cons_of_neg (by simp [hs]), ih, List.map_cons, List.flatMap_cons,
        h s List.mem_cons_self hs]
      rfl

/-! ## Excerpts -/

namespace ClassInfo

variable {c : ClassInfo} {m : MethodInfo} {wanted : Names} {signature k : String}

@[simp] theorem method?_normalizeSignature :
    c.method? (normalizeSignature signature) = c.method? signature := by
  simp [method?]

/-- An excerpt holds the sources of all wanted methods that the class has. -/
theorem source_infix_excerpt (h : wanted.contains signature = true)
    (hm : c.method? signature = some m) : m.source.toList <:+: (c.excerpt wanted).toList := by
  have piece : m.source.toList <:+: ("\n" ++ m.source ++ "\n").toList :=
    toList_infix_append_left (toList_infix_append_right List.infix_rfl)
  refine piece.trans
    (toList_infix_append_left (toList_infix_append_right (toList_infix_join ?_)))
  exact List.mem_map.2 ⟨signature, Names.mem_toList.2 h, by simp only [hm]⟩

/-- The wanted methods that a class has. -/
def kept (c : ClassInfo) (wanted : Names) : Names :=
  (normalizeSignatures wanted).filter fun signature _ => c.methods.contains signature

theorem contains_kept : (c.kept wanted).contains k = true ↔
    (∃ call, wanted.contains call = true ∧ normalizeSignature call = k) ∧
      c.methods.contains k = true := by
  rw [kept, Names.contains_filter, contains_normalizeSignatures]

/-- An excerpt holds the sources of the wanted methods that the class has, and of no others. -/
theorem excerpt_kept (c : ClassInfo) (wanted : Names) :
    c.excerpt (c.kept wanted) = c.excerpt (normalizeSignatures wanted) := by
  have hlist : (c.kept wanted).toList =
      (normalizeSignatures wanted).toList.filter fun s => c.methods.contains s := by
    simp only [kept, Names.toList, Dict.keys, Dict.filter, List.filter_map]
    rfl
  unfold excerpt
  rw [hlist, join_map_filter]
  intro signature hsignature hnone
  obtain ⟨call, -, rfl⟩ := contains_normalizeSignatures.1 (Names.mem_toList.1 hsignature)
  rw [method?, normalizeSignature_idem, Dict.get?_eq_none_of_contains hnone]

end ClassInfo

end Testwright
