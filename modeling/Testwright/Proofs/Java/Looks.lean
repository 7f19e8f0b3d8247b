import Mathlib.Data.List.Forall2
import Testwright.Java.Scope
import Testwright.Proofs.Java.Gaps
import Testwright.Proofs.Java.Members

/-!
# What the index sees of a tree

`Tree.look` keeps of a tree what the index goes by: the kinds of nodes, the parts they play, and the texts
of names, types, numbers, the package and the imports. Comments are passed over, except among the
children of the nodes that count all their children.

Nodes of two texts with one look have children with the same looks in the same parts
(`Resembles.child?`), declare the same classes (`Resembles.declarations`) and give the same scope
(`Resembles.ofTree`). A comment put between two tokens leaves the look of a tree as it was unless a node
minds it (`look_insertInto`).
-/

namespace Testwright.Java

inductive Look where
  | node (kind : Kind) (field : Option Field) (text type : List Char) (children : List Look)

/-- Whether the texts of the nodes that play a part are used. -/
def Field.isRead : Field → Bool
  | .name | .type | .dimensions | .field => true
  | _ => false

/-- Whether the texts of the nodes of a kind are used. -/
def Kind.isRead : Kind → Bool
  | .identifier | .decimalInteger | .hexInteger | .octalInteger | .binaryInteger | .decimalFloat
  | .hexFloat | .packageDeclaration | .importDeclaration => true
  | _ => false

namespace Tree

variable (source source' : List Char)

def isRead (t : Tree) : Bool := t.field.any Field.isRead || t.kind.isRead

/-- Whether a node is a comment as the parser puts it into a tree. -/
def isRemark (t : Tree) : Bool := t.kind.isComment && t.field.isNone && t.children.isEmpty

/-- Whether the index goes by the number or the order of all children of a node. -/
def countsAll (t : Tree) : Bool :=
  t.kind == .parenthesizedExpression || t.kind == .spreadParameter || t.field == some .arguments

def readText (t : Tree) : List Char := if t.isRead then t.chars source else []

/-- The text of the type of a parameter for any number of arguments. -/
def spreadText (t : Tree) : List Char :=
  if t.kind = .spreadParameter then (t.spreadType?.map (chars source)).getD [] else []

mutual

def look : Tree → Look
  | .node k f s e cs =>
    .node k f (readText source (.node k f s e cs)) (spreadText source (.node k f s e cs))
      (looks (countsAll (.node k f s e cs)) cs)

/-- The looks of some siblings, those of comments only if all count. -/
def looks (all : Bool) : List Tree → List Look
  | [] => []
  | t :: ts => if all || !t.isRemark then look t :: looks all ts else looks all ts

end

/-- Nodes of two texts have the same text. -/
def SameText (t t' : Tree) : Prop := t.chars source = t'.chars source'

/-- Nodes of two texts look the same. -/
def Resembles (t t' : Tree) : Prop := t.look source = t'.look source'

/-- Whether a child of a node has a look. -/
def keeps (t u : Tree) : Bool := t.countsAll || !u.isRemark

variable {source source'}

theorem SameText.text {t t' : Tree} (h : SameText source source' t t') :
    t.text source = t'.text source' :=
  congrArg String.ofList h

theorem SameText.squeezed {t t' : Tree} (h : SameText source source' t t') :
    t.squeezed source = t'.squeezed source' := by
  rw [Tree.squeezed, Tree.squeezed, show t.chars source = t'.chars source' from h]

theorem map_eq_of_rel {α β γ : Type} {r : α → β → Prop} {f : α → γ} {g : β → γ} {a : Option α}
    {b : Option β} (h : Option.Rel r a b) (hfg : ∀ a b, r a b → f a = g b) : a.map f = b.map g := by
  cases h with
  | none => rfl
  | some hab => exact congrArg some (hfg _ _ hab)

theorem looks_eq (all : Bool) (ts : List Tree) :
    looks source all ts = (ts.filter fun t => all || !t.isRemark).map (look source) := by
  induction ts with
  | nil => rfl
  | cons t ts ih =>
    rw [looks, ih, List.filter_cons]
    split <;> rfl

theorem look_eq (t : Tree) : t.look source = .node t.kind t.field (t.readText source)
    (t.spreadText source) ((t.children.filter t.keeps).map (look source)) := by
  obtain ⟨k, f, s, e, cs⟩ := t
  rw [look, looks_eq]
  rfl

theorem isRemark_of_keeps {t u : Tree} (h : t.keeps u = false) : u.isRemark = true := by
  simp only [keeps, Bool.or_eq_false_iff, Bool.not_eq_false'] at h
  exact h.2

theorem field_of_isRemark {t : Tree} (h : t.isRemark = true) : t.field = none := by
  simp only [isRemark, Bool.and_eq_true, Option.isNone_iff_eq_none] at h
  exact h.1.2

theorem field_ne_of_isRemark {t : Tree} (h : t.isRemark = true) (part : Field) :
    (t.field == some part) = false := by
  rw [field_of_isRemark h]
  rfl

theorem kind_of_isRemark {t : Tree} (h : t.isRemark = true) :
    t.kind = .lineComment ∨ t.kind = .blockComment := by
  simp only [isRemark, Bool.and_eq_true, Kind.isComment, Bool.or_eq_true, beq_iff_eq] at h
  exact h.1.1

theorem children_of_isRemark {t : Tree} (h : t.isRemark = true) : t.children = [] := by
  simp only [isRemark, Bool.and_eq_true, List.isEmpty_iff] at h
  exact h.2

/-! ## Nodes that look the same -/

namespace Resembles

variable {t t' : Tree} (h : Resembles source source' t t')
include h

theorem kind : t.kind = t'.kind := by
  have heq := h
  rw [Resembles, look_eq, look_eq] at heq
  exact (Look.node.inj heq).1

theorem field : t.field = t'.field := by
  have heq := h
  rw [Resembles, look_eq, look_eq] at heq
  exact (Look.node.inj heq).2.1

theorem countsAll : t.countsAll = t'.countsAll := by
  simp only [Tree.countsAll, h.kind, h.field]

theorem chars (hread : t.isRead = true) : t.chars source = t'.chars source' := by
  have hread' : t'.isRead = true := by
    rwa [isRead, ← h.kind, ← h.field]
  have heq := h
  rw [Resembles, look_eq, look_eq] at heq
  have htext := (Look.node.inj heq).2.2.1
  rwa [readText, if_pos hread, readText, if_pos hread'] at htext

theorem spreadText : t.spreadText source = t'.spreadText source' := by
  have heq := h
  rw [Resembles, look_eq, look_eq] at heq
  exact (Look.node.inj heq).2.2.2.1

/-- The children that have a look correspond. -/
theorem children : List.Forall₂ (Resembles source source') (t.children.filter t.keeps)
    (t'.children.filter t'.keeps) := by
  have heq := h
  rw [Resembles, look_eq, look_eq] at heq
  have hlooks := (Look.node.inj heq).2.2.2.2
  rw [← List.forall₂_eq_eq_eq, List.forall₂_map_left_iff, List.forall₂_map_right_iff] at hlooks
  exact hlooks

theorem namedChildren : List.Forall₂ (Resembles source source') (t.namedChildren.filter t.keeps)
    (t'.namedChildren.filter t'.keeps) := by
  have hnamed := List.rel_filter (p := fun c => c.kind.named) (q := fun c => c.kind.named)
    (fun c c' hc => by simp only [hc.kind]) h.children
  have hcomm (u : Tree) : (u.children.filter u.keeps).filter (fun c => c.kind.named) =
      u.namedChildren.filter u.keeps := by
    simp only [Tree.namedChildren, List.filter_filter, Bool.and_comm]
  rwa [hcomm, hcomm] at hnamed

end Resembles

/-- What is found among siblings is found without the comments that do not count. -/
theorem find?_filter_keeps {t : Tree} {p : Tree → Bool} (hp : ∀ u, u.isRemark = true → p u = false)
    (ts : List Tree) : (ts.filter t.keeps).find? p = ts.find? p := by
  rw [List.find?_filter]
  refine congrArg (fun p => ts.find? p) (funext fun u => ?_)
  cases hkeeps : t.keeps u with
  | true => simp
  | false => simp [hp u (isRemark_of_keeps hkeeps)]

theorem filter_filter_keeps {t : Tree} {p : Tree → Bool} (hp : ∀ u, u.isRemark = true → p u = false)
    (ts : List Tree) : (ts.filter t.keeps).filter p = ts.filter p := by
  rw [List.filter_filter]
  refine List.filter_congr fun u _ => ?_
  cases hkeeps : t.keeps u with
  | true => simp
  | false => simp [hp u (isRemark_of_keeps hkeeps)]

theorem filterMap_filter_keeps {α : Type} {t : Tree} {f : Tree → Option α}
    (hf : ∀ u, u.isRemark = true → f u = none) (ts : List Tree) :
    (ts.filter t.keeps).filterMap f = ts.filterMap f := by
  rw [List.filterMap_filter]
  refine List.filterMap_congr fun u _ => ?_
  cases hkeeps : t.keeps u with
  | true => rfl
  | false => simp [hf u (isRemark_of_keeps hkeeps)]

theorem foldl_filter_keeps {α : Type} {t : Tree} {f : α → Tree → α}
    (hf : ∀ a u, u.isRemark = true → f a u = a) (a : α) (ts : List Tree) :
    (ts.filter t.keeps).foldl f a = ts.foldl f a := by
  induction ts generalizing a with
  | nil => rfl
  | cons u ts ih =>
    rw [List.filter_cons]
    cases hkeeps : t.keeps u with
    | true => exact ih _
    | false => rw [if_neg (by simp), ih, List.foldl_cons, hf a u (isRemark_of_keeps hkeeps)]

theorem flatMap_filter_keeps {α : Type} {t : Tree} {f : Tree → List α}
    (hf : ∀ u, u.isRemark = true → f u = []) (ts : List Tree) :
    (ts.filter t.keeps).flatMap f = ts.flatMap f :=
  flatMap_filter_of_nil (fun u hkeeps => hf u (isRemark_of_keeps hkeeps)) ts

/-- What functions make of corresponding elements corresponds; the elements of the first list may have
properties of their own. -/
theorem forall₂_flatMap {α β γ δ : Type} {r : α → β → Prop} {r' : γ → δ → Prop} {f : α → List γ}
    {g : β → List δ} {l : List α} {l' : List β} (h : List.Forall₂ r l l')
    (hfg : ∀ a ∈ l, ∀ b, r a b → List.Forall₂ r' (f a) (g b)) :
    List.Forall₂ r' (l.flatMap f) (l'.flatMap g) := by
  induction h with
  | nil => exact .nil
  | @cons a b l l' hab _ ih =>
    rw [List.flatMap_cons, List.flatMap_cons]
    exact List.rel_append (hfg a List.mem_cons_self b hab)
      (ih fun a ha => hfg a (List.mem_cons_of_mem _ ha))

theorem forall₂_find? {α β : Type} {r : α → β → Prop} {p : α → Bool} {q : β → Bool} {l : List α}
    {l' : List β} (h : List.Forall₂ r l l') (hpq : ∀ a b, r a b → p a = q b) :
    Option.Rel r (l.find? p) (l'.find? q) := by
  induction h with
  | nil => exact .none
  | @cons a b l l' hab _ ih =>
    rw [List.find?_cons, List.find?_cons, hpq a b hab]
    cases q b with
    | true => exact .some hab
    | false => exact ih

/-- Functions that agree on corresponding elements end in the same result. -/
theorem foldl_forall₂ {α β γ : Type} {r : α → β → Prop} {f : γ → α → γ} {g : γ → β → γ} {l : List α}
    {l' : List β} (h : List.Forall₂ r l l') (hfg : ∀ c a b, r a b → f c a = g c b) (c : γ) :
    l.foldl f c = l'.foldl g c := by
  have hstep (c c' : γ) (hc : c = c') (a : α) (b : β) (hab : r a b) : f c a = g c' b := by
    subst hc
    exact hfg c a b hab
  exact List.rel_foldl hstep rfl h

namespace Resembles

variable {t t' : Tree} (h : Resembles source source' t t')
include h

theorem child? (part : Field) :
    Option.Rel (Resembles source source') (t.child? part) (t'.child? part) := by
  have hremark (u : Tree) (hu : u.isRemark = true) := field_ne_of_isRemark hu part
  have hfind := forall₂_find? (p := fun c => c.field == some part) (q := fun c => c.field == some part)
    h.children fun u u' hu => by rw [hu.field]
  rwa [find?_filter_keeps hremark, find?_filter_keeps hremark] at hfind

theorem childrenAt (part : Field) :
    List.Forall₂ (Resembles source source') (t.childrenAt part) (t'.childrenAt part) := by
  have hremark (u : Tree) (hu : u.isRemark = true) := field_ne_of_isRemark hu part
  have hfilter := List.rel_filter (p := fun c => c.field == some part)
    (q := fun c => c.field == some part) (fun u u' hu => by simp only [hu.field]) h.children
  rwa [filter_filter_keeps hremark, filter_filter_keeps hremark] at hfilter

/-- The texts of a part that is read are the same. -/
theorem readChild? (part : Field) (hread : part.isRead = true) :
    Option.Rel (SameText source source') (t.child? part) (t'.child? part) := by
  have hchild := h.child? part
  have hfield : ∀ u, t.child? part = some u → u.field = some part := fun u hu => by
    simpa using List.find?_some hu
  generalize t.child? part = u, t'.child? part = u' at hchild hfield
  cases hchild with
  | none => exact .none
  | some hu =>
    have hpart := hfield _ rfl
    exact .some (hu.chars (by simp [isRead, hpart, hread]))

end Resembles

theorem filter_keeps_of_countsAll {t : Tree} (h : t.countsAll = true) (ts : List Tree) :
    ts.filter t.keeps = ts :=
  List.filter_eq_self.2 fun u _ => by simp [keeps, h]

/-! ## Signatures -/

namespace Resembles

variable {t t' : Tree} (h : Resembles source source' t t')
include h

theorem namedChildren_of_countsAll (hall : t.countsAll = true) :
    List.Forall₂ (Resembles source source') t.namedChildren t'.namedChildren := by
  have hnamed := h.namedChildren
  rwa [filter_keeps_of_countsAll hall, filter_keeps_of_countsAll (h.countsAll ▸ hall)] at hnamed

theorem readSpreadType? (hkind : t.kind = .spreadParameter) :
    Option.Rel (SameText source source') t.spreadType? t'.spreadType? := by
  have hfind := forall₂_find? (p := fun c => c.kind != .modifiers && c.kind != .variableDeclarator)
    (q := fun c => c.kind != .modifiers && c.kind != .variableDeclarator)
    (h.namedChildren_of_countsAll (by simp [Tree.countsAll, hkind])) fun u u' hu => by rw [hu.kind]
  have htext := h.spreadText
  rw [Tree.spreadText, if_pos hkind, Tree.spreadText, if_pos (h.kind ▸ hkind)] at htext
  unfold spreadType? at htext ⊢
  generalize t.namedChildren.find? _ = u, t'.namedChildren.find? _ = u' at hfind htext
  cases hfind with
  | none => exact .none
  | some => exact .some htext

theorem squeezed_dimensions :
    (t.child? .dimensions).map (squeezed source) = (t'.child? .dimensions).map (squeezed source') :=
  map_eq_of_rel (h.readChild? .dimensions rfl) fun _ _ hdims => hdims.squeezed

theorem parameterType? : t.parameterType? source = t'.parameterType? source' := by
  unfold Tree.parameterType?
  rw [← h.kind]
  split
  · refine map_eq_of_rel (h.readChild? .type rfl) fun type type' htype => ?_
    rw [htype.squeezed, h.squeezed_dimensions]
  · next hkind =>
    refine map_eq_of_rel (h.readSpreadType? hkind) fun type type' htype => ?_
    rw [htype.squeezed]
  · rfl

theorem parameterTypes : t.parameterTypes source = t'.parameterTypes source' := by
  have hparams := h.child? .parameters
  have hremark (source : List Char) (u : Tree) (hu : u.isRemark = true) :
      u.parameterType? source = none := by
    rcases kind_of_isRemark hu with hkind | hkind <;> simp [Tree.parameterType?, hkind]
  unfold Tree.parameterTypes
  generalize t.child? .parameters = ps, t'.child? .parameters = ps' at hparams
  cases hparams with
  | none => rfl
  | @some params params' hparams =>
    have htype : ∀ u u', Resembles source source' u u' →
        Option.Rel Eq (u.parameterType? source) (u'.parameterType? source') := by
      intro u u' hu
      rw [hu.parameterType?]
      cases u'.parameterType? source' with
      | none => exact .none
      | some => exact .some rfl
    have hmap := List.rel_filterMap htype hparams.namedChildren
    rw [List.forall₂_eq_eq_eq] at hmap
    rwa [filterMap_filter_keeps (hremark source), filterMap_filter_keeps (hremark source')] at hmap

theorem signature? : t.signature? source = t'.signature? source' := by
  refine map_eq_of_rel (h.readChild? .name rfl) fun name name' hname => ?_
  rw [hname.text, h.parameterTypes]

/-! ## Declarations -/

theorem isClassLike : t.isClassLike = t'.isClassLike := by
  rw [isClassLike_eq, isClassLike_eq, h.kind]

theorem memberContainer? :
    Option.Rel (Resembles source source') t.memberContainer? t'.memberContainer? := by
  have hbody := h.child? .body
  have hremark (u : Tree) (hu : u.isRemark = true) : (u.kind == .enumBodyDeclarations) = false := by
    rcases kind_of_isRemark hu with hkind | hkind <;> rw [hkind] <;> rfl
  unfold Tree.memberContainer?
  generalize t.child? .body = body, t'.child? .body = body' at hbody
  cases hbody with
  | none => exact .none
  | @some body body' hbody =>
    simp only [hbody.kind]
    split
    · have hfind := forall₂_find? (p := fun c => c.kind == .enumBodyDeclarations)
        (q := fun c => c.kind == .enumBodyDeclarations) hbody.namedChildren fun u u' hu => by rw [hu.kind]
      rwa [find?_filter_keeps hremark, find?_filter_keeps hremark] at hfind
    · exact .some hbody

/-- Functions that go through the members of a declaration one after the other, passing over comments, keep
a relation between their results. -/
theorem foldl_members {α β : Type} {r : α → β → Prop} {f : α → Tree → α} {g : β → Tree → β}
    (hfg : ∀ a b, r a b → ∀ u u', Resembles source source' u u' → r (f a u) (g b u'))
    (hf : ∀ a u, u.isRemark = true → f a u = a) (hg : ∀ b u, u.isRemark = true → g b u = b) {a : α} {b : β}
    (hab : r a b) : r (t.members.foldl f a) (t'.members.foldl g b) := by
  have hcontainer := h.memberContainer?
  unfold Tree.members
  generalize t.memberContainer? = container, t'.memberContainer? = container' at hcontainer
  cases hcontainer with
  | none => exact hab
  | some hcontainer =>
    have hfold := List.rel_foldl hfg hab hcontainer.namedChildren
    rwa [foldl_filter_keeps hf, foldl_filter_keeps hg] at hfold

end Resembles

/-- Declarations of two texts look the same, and so do those they are in. -/
structure DeclaredAlike (source source' : List Char) (d d' : Declared) : Prop where
  outer : List.Forall₂ (Resembles source source') d.outer d'.outer
  decl : Resembles source source' d.decl d'.decl

theorem declaredAt_of_isRemark {outer : List Tree} {t : Tree} (h : t.isRemark = true) :
    declaredAt outer t = [] := by
  rw [declaredAt_eq, isClassLike_eq]
  rcases kind_of_isRemark h with hkind | hkind <;> rw [hkind] <;> rfl

theorem declaredAmong_filter_keeps {outer : List Tree} {t : Tree} (ts : List Tree) :
    declaredAmong outer (ts.filter t.keeps) = declaredAmong outer ts := by
  rw [declaredAmong_eq_flatMap, declaredAmong_eq_flatMap]
  exact flatMap_filter_keeps (fun u hu => declaredAt_of_isRemark hu) ts

theorem Resembles.interior {t t' : Tree} (h : Resembles source source' t t') :
    ∃ c c' : Tree, List.Forall₂ (Resembles source source') (t.interior.filter c.keeps)
      (t'.interior.filter c'.keeps) := by
  have hcontainer := h.memberContainer?
  unfold Tree.interior
  generalize t.memberContainer? = container, t'.memberContainer? = container' at hcontainer
  cases hcontainer with
  | none => exact ⟨t, t', .nil⟩
  | some hcontainer => exact ⟨_, _, hcontainer.children⟩

/-- What is declared at a node, compared with what is declared at any node that looks like it. -/
def DeclaresAlike (source source' : List Char) (t : Tree) : Prop :=
  ∀ t' outer outer', Resembles source source' t t' →
    List.Forall₂ (Resembles source source') outer outer' →
    List.Forall₂ (DeclaredAlike source source') (declaredAt outer t) (declaredAt outer' t')

theorem declaredAmong_alike {ts ts' outer outer' : List Tree}
    (h : List.Forall₂ (Resembles source source') ts ts') (hts : ∀ t ∈ ts, DeclaresAlike source source' t)
    (houter : List.Forall₂ (Resembles source source') outer outer') :
    List.Forall₂ (DeclaredAlike source source') (declaredAmong outer ts) (declaredAmong outer' ts') := by
  rw [declaredAmong_eq_flatMap, declaredAmong_eq_flatMap]
  exact forall₂_flatMap h fun t ht t' hres => hts t ht t' _ _ hres houter

theorem declaresAlike (t : Tree) : Forall (DeclaresAlike source source') t := by
  refine forall_of_below (fun t ih t' outer outer' h houter => ?_) t
  rw [declaredAt_eq, declaredAt_eq, ← h.isClassLike]
  split
  · obtain ⟨c, c', hinterior⟩ := h.interior
    refine .cons ⟨houter, h⟩ ?_
    have hdeclared := declaredAmong_alike hinterior
      (fun u hu => (forall_interior ih u (List.mem_filter.1 hu).1).self)
      (List.rel_append houter (.cons h .nil))
    rwa [declaredAmong_filter_keeps, declaredAmong_filter_keeps] at hdeclared
  · exact .nil

namespace Resembles

variable {root root' : Tree} (h : Resembles source source' root root')
include h

theorem declarations :
    List.Forall₂ (DeclaredAlike source source') root.declarations root'.declarations := by
  have hdeclared := declaredAmong_alike h.children (fun t _ => (declaresAlike t).self) .nil
  rwa [declaredAmong_filter_keeps, declaredAmong_filter_keeps] at hdeclared

/-! ## Scopes -/

theorem declName : Scope.declName source root = Scope.declName source' root' := by
  have hname := map_eq_of_rel (h.readChild? .name rfl) fun _ _ hname => hname
  rw [Scope.declName, hname]
  rfl

theorem ofHeader : Scope.ofHeader source root = Scope.ofHeader source' root' := by
  unfold Scope.ofHeader
  refine (foldl_filter_keeps (t := root) ?_ _ _).symm.trans ((foldl_forall₂ h.children ?_ _).trans
    (foldl_filter_keeps ?_ _ _))
  · intro scope t ht
    rcases kind_of_isRemark ht with hkind | hkind <;> simp only [hkind]
  · intro scope t t' ht
    rw [← ht.kind]
    split
    · next hkind => rw [ht.chars (by simp [isRead, hkind, Kind.isRead])]
    · next hkind => rw [ht.chars (by simp [isRead, hkind, Kind.isRead])]
    · rfl
  · intro scope t ht
    rcases kind_of_isRemark ht with hkind | hkind <;> simp only [hkind]

end Resembles

theorem DeclaredAlike.fullName {d d' : Declared} (h : DeclaredAlike source source' d d') (scope : Scope) :
    Scope.fullName source scope d = Scope.fullName source' scope d' := by
  obtain ⟨outer, decl⟩ := d
  obtain ⟨outer', decl'⟩ := d'
  obtain ⟨houter, hdecl⟩ := h
  have hname : Scope.declName source decl = Scope.declName source' decl' := hdecl.declName
  cases houter with
  | nil => simp only [Scope.fullName, hname]
  | cons hfirst hrest =>
    have hinner (name : String) (t t' : Tree) (ht : Resembles source source' t t') :
        name ++ "." ++ .ofList (Scope.declName source t) =
          name ++ "." ++ .ofList (Scope.declName source' t') := by
      rw [ht.declName]
    simp only [Scope.fullName, hname, hfirst.declName, foldl_forall₂ hrest hinner]

theorem Resembles.ofTree {root root' : Tree} (h : Resembles source source' root root') :
    Scope.ofTree source root = Scope.ofTree source' root' := by
  have hknown (scope : Scope) (known : Dict String) (d d' : Declared)
      (hd : DeclaredAlike source source' d d') :
      known.insert (.ofList (Scope.declName source d.decl)) (Scope.fullName source scope d) =
        known.insert (.ofList (Scope.declName source' d'.decl)) (Scope.fullName source' scope d') := by
    rw [hd.decl.declName, hd.fullName]
  simp only [Scope.ofTree, h.ofHeader, foldl_forall₂ h.declarations (hknown _)]

/-! ## A comment between two tokens -/

/-- A node does not mind a comment at a position: no text that is used is torn apart there, and if all
children count, the comment falls into one of them. -/
structure Admits (pos : Nat) (t : Tree) : Prop where
  read : t.isRead = true → ¬t.Spans pos
  spread : t.kind = .spreadParameter → ∀ c ∈ t.children, ¬c.Spans pos
  counts : t.countsAll = true → t.Spans pos → ∃ c ∈ t.children, c.Spans pos

instance (pos : Nat) : DecidablePred (Admits pos) := fun t =>
  decidable_of_iff ((t.isRead = true → ¬t.Spans pos) ∧
      (t.kind = .spreadParameter → ∀ c ∈ t.children, ¬c.Spans pos) ∧
      (t.countsAll = true → t.Spans pos → ∃ c ∈ t.children, c.Spans pos))
    ⟨fun ⟨hread, hspread, hcounts⟩ => ⟨hread, hspread, hcounts⟩,
      fun h => ⟨h.read, h.spread, h.counts⟩⟩

variable {i : Insertion} {t : Tree}

/-- A part of the text that the comment does not tear apart is left. -/
theorem slice_remarked {start stop : Nat} (h : ¬(start < i.front.length ∧ i.front.length < stop)) :
    slice i.remarked (i.gap.begin start) (i.gap.finish stop) = slice i.text start stop := by
  unfold slice
  by_cases hstart : start < i.front.length
  · have hstop : stop ≤ i.front.length := by omega
    have hle := Nat.le_of_lt hstart
    have hlength : stop - start ≤ (i.front.drop start).length := by
      rw [List.length_drop]
      omega
    have hbegin : i.gap.begin start = start := if_pos hstart
    have hfinish : i.gap.finish stop = stop := if_pos hstop
    rw [hbegin, hfinish, Insertion.remarked, Insertion.text, List.append_assoc,
      List.drop_append_of_le_length hle, List.drop_append_of_le_length hle,
      List.take_append_of_le_length hlength, List.take_append_of_le_length hlength]
  · have hbegin : i.gap.begin start = start + i.remark.length := if_neg hstart
    have hbehind (l : List Char) {n : Nat} (hn : l.length ≤ n) :
        (l ++ i.back).drop n = i.back.drop (n - l.length) := by
      rw [List.drop_append, List.drop_eq_nil_of_le hn, List.nil_append]
    have hdrop : i.remarked.drop (start + i.remark.length) = i.text.drop start := by
      have hlength : (i.front ++ i.remark).length = i.front.length + i.remark.length :=
        List.length_append
      rw [Insertion.remarked, Insertion.text, hbehind _ (by omega), hbehind _ (by omega), hlength]
      congr 1
      omega
    rw [i.gap.finish_sub_begin (Nat.le_of_not_lt hstart), hbegin, hdrop]

@[simp] theorem isRead_moved (g : Gap) : (t.moved g).isRead = t.isRead := by
  simp [isRead]

@[simp] theorem isRemark_moved (g : Gap) : (t.moved g).isRemark = t.isRemark := by
  simp [isRemark]

@[simp] theorem countsAll_moved (g : Gap) : (t.moved g).countsAll = t.countsAll := by
  simp [countsAll]

theorem chars_moved (h : ¬t.Spans i.front.length) : (t.moved i.gap).chars i.remarked = t.chars i.text := by
  rw [chars, start_moved, stop_moved]
  exact slice_remarked h

theorem readText_moved (h : t.isRead = true → ¬t.Spans i.front.length) :
    (t.moved i.gap).readText i.remarked = t.readText i.text := by
  unfold readText
  rw [isRead_moved]
  split
  · next hread => exact chars_moved (h hread)
  · rfl

theorem spreadText_moved (h : t.kind = .spreadParameter → ∀ c ∈ t.children, ¬c.Spans i.front.length) :
    (t.moved i.gap).spreadText i.remarked = t.spreadText i.text := by
  unfold spreadText
  rw [kind_moved]
  split
  · next hkind =>
    unfold spreadType? namedChildren
    rw [children_moved, List.find?_filter, List.find?_filter, List.find?_map]
    simp only [Function.comp_def, kind_moved]
    cases htype : t.children.find? _ with
    | none => rfl
    | some type => exact chars_moved (h hkind type (List.mem_of_find?_eq_some htype))
  · rfl

/-- No node minds a comment at a position, and no comment is torn apart there. -/
def Unmoved (pos : Nat) (t : Tree) : Prop :=
  t.Forall fun t => Admits pos t ∧ (t.isRemark = true → ¬t.Spans pos)

theorem look_moved (h : t.Unmoved i.front.length) : (t.moved i.gap).look i.remarked = t.look i.text := by
  induction h with
  | @node k f s e cs self children ih =>
    have hadmits := self.1
    rw [look_eq, look_eq, readText_moved hadmits.read, spreadText_moved hadmits.spread, kind_moved,
      field_moved]
    congr 1
    rw [children_moved, List.filter_map, List.map_map]
    have hkeeps : (keeps ((Tree.node k f s e cs).moved i.gap)) ∘ moved i.gap =
        keeps (Tree.node k f s e cs) := by
      funext u
      simp [keeps]
    rw [hkeeps]
    exact List.map_congr_left fun u hu => ih u (List.mem_filter.1 hu).1

theorem looks_moved (all : Bool) {ts : List Tree} (h : ∀ t ∈ ts, t.Unmoved i.front.length) :
    looks i.remarked all (ts.map (moved i.gap)) = looks i.text all ts := by
  induction ts with
  | nil => rfl
  | cons t ts ih =>
    rw [List.map_cons, looks, looks, isRemark_moved, look_moved (h t List.mem_cons_self),
      ih fun t ht => h t (List.mem_cons_of_mem _ ht)]

/-- The leaf of the comment. -/
abbrev remark (i : Insertion) : Tree := .ofToken .blockComment i.comment

theorem stop_moved_le_remark : (t.moved i.gap).stop ≤ (remark i).start ↔ t.stop ≤ i.front.length := by
  rw [stop_moved]
  exact i.gap.finish_le_pos

theorem start_moved_lt_remark : (t.moved i.gap).start < (remark i).start ↔ t.start < i.front.length := by
  rw [start_moved]
  exact i.gap.begin_lt_pos

theorem isRemark_of_children {t : Tree} (h : t.children ≠ []) : t.isRemark = false := by
  simp [isRemark, h]

theorem insertAmong_ne_nil (c : Tree) (ts : List Tree) : insertAmong c ts ≠ [] := by
  cases ts with
  | nil => simp [insertAmong]
  | cons t ts =>
    unfold insertAmong
    split
    · simp
    · split <;> simp

mutual

/-- A node that does not mind it looks the same with the comment inside. -/
theorem look_insertInto : ∀ {t : Tree}, t.WellNested → t.Unmoved i.front.length →
    t.Spans i.front.length → (insertInto (remark i) (t.moved i.gap)).look i.remarked = t.look i.text
  | .node k f s e cs, hnested, hunmoved, hspans => by
    have hadmits := hunmoved.self.1
    have hread : ¬(Tree.node k f s e cs).isRead = true := fun hread => hadmits.read hread hspans
    have hspread : ¬k = .spreadParameter := by
      intro hkind
      obtain ⟨c, hc, hinside⟩ := hadmits.counts (by simp [countsAll, kind, hkind]) hspans
      exact hadmits.spread hkind c hc hinside
    have hlooks := looks_insertAmong (countsAll (.node k f s e cs)) (wellNested_iff.1 hnested).2
      (fun t ht => hunmoved.of_mem ht) fun hall => hadmits.counts hall hspans
    rw [moved_node, insertInto, look, look]
    congr 1
    · exact (if_neg hread).trans (if_neg hread).symm
    · exact (if_neg hspread).trans (if_neg hspread).symm

theorem looks_insertAmong (all : Bool) : ∀ {ts : List Tree} {lo hi : Nat}, NestedIn lo hi ts →
    (∀ t ∈ ts, t.Unmoved i.front.length) → (all = true → ∃ t ∈ ts, t.Spans i.front.length) →
    looks i.remarked all (insertAmong (remark i) (ts.map (moved i.gap))) = looks i.text all ts
  | [], _, _, _, _, hall => by
    cases all with
    | true =>
      obtain ⟨t, ht, -⟩ := hall rfl
      cases ht
    | false => rfl
  | t :: ts, _, _, hnested, hunmoved, hall => by
    obtain ⟨-, -, ht, hts⟩ := nestedIn_cons.1 hnested
    have hunmoved_t := hunmoved t List.mem_cons_self
    have hunmoved_ts := fun u hu => hunmoved u (List.mem_cons_of_mem t hu)
    rw [List.map_cons, insertAmong]
    simp only [stop_moved_le_remark, start_moved_lt_remark]
    split
    · next hle =>
      have hrest := looks_insertAmong all hts hunmoved_ts fun h => by
        obtain ⟨u, hu, hspans⟩ := hall h
        rcases List.mem_cons.1 hu with rfl | hu
        · exact absurd hspans.2 (Nat.not_lt.2 hle)
        · exact ⟨u, hu, hspans⟩
      rw [looks, looks, hrest, isRemark_moved, look_moved hunmoved_t]
    · next hlt =>
      split
      · next hbefore =>
        have hspans : t.Spans i.front.length := ⟨hbefore, Nat.lt_of_not_le hlt⟩
        have hremark : (insertInto (remark i) (t.moved i.gap)).isRemark = t.isRemark := by
          rw [isRemark_of_children (by rw [children_insertInto]; exact insertAmong_ne_nil _ _)]
          by_contra hne
          exact hunmoved_t.self.2 (by simpa using hne) hspans
        rw [looks, looks, hremark, look_insertInto ht hunmoved_t hspans, looks_moved all hunmoved_ts]
      · next hbefore =>
        -- the comment follows no sibling into which it could fall, so not all siblings count
        have hnone : all = false := by
          by_contra hne
          obtain ⟨u, hu, hspans⟩ := hall (by simpa using hne)
          rcases List.mem_cons.1 hu with rfl | hu
          · exact hbefore hspans.1
          · have hle := (hts.of_mem hu).1
            have hnonempty := (wellNested_iff.1 ht).1
            have := hspans.1
            omega
        subst hnone
        have hmoved : looks i.remarked false ((t :: ts).map (moved i.gap)) =
            looks i.text false (t :: ts) :=
          looks_moved false hunmoved
        exact hmoved

end

end Tree

end Testwright.Java
