import Testwright.Proofs.Java.Alternatives
import Testwright.Proofs.Java.Locality
import Testwright.Proofs.Java.Shapes

/-!
# What is known about the grammar of Java

Some facts about all matches of the variables, checked on their rules: how deep these nest (`paced`), how
they move through brackets, semicolons and blocks (`charts_heading`, `charts_item`, `charts_clause`), with
which words and symbols matches begin (`starts_spec`), and which kinds of nodes they give (`holds_kinds`).
-/

namespace Testwright.Java

namespace Grammar

open Rule

/-- How deep the rules of the variables nest before they take a token. -/
def cost : Variable → Nat
  | .classType | .qualifiedName => 2
  | .block | .parenthesized | .declaratorId | .arrayInitializer | .arguments | .switchExpression
  | .switchBlock | .recordPatternBody | .typeArguments | .typeParameters | .formalParameters | .throws
  | .classBody | .constructorBody => 3
  | .creation | .switchLabel | .decoration => 4
  | .variableDeclarator | .recordPattern => 6
  | .simpleType => 8
  | .declarators | .lambda | .dimensions => 9
  | .unannotatedType => 10
  | .type => 12
  | .typeList => 15
  | .modifiers => 17
  | .localVariable | .classDeclaration | .interfaceDeclaration | .enumDeclaration | .recordDeclaration
  | .annotationTypeDeclaration | .methodDeclaration => 21
  | .primary | .formalParameter => 22
  | .declaration => 29
  | .operand _ => 30
  | .expression .. | .classMember => 32
  | .initializer => 34
  | .elementValue => 35
  | .statement => 54
  | .program => 58

/-- Weaker operators only add to the steps of an expression. -/
theorem operatorSteps_sublist (label : Bool) (min : Nat) :
    (operatorSteps label min).Sublist (operatorSteps label 0) := by
  unfold operatorSteps
  refine ((List.Sublist.append ?_ ?_).append ((List.Sublist.map _ ?_))).append ?_
  · split <;> simp
  · split <;> simp
  · exact List.monotone_filter_right _ fun op _ => by simp
  · split <;> simp

theorem paced : known.Paced cost grammar where
  toHolds := holds_known
  fits v hv := by
    cases v with
    | expression label min =>
      have hsub := operatorSteps_sublist label min
      have hsteps : fitsSteps known cost (operatorSteps label 0) = true := by
        cases label <;> rfl
      have hdepth : depthSteps known cost (operatorSteps label 0) < 255 := by
        cases label <;> exact Nat.le_of_ble_eq_true rfl
      have hle : depthSteps known cost (operatorSteps label min) ≤
          depthSteps known cost (operatorSteps label 0) := depthSteps_le_of_sublist hsub
      have hfits := fitsSteps_of_sublist hsub hsteps
      exact Bool.and_eq_true_iff.2
        ⟨Bool.and_eq_true_iff.2 ⟨rfl, hfits⟩, decide_eq_true (Nat.lt_of_le_of_lt hle hdepth)⟩
    | operand label => cases label <;> rfl
    | _ => rfl
  depth v hv := by
    cases v with
    | expression label min => exact Nat.le_of_ble_eq_true rfl
    | operand label => cases label <;> exact Nat.le_of_ble_eq_true rfl
    | _ => decide +kernel

/-! ## What rules do to brackets -/

/-- Nothing but the header of a declaration. -/
def heading : Policy := ⟨.bar, .bar⟩

/-- A member that ends with a semicolon or a block. -/
def item : Policy := ⟨.finish, .finish⟩

/-- A member that ends with a semicolon. -/
def sentence : Policy := ⟨.finish, .pass⟩

/-- The variables of which headers are made. -/
def inHeading : Variable → Bool
  | .type | .unannotatedType | .simpleType | .classType | .typeArguments | .dimensions | .decoration
  | .modifiers | .qualifiedName | .typeParameters | .typeList | .formalParameters | .throws => true
  | _ => false

/-- The variables that end with a block or a semicolon. -/
def isItem : Variable → Bool
  | .block | .declaration | .classDeclaration | .interfaceDeclaration | .enumDeclaration
  | .recordDeclaration | .annotationTypeDeclaration | .classBody | .methodDeclaration
  | .constructorBody => true
  | _ => false

/-- The variables with semicolons outside of brackets. -/
def hasSemicolon : Variable → Bool
  | .program | .statement | .localVariable | .declaration | .classMember | .methodDeclaration => true
  | _ => false

def ofHeading (v : Variable) : Option Level := if inHeading v then some .base else none

def ofItem (v : Variable) : Option Level :=
  if inHeading v then some .base else if isItem v then some .done else none

def ofClause (v : Variable) : Option Level := if hasSemicolon v then none else some .base

/-- An expression keeps to what its operands and all operators keep to. -/
theorem walk_expression {p : Policy} {effect : Variable → Option Level} {label : Bool} (min : Nat)
    (hoperand : effect (.operand label) = some .base)
    (hsteps : walkSteps p effect (operatorSteps label 0) .base = true) :
    (grammar (.expression label min)).walk p effect .base = some .base :=
  walk_fold.2 ⟨hoperand, walkSteps_of_subset (operatorSteps_sublist label min).subset hsteps⟩

theorem balanced (v : Variable) :
    (grammar v).walk Policy.plain (fun _ => some .base) .base = some .base := by
  cases v with
  | expression label min => exact walk_expression min rfl (by cases label <;> rfl)
  | operand label => cases label <;> rfl
  | _ => rfl

/-- Where blocks are barred, the variables of headers can stand whatever semicolons do. -/
theorem charts_heading (stance : Stance) : (Policy.mk stance .bar).Charts ofHeading grammar :=
  .of_plain balanced fun v q h => by
    cases v <;> first
      | (cases h; done)
      | (cases h; cases stance <;> rfl)

theorem charts_item : item.Charts ofItem grammar :=
  .of_plain balanced fun v q h => by
    cases v <;> first
      | (cases h; done)
      | (cases h; rfl)

/-- Where no block ends a text, all variables without semicolons outside of brackets can stand in it. -/
theorem charts_clause (stance : Stance) :
    (Policy.mk stance .pass).Charts ofClause grammar :=
  .of_plain balanced fun v q h => by
    cases v with
    | expression label min =>
      cases h
      exact walk_expression min rfl (by cases label <;> cases stance <;> rfl)
    | operand label =>
      cases h
      cases label <;> cases stance <;> rfl
    | _ => first
      | (cases h; done)
      | (cases h; cases stance <;> rfl)

theorem ready_var {v : Variable} (h : v ≠ .program) : (var v : Rule Variable).Ready known cost :=
  ⟨decide_eq_true h, rfl, by cases v <;> exact Nat.le_of_ble_eq_true rfl⟩

/-! ## First tokens -/

/-- The words and symbols with which modifiers begin. -/
def modifierStarts : List String := ["@", "non", "sealed"] ++ modifierWords

/-- The words and symbols with which the matches of some variables begin. -/
def starts : Variable → Option (List String)
  | .block | .classBody => some ["\x7b"]
  | .parenthesized => some ["("]
  | .switchExpression => some ["switch"]
  | .decoration => some ["@"]
  | .typeParameters => some ["<"]
  | .modifiers => some modifierStarts
  | .classDeclaration => some ("class" :: modifierStarts)
  | .interfaceDeclaration => some ("interface" :: modifierStarts)
  | .enumDeclaration => some ("enum" :: modifierStarts)
  | .recordDeclaration => some ("record" :: modifierStarts)
  | .annotationTypeDeclaration => some ("@interface" :: modifierStarts)
  | .declaration =>
    some (["package", "import", "class", "interface", "enum", "record", "@interface", "open",
      "module"] ++ modifierStarts)
  | _ => none

theorem starts_spec (v : Variable) (ss : List String) (h : starts v = some ss) :
    ∃ ss', (grammar v).firsts known starts = some ss' ∧ ss' ⊆ ss := by
  cases v <;> first
    | (cases h; done)
    | (cases h; exact ⟨_, rfl, by decide⟩)

theorem begins_of_eval {rule : Rule Variable} {ts rest : List Token} {xs : List Tree} {ss : List String}
    (hready : rule.Ready known cost) (hfirsts : rule.firsts known starts = some ss)
    (hgives : rule.gives known = true) (heval : eval grammar rule ts = some (xs, rest)) :
    Begins ss ts :=
  Rule.begins_of_eval paced hready starts_spec hfirsts hgives heval

theorem eval_eq_none_of_not_begins {rule : Rule Variable} {ts : List Token} {ss : List String}
    (hready : rule.Ready known cost) (hfirsts : rule.firsts known starts = some ss)
    (hgives : rule.gives known = true) (h : ¬Begins ss ts) : eval grammar rule ts = none :=
  Option.eq_none_iff_forall_ne_some.2 fun _ heval => h (begins_of_eval hready hfirsts hgives heval)

/-! ## Kinds of nodes -/

/-- The kind of the nodes that a variable gives, if this matters and there is only one. -/
def kindOf : Variable → Option Kind
  | .block => some .block
  | .classBody => some .classBody
  | .switchExpression => some .switchExpression
  | .localVariable => some .localVariableDeclaration
  | .classDeclaration => some .classDeclaration
  | .interfaceDeclaration => some .interfaceDeclaration
  | .enumDeclaration => some .enumDeclaration
  | .recordDeclaration => some .recordDeclaration
  | .annotationTypeDeclaration => some .annotationTypeDeclaration
  | .methodDeclaration => some .methodDeclaration
  | _ => none

/-- The kinds of nodes and the parts they play. -/
def kinds : Forms Variable where
  shapes
    | .declarators => [⟨none, none⟩, ⟨none, some .declarator⟩]
    | .declaratorId => [⟨none, some .name⟩, ⟨none, some .dimensions⟩]
    | v => [⟨kindOf v, none⟩]
  allows _ _ := true

theorem holds_kinds : kinds.Holds grammar where
  conforms v := by
    have hsteps (label : Bool) (min : Nat) : conformsSteps kinds (operatorSteps label min) = true := by
      have hall : ∀ step ∈ operatorSteps label 0, stepConforms kinds step = true := by
        cases label <;> decide
      rw [conformsSteps_eq_all, List.all_eq_true]
      exact fun step hstep => hall step ((operatorSteps_sublist label min).subset hstep)
    cases v with
    | expression label min => exact Bool.and_eq_true_iff.2 ⟨rfl, hsteps label min⟩
    | operand label => cases label <;> rfl
    | _ => rfl
  covers v := by
    cases v with
    | expression label min => exact List.forall_mem_singleton.2 ⟨_, List.mem_cons_self, rfl⟩
    | operand label => cases label <;> decide
    | _ => decide

/-- The trees of a match have the shapes that its rule says. -/
theorem fits_of_eval {rule : Rule Variable} {ts rest : List Token} {xs : List Tree}
    (hrule : rule.conforms kinds = true) (hsane : Sane ts)
    (heval : eval grammar rule ts = some (xs, rest)) : ∀ x ∈ xs, ∃ s ∈ rule.shapes kinds, s.Fits x :=
  fun x hx => ((matches_of_run heval).formed holds_kinds (fun w hw => (hsane w hw).literal) hrule
    (fun _ hw => hw) x hx).1

/-- The variables whose matches are one node. -/
def ones (v : Variable) : Bool := (kindOf v).isSome || v == .declaration

theorem lone_of_ones (v : Variable) (h : ones v = true) : (grammar v).lone ones = true := by
  cases v <;> first
    | (cases h; done)
    | rfl

end Grammar

end Testwright.Java
