import Testwright.Java.Grammar
import Testwright.Project.Model

/-!
# Declarations in a syntax tree

Members, modifiers, parameter types and signatures of class-like declarations and methods. A
*signature* is the name of a method and the types of its parameters without blanks, as in
`put(Map<K,V>,int[],String...)`.
-/

namespace Testwright.Java

namespace Tree

/-- Whether a node declares a class, an interface, an enumeration or a record. -/
def isClassLike (t : Tree) : Bool :=
  match t.kind with
  | .classDeclaration => true
  | .interfaceDeclaration => true
  | .enumDeclaration => true
  | .recordDeclaration => true
  | _ => false

/-- The node that holds the members of a class-like declaration; in an enumeration that is the
part of the body behind the constants. -/
def memberContainer? (decl : Tree) : Option Tree :=
  match decl.child? .body with
  | none => none
  | some body =>
    if body.kind = .enumBody then
      body.namedChildren.find? fun c => c.kind == .enumBodyDeclarations
    else some body

/-- The members of a class-like declaration, comments included. -/
def members (decl : Tree) : List Tree := (decl.memberContainer?.map namedChildren).getD []

def hasModifier (decl : Tree) (word : String) : Bool :=
  match decl.children.find? fun c => c.kind == .modifiers with
  | none => false
  | some m => m.children.any fun c => c.kind == .token word

/-- The type of a parameter that stands for any number of arguments. -/
def spreadType? (param : Tree) : Option Tree :=
  param.namedChildren.find? fun c => c.kind != .modifiers && c.kind != .variableDeclarator

/-- The type of a parameter as a part of a signature: brackets after the name count for the type,
and a parameter for any number of arguments ends in three points. -/
def parameterType? (source : List Char) (param : Tree) : Option String :=
  match param.kind with
  | .formalParameter =>
    (param.child? .type).map fun type =>
      type.squeezed source ++ ((param.child? .dimensions).map (squeezed source)).getD ""
  | .spreadParameter => param.spreadType?.map fun type => type.squeezed source ++ "..."
  | _ => none

/-- The types of the parameters of a method or constructor. -/
def parameterTypes (source : List Char) (decl : Tree) : List String :=
  match decl.child? .parameters with
  | none => []
  | some params => params.namedChildren.filterMap (parameterType? source)

/-- The signature of a method or constructor. -/
def signature? (source : List Char) (decl : Tree) : Option String :=
  (decl.child? .name).map fun name =>
    name.text source ++ "(" ++ ",".intercalate (decl.parameterTypes source) ++ ")"

/-- The text of a declaration before its body, or without its semicolon if it has no body. -/
def header (source : List Char) (decl : Tree) : List Char :=
  match decl.child? .body with
  | some body => Text.trimEnd (slice source decl.start body.start)
  | none => Text.trimEnd (Text.dropEndWhile (· == ';') (decl.chars source))

/-- A declaration without its body, ended by a semicolon. -/
def brief (source : List Char) (decl : Tree) : String := .ofList (decl.header source ++ [';'])

/-! ## Nested declarations -/

end Tree

/-- A class-like declaration with those it is nested in, the outermost first. -/
structure Declared where
  outer : List Tree
  decl : Tree
  deriving Repr, Inhabited

namespace Tree

mutual

/-- The class-like declarations among some siblings and in their bodies, each before those nested
in it. Classes inside methods and expressions do not count. -/
def declaredAmong (outer : List Tree) : List Tree → List Declared
  | [] => []
  | t :: rest => declaredAt outer t ++ declaredAmong outer rest

/-- A class-like declaration and those in its body. -/
def declaredAt (outer : List Tree) : Tree → List Declared
  | .node k f s e cs =>
    let decl : Tree := .node k f s e cs
    if decl.isClassLike then ⟨outer, decl⟩ :: declaredInBody (outer ++ [decl]) cs else []

/-- The class-like declarations in the body among the children of a declaration. -/
def declaredInBody (outer : List Tree) : List Tree → List Declared
  | [] => []
  | .node k f _ _ cs :: rest =>
    if f = some .body then
      if k = .enumBody then declaredInEnum outer cs else declaredAmong outer cs
    else declaredInBody outer rest

/-- The class-like declarations behind the constants of an enumeration. -/
def declaredInEnum (outer : List Tree) : List Tree → List Declared
  | [] => []
  | .node k _ _ _ cs :: rest =>
    if k = .enumBodyDeclarations then declaredAmong outer cs else declaredInEnum outer rest

end

/-- The class-like declarations of a source, nested ones included. -/
def declarations (root : Tree) : List Declared := declaredAmong [] root.children

/-- The methods of a class-like declaration. -/
def methods (decl : Tree) : List Tree := decl.members.filter fun m => m.kind == .methodDeclaration

end Tree

/-- The signatures of the methods of all class-like declarations of a source. -/
def declaredSignatures? (source : List Char) : Option (List String) :=
  (parse? source).map fun root =>
    root.declarations.flatMap fun d => d.decl.methods.filterMap (Tree.signature? source)

end Testwright.Java
