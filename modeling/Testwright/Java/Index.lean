import Testwright.Java.Scope
import Testwright.Project.Overload

/-!
# From sources to the model of a project

`indexSource?` turns the class-like declarations of a source into classes of the project model. A
method's calls are found under the class of their receiver, as far as declared types tell it, and
with the types of their arguments, as far as literals, declarations, casts and creations tell
them.
-/

namespace Testwright.Java

namespace Index

/-- The declared types of variables by their names. -/
abbrev Types := Dict String

/-- A type without the angle brackets that leave the type arguments open. -/
def dropDiamond (type : String) : String :=
  match Text.dropSuffix? ['<', '>'] type.toList with
  | some r => .ofList r
  | none => type

/-- Take in the variables of a declaration of fields or local variables; a variable declared by
`var` has the type of the object created for it. -/
def addDeclarators (source : List Char) (decl : Tree) (types : Types) : Types :=
  match decl.child? .type with
  | none => types
  | some type =>
    let declared := type.squeezed source
    (decl.childrenAt .declarator).foldl (fun types d =>
      match d.child? .name with
      | none => types
      | some name =>
        let base :=
          if declared = "var" then
            match d.child? .value with
            | some value =>
              if value.kind = .objectCreationExpression then
                match value.child? .type with
                | some created => dropDiamond (created.squeezed source)
                | none => declared
              else declared
            | none => declared
          else declared
        let dims := ((d.child? .dimensions).map (Tree.squeezed source)).getD ""
        types.insert (name.text source) (base ++ dims)) types

/-- Take in a variable that has a type and a name of its own. -/
def addVariable (source : List Char) (decl : Tree) (types : Types) : Types :=
  match decl.child? .type, decl.child? .name with
  | some type, some name => types.insert (name.text source) (type.squeezed source)
  | _, _ => types

/-- Take in a parameter; inside the body one for any number of arguments is an array. -/
def addParameter (source : List Char) (types : Types) (param : Tree) : Types :=
  match param.kind with
  | .formalParameter => addVariable source param types
  | .spreadParameter =>
    let declarator := param.namedChildren.find? fun c => c.kind == .variableDeclarator
    match param.spreadType?, declarator.bind fun d => d.child? .name with
    | some type, some name => types.insert (name.text source) (type.squeezed source ++ "[]")
    | _, _ => types
  | _ => types

/-- Take in the variables declared by a node of a body. -/
def addLocal (source : List Char) (types : Types) (t : Tree) : Types :=
  match t.kind with
  | .localVariableDeclaration => addDeclarators source t types
  | .enhancedForStatement => addVariable source t types
  | .resource => addVariable source t types
  | _ => types

/-- What is known inside a method about the names it uses. -/
structure Surroundings where
  source : List Char
  scope : Scope
  /-- The full and simple name of the class. -/
  className : String
  simpleName : String
  fields : Types
  locals : Types

namespace Surroundings

/-- The declared type of a variable; local variables hide fields. -/
def typeOf? (s : Surroundings) (name : String) : Option String :=
  (s.locals.get? name).or (s.fields.get? name)

/-- The class on which a call with a receiver lands. A name that is no variable is a class if it
begins with a capital letter. -/
def receiverClass? (s : Surroundings) : Option Tree → Option String
  | none => some s.className
  | some object =>
    match object.kind with
    | .this => some s.className
    | .identifier =>
      let name := object.text s.source
      match s.typeOf? name with
      | some type => s.scope.resolveClass? type.toList
      | none =>
        if (name.toList.head?.map Char.isUpper).getD false then s.scope.resolveClass? name.toList
        else none
    | .fieldAccess =>
      match object.child? .object, object.child? .field with
      | some inner, some field =>
        if inner.kind = .this then
          (s.fields.get? (field.text s.source)).bind fun type => s.scope.resolveClass? type.toList
        else none
      | _, _ => none
    | _ => none

/-- Whether a literal ends in a letter of either case. -/
def endsIn (small : Char) (text : List Char) : Bool :=
  text.getLast? == some small || text.getLast? == some small.toUpper

mutual

/-- The type of an argument, as far as its form tells it. -/
def argumentType (s : Surroundings) : Tree → String
  | .node k f a b cs =>
    let arg : Tree := .node k f a b cs
    match k with
    | .identifier => (s.typeOf? (arg.text s.source)).getD unknownType
    | .stringLiteral => "String"
    | .decimalInteger => if endsIn 'l' (arg.chars s.source) then "long" else "int"
    | .hexInteger => if endsIn 'l' (arg.chars s.source) then "long" else "int"
    | .octalInteger => if endsIn 'l' (arg.chars s.source) then "long" else "int"
    | .binaryInteger => if endsIn 'l' (arg.chars s.source) then "long" else "int"
    | .decimalFloat => if endsIn 'f' (arg.chars s.source) then "float" else "double"
    | .hexFloat => if endsIn 'f' (arg.chars s.source) then "float" else "double"
    | .trueLiteral => "boolean"
    | .falseLiteral => "boolean"
    | .characterLiteral => "char"
    | .this => s.simpleName
    | .objectCreationExpression => s.writtenType arg
    | .castExpression => s.writtenType arg
    | .parenthesizedExpression => s.firstType cs
    | _ => unknownType

/-- The type of the first named node of a list. -/
def firstType (s : Surroundings) : List Tree → String
  | [] => unknownType
  | t :: rest => if t.kind.named then argumentType s t else firstType s rest

/-- The type that a cast or creation names. -/
def writtenType (s : Surroundings) (arg : Tree) : String :=
  match arg.child? .type with
  | some type => dropDiamond (type.squeezed s.source)
  | none => unknownType

end

/-- The class that a call lands on and its signature. -/
def call? (s : Surroundings) (t : Tree) : Option (String × String) :=
  match t.child? .name, s.receiverClass? (t.child? .object) with
  | some name, some target =>
    let args := ((t.child? .arguments).map Tree.namedChildren).getD []
    some (target,
      name.text s.source ++ "(" ++ ",".intercalate (args.map s.argumentType) ++ ")")
  | _, _ => none

def calls (s : Surroundings) (body : Tree) : Calls :=
  ((body.nodes fun t => t.kind == .methodInvocation).filterMap s.call?).foldl
    (fun calls (target, signature) => calls.add target (Names.insert ∅ signature)) ∅

end Surroundings

/-- The calls that a method or constructor makes. -/
def callsIn (source : List Char) (scope : Scope) (fullName simpleName : String) (fields : Types)
    (decl : Tree) : Calls :=
  match decl.child? .body with
  | none => ∅
  | some body =>
    let params := ((decl.child? .parameters).map Tree.namedChildren).getD []
    let locals := params.foldl (addParameter source) ∅
    let locals := (body.nodes fun t =>
      t.kind == .localVariableDeclaration || t.kind == .enhancedForStatement ||
        t.kind == .resource).foldl (addLocal source) locals
    let s : Surroundings := { source, scope, className := fullName, simpleName, fields, locals }
    s.calls body

/-- Whether a name is a word followed by a capital letter. -/
def isWordThenCapital (word : String) (name : String) : Bool :=
  match Text.dropPrefix? word.toList name.toList with
  | some (c :: _) => c.isUpper
  | _ => false

/-- Whether a method is an accessor by its name and number of parameters. -/
def isAccessor (name : String) (params : Nat) : Bool :=
  ((isWordThenCapital "get" name || isWordThenCapital "is" name) && params == 0) ||
    (isWordThenCapital "set" name && params == 1)

def method? (source : List Char) (scope : Scope) (fullName simpleName : String) (fields : Types)
    (decl : Tree) : Option MethodInfo :=
  match decl.child? .name, decl.signature? source with
  | some name, some signature =>
    let params := (decl.parameterTypes source).map fun t => scope.descriptor t.toList
    let result := ((decl.child? .type).map fun t => scope.descriptor (t.chars source)).getD "V"
    some
      { name := name.text source
        signature
        descriptor := "(" ++ String.join params ++ ")" ++ result
        brief := decl.brief source
        source := decl.text source
        calls := callsIn source scope fullName simpleName fields decl }
  | _, _ => none

def addConstructor (source : List Char) (scope : Scope) (fields : Types) (c : ClassInfo)
    (decl : Tree) : ClassInfo :=
  match decl.signature? source with
  | none => c
  | some signature =>
    let calls := (callsIn source scope c.fullName c.name fields decl).filter fun target _ =>
      !c.isNamed target
    { c with
      constructorCalls := calls.entries.foldl (fun all e => all.add e.1 e.2) c.constructorCalls
      constructors := c.constructors ++
        [{ signature, brief := decl.brief source, source := decl.text source }] }

def addMethod (source : List Char) (scope : Scope) (fields : Types) (c : ClassInfo)
    (decl : Tree) : ClassInfo :=
  match method? source scope c.fullName c.name fields decl with
  | none => c
  | some m =>
    let accessors :=
      if isAccessor m.name (decl.parameterTypes source).length then
        [{ signature := m.signature, brief := m.brief, source := m.source }]
      else []
    { c with accessors := c.accessors ++ accessors }.insertMethod m

def classOf (source : List Char) (scope : Scope) (d : Declared) : ClassInfo :=
  let members := d.decl.members
  let fieldDecls := members.filter fun m => m.kind == .fieldDeclaration
  let fields := fieldDecls.foldl (fun types m => addDeclarators source m types) ∅
  let c : ClassInfo :=
    { fullName := scope.fullName source d
      name := .ofList (Scope.declName source d.decl)
      package := scope.packageLine
      header := .ofList (d.decl.header source)
      imports := scope.importLines
      fields := fieldDecls.map fun m => .ofList (Text.trim (m.chars source)) }
  members.foldl (fun c m =>
    match m.kind with
    | .constructorDeclaration => addConstructor source scope fields c m
    | .methodDeclaration => addMethod source scope fields c m
    | _ => c) c

/-- The classes of a syntax tree by their full names, before reconciliation. -/
def classesOf (source : List Char) (root : Tree) : Dict ClassInfo :=
  let scope := Scope.ofTree source root
  root.declarations.foldl (fun classes d =>
    classes.insert (scope.fullName source d) (classOf source scope d)) ∅

end Index

/-- The classes of a source, their calls reconciled against each other. -/
def indexSource? (source : List Char) : Option (List ClassInfo) :=
  (parse? source).map fun root =>
    (Overload.reconcileClasses (Index.classesOf source root)).values

end Testwright.Java
