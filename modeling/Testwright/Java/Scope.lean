import Testwright.Java.Declaration

/-!
# Names of types in a source

A `Scope` knows the package of a source and the types that its simple names stand for, from
imports and from its own declarations. `Scope.resolveClass?` names the class on whose instances a
call of a method lands; `Scope.descriptor` writes a type as class files do.
-/

namespace Testwright.Java

/-- What the names of types in a source stand for. -/
structure Scope where
  /-- The package with its points, empty for the default package. -/
  package : List Char := []
  packageLine : String := ""
  importLines : List String := []
  /-- The full names of simple names. -/
  known : Dict String := ∅
  deriving Repr, Inhabited

/-- Remove a text from the front as often as it stands there. -/
def dropPrefixes (p : List Char) : Nat → List Char → List Char
  | 0, s => s
  | fuel + 1, s =>
    match Text.dropPrefix? p s with
    | some r => dropPrefixes p fuel r
    | none => s

def primitiveTypes : List String :=
  ["byte", "short", "int", "long", "float", "double", "boolean", "char", "void"]

/-- Types of the language's own package, which are no classes of a project or library. -/
def languageTypes : List String :=
  ["Object", "String", "StringBuilder", "Math", "System", "Integer", "Long", "Short", "Byte",
    "Double", "Float", "Boolean", "Character", "Number", "Thread", "Exception",
    "RuntimeException", "Iterable", "Comparable", "CharSequence", "Class", "Enum"]

/-- Whether a name is taken for a type variable: one capital letter. -/
def isTypeVariable : List Char → Bool
  | [c] => c.isUpper
  | _ => false

namespace Scope

/-- A name inside an outer class, or else inside the package. -/
def qualified (scope : Scope) (outer : Option String) (name : List Char) : String :=
  match outer with
  | some outer => outer ++ "." ++ .ofList name
  | none =>
    if scope.package.isEmpty then .ofList name else .ofList (scope.package ++ '.' :: name)

/-- Take in a package declaration. -/
def addPackage (scope : Scope) (text : List Char) : Scope :=
  let line := Text.trim text
  let name := Text.trim <| Text.dropEndWhile (· == ';') <|
    dropPrefixes ['p', 'a', 'c', 'k', 'a', 'g', 'e'] line.length line
  { scope with package := name, packageLine := .ofList line }

/-- Take in an import; one of a single type gives a meaning to its simple name. -/
def addImport (scope : Scope) (text : List Char) : Scope :=
  let line := Text.trim text
  let path := Text.trim <| Text.dropEndWhile (· == ';') <| Text.trim <|
    dropPrefixes ['i', 'm', 'p', 'o', 'r', 't'] line.length line
  let scope := { scope with importLines := scope.importLines ++ [.ofList line] }
  if ['s', 't', 'a', 't', 'i', 'c', ' '].isPrefixOf path || ['.', '*'].isSuffixOf path then scope
  else
    { scope with known := scope.known.insert (.ofList (Text.afterLast '.' path)) (.ofList path) }

/-- Take in the package and imports of a source. -/
def ofHeader (source : List Char) (root : Tree) : Scope :=
  root.children.foldl (fun scope t =>
    match t.kind with
    | .packageDeclaration => scope.addPackage (t.chars source)
    | .importDeclaration => scope.addImport (t.chars source)
    | _ => scope) {}

def declName (source : List Char) (decl : Tree) : List Char :=
  ((decl.child? .name).map (Tree.chars source)).getD []

def fullName (source : List Char) (scope : Scope) (d : Declared) : String :=
  match d.outer with
  | [] => scope.qualified none (declName source d.decl)
  | first :: rest =>
    let outer := rest.foldl (fun name t => name ++ "." ++ .ofList (declName source t))
      (scope.qualified none (declName source first))
    scope.qualified (some outer) (declName source d.decl)

/-- The scope of a source; a declaration of the source precedes an import of its name. -/
def ofTree (source : List Char) (root : Tree) : Scope :=
  let scope := ofHeader source root
  { scope with
    known := root.declarations.foldl (fun known d =>
      known.insert (.ofList (declName source d.decl)) (fullName source scope d)) scope.known }

/-- Whether a type has no methods to call: nothing, an array, `var` or a primitive type. -/
def isOpaque (base : List Char) : Bool :=
  base.isEmpty || base.getLast? == some ']' || base == ['v', 'a', 'r'] ||
    primitiveTypes.contains (.ofList base)

/-- The class of a type without type arguments and points. -/
def resolveSimple? (scope : Scope) (name : List Char) : Option String :=
  let base := Text.trim name
  if isOpaque base then none
  else match scope.known.get? (.ofList base) with
    | some full => some full
    | none =>
      if languageTypes.contains (.ofList base) || isTypeVariable base then none
      else some (scope.qualified none base)

/-- The class on which a call lands whose receiver has a type, if it can be one of a project or
library. A name with points that begins with a small letter is taken to be a full name. -/
def resolveClass? (scope : Scope) (type : List Char) : Option String :=
  let base := Text.trim (Text.before '<' type)
  if isOpaque base then none
  else match Text.cutAt? '.' base with
    | some (head, rest) =>
      if (head.head?.map Char.isLower).getD false then some (.ofList base)
      else (scope.resolveSimple? head).map fun outer => outer ++ "." ++ .ofList rest
    | none => scope.resolveSimple? base

/-- Remove pairs of brackets, and blanks in front of them, from the end of a type; also their
number. -/
def dropBrackets (base : List Char) : Nat → List Char × Nat
  | 0 => (base, 0)
  | fuel + 1 =>
    match Text.dropSuffix? ['[', ']'] base with
    | some r =>
      let (element, n) := dropBrackets (Text.trimEnd r) fuel
      (element, n + 1)
    | none => (base, 0)

/-- The letter of a primitive type in class files. -/
def primitiveLetter? (base : String) : Option Char :=
  match base with
  | "byte" => some 'B'
  | "short" => some 'S'
  | "int" => some 'I'
  | "long" => some 'J'
  | "float" => some 'F'
  | "double" => some 'D'
  | "boolean" => some 'Z'
  | "char" => some 'C'
  | "void" => some 'V'
  | _ => none

/-- The full name that stands for a class type in class files. -/
def className (scope : Scope) (base : List Char) : String :=
  let name := String.ofList base
  if isTypeVariable base then "java.lang.Object"
  else if languageTypes.contains name && !scope.known.contains name then "java.lang." ++ name
  else (scope.resolveClass? base).getD (scope.qualified none base)

/-- A type in the form of class files: a bracket a dimension, then a letter or a class name. -/
def descriptor (scope : Scope) (type : List Char) : String :=
  let text := Text.trim type
  let (text, spread) := match Text.dropSuffix? ['.', '.', '.'] text with
    | some r => (r, 1)
    | none => (text, 0)
  let base := Text.trim (Text.before '<' text)
  let (element, dims) := dropBrackets base base.length
  let brackets := String.ofList (List.replicate (spread + dims) '[')
  match primitiveLetter? (.ofList element) with
  | some c => brackets.push c
  | none =>
    brackets ++ "L" ++ onChars (Text.replaceChar '.' ['/']) (scope.className element) ++ ";"

end Scope

end Testwright.Java
