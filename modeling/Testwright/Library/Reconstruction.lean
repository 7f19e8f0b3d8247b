import Testwright.Data.Dict
import Testwright.Java.Sanitize
import Testwright.Text.Utf8

/-!
# Reconstruction of sources from compiled classes

Compiled classes lie in the locations of a search path. The source of a class is reconstructed
from the first location whose class file a decompiler turns into a text that is not blank; a
location that fails in any way is passed over.
-/

namespace Testwright

/-- A compiled class: where it lies and what it holds. -/
structure ClassFile where
  path : String
  content : Bytes
  deriving DecidableEq, Repr, Inhabited

/-- What is found at a location of the search path. -/
inductive Holding where
  /-- A directory with its class files. -/
  | directory (files : Dict ClassFile)
  /-- An archive with its entries. -/
  | archive (entries : Dict ClassFile)
  /-- A file that is no archive. -/
  | damaged (reason : String)
  /-- Nothing that can be opened. -/
  | unreadable (reason : String)
  deriving DecidableEq, Repr, Inhabited

/-- A location of the search path. -/
structure Location where
  path : String
  holding : Holding
  deriving DecidableEq, Repr, Inhabited

/-- Why no source comes out of a location. -/
inductive DecompileError where
  | io (path reason : String)
  | archive (path reason : String)
  | missingEntry (entry location : String)
  | launch (program reason : String)
  | failed (status stderr : String)
  | empty
  deriving DecidableEq, Repr, Inhabited

/-- The error in words. -/
def DecompileError.message : DecompileError → String
  | io path reason => "I/O error on " ++ path ++ ": " ++ reason
  | archive path reason => "cannot read archive " ++ path ++ ": " ++ reason
  | missingEntry entry location => entry ++ " not found in " ++ location
  | launch program reason => "failed to launch decompiler " ++ program ++ ": " ++ reason
  | failed status stderr => "decompiler exited with " ++ status ++ ": " ++ stderr
  | empty => "decompiler produced no output"

/-- A decompiler turns a class file into source text. -/
abbrev Decompiler := ClassFile → Except DecompileError String

/-- A source reconstructed from a compiled class. -/
structure Reconstruction where
  className : String
  /-- The path of the location it comes from. -/
  origin : String
  source : String
  deriving DecidableEq, Repr, Inhabited

namespace Library

/-- The place of a class in an archive or a directory. -/
def entryName (className : String) : String :=
  onChars (Text.replaceChar '.' ['/']) className ++ ".class"

/-- A path without repeated slashes. -/
def dropRepeatedSlashes : List Char → List Char
  | '/' :: '/' :: rest => dropRepeatedSlashes ('/' :: rest)
  | c :: rest => c :: dropRepeatedSlashes rest
  | [] => []

/-- The class file that a location holds for a class. In a directory repeated slashes count as
one, and a path that begins with a slash leads out of it. -/
def classFile? (location : Location) (className : String) : Option ClassFile :=
  match location.holding with
  | .directory files =>
    match (entryName className).toList with
    | '/' :: _ => none
    | entry => files.get? (.ofList (dropRepeatedSlashes entry))
  | .archive entries => entries.get? (entryName className)
  | _ => none

def decompileAt (decompile : Decompiler) (location : Location) (className : String) :
    Except DecompileError String :=
  match location.holding with
  | .damaged reason => .error (.archive location.path reason)
  | .unreadable reason => .error (.io location.path reason)
  | _ =>
    match classFile? location className with
    | some file => decompile file
    | none => .error (.missingEntry (entryName className) location.path)

/-- The source of a class from one location, unless it is blank. -/
def sourceAt? (decompile : Decompiler) (className : String) (location : Location) :
    Option Reconstruction :=
  match decompileAt decompile location className with
  | .error _ => none
  | .ok text =>
    let source := Java.sanitize text.toList
    if (Text.trim source).isEmpty then none
    else some ⟨className, location.path, .ofList source⟩

/-- The source of a class from the first location that gives one. -/
def scan (decompile : Decompiler) (locations : List Location) (className : String) :
    Option Reconstruction :=
  locations.findSome? (sourceAt? decompile className)

/-- The locations that a scan looks at. -/
def visited (decompile : Decompiler) (className : String) : List Location → List Location
  | [] => []
  | location :: rest =>
    if (sourceAt? decompile className location).isSome then [location]
    else location :: visited decompile className rest

/-- How often a scan runs the decompiler. -/
def decompilations (decompile : Decompiler) (locations : List Location) (className : String) :
    Nat :=
  (visited decompile className locations).countP fun l => (classFile? l className).isSome

end Library

end Testwright
