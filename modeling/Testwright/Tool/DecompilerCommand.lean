import Testwright.Library.Reconstruction
import Testwright.Settings.Basic
import Testwright.Tool.Process

/-!
# Decompiling by a command

A configured archive is run on a class file and prints its source. The locations of a search path
are read from a disk; the entry of an archive is put into a temporary file for the command.
-/

namespace Testwright

/-- A command that decompiles class files. -/
structure DecompilerCommand where
  java : String
  /-- The archive of the decompiler. -/
  archive : String
  deriving DecidableEq, Repr, Inhabited

namespace DecompilerCommand

/-- The command that is configured, if there is one. -/
def ofSettings? (s : DecompilerSettings) : Option DecompilerCommand :=
  s.cfrJar.map fun archive => ⟨s.java, archive⟩

/-- The options behind the class file. -/
def options : List String :=
  ["--comments", "false", "--recover", "true", "--hideutf", "true", "--decodesignatures", "false"]

/-- The source in the output of the command. -/
def conclude (o : Output) : Except DecompileError String :=
  if !o.status.isSuccess then .error (.failed o.status.text (Output.trimmed o.stderr))
  else
    let text := Utf8.lenient o.stdout
    if (Text.trim text.toList).isEmpty then .error .empty else .ok text

/-- Run the command on the class file at a path. -/
def run (c : DecompilerCommand) (launch : Launcher) (path : String) (d : Disk) :
    Except DecompileError String :=
  match launch ⟨c.java, "-jar" :: c.archive :: path :: options⟩ d with
  | (.error e, _) => .error (.launch c.java e.message)
  | (.ok o, _) => conclude o

def decompiler (c : DecompilerCommand) (launch : Launcher) (d : Disk) : Decompiler := fun file =>
  match d.write file.path (.bytes file.content) with
  | .ok d => c.run launch file.path d
  | .error e => .error (.io file.path e.message)

end DecompilerCommand

namespace Location

/-- Where the entry of an archive is put for the command. -/
def temporaryFile : String := "/class000000.class"

/-- The class file at a place below a directory, by its path from there. -/
def classBelow? (d : Disk) (path directory place : String) : Option (String × ClassFile) :=
  let front := if directory == "/" then ['/'] else directory.toList ++ ['/']
  match Text.dropPrefix? front place.toList, d.node? place with
  | some entry, some (.file (.bytes data) _) =>
    some (.ofList entry, ⟨Path.join path (.ofList entry), data⟩)
  | some entry, some (.file (.archive _) _) =>
    some (.ofList entry, ⟨Path.join path (.ofList entry), []⟩)
  | _, _ => none

/-- What is found at a path of the search path. -/
def holdingAt (d : Disk) (path : String) : Holding :=
  match d.place path, d.find path with
  | .ok place, .ok .directory =>
    .directory (.ofList (d.nodes.keys.filterMap (classBelow? d path place)))
  | _, .ok (.file (.archive entries) _) =>
    .archive (entries.map fun data => ⟨temporaryFile, data⟩)
  | _, .ok (.file (.bytes _) _) => .damaged "invalid Zip archive"
  | _, .ok .directory => .unreadable DiskError.isDirectory.message
  | _, .error e => .unreadable e.message

def ofDisk (d : Disk) (path : String) : Location := ⟨path, holdingAt d path⟩

end Location

end Testwright
