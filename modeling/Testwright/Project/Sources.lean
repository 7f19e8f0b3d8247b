import Testwright.Disk.Ignore
import Testwright.Java.Index

/-!
# Indexing source trees

The classes of a project are those of the Java files below its source roots. Files are taken in
the order of their paths, so of two classes with one name that of the later file stays; a file that
cannot be read is passed over. Calls are related to declarations once all files are known.
-/

namespace Testwright

namespace Disk

/-- The Java files below some source roots, by their paths. -/
def javaFiles (d : Disk) (roots : List String) : List String :=
  Path.sort ((roots.flatMap d.search).filter fun path => Path.extension? path == some "java")

/-- The classes of a Java file. -/
def classesOf (d : Disk) (path : String) : List ClassInfo :=
  match d.readText path with
  | .ok text => (Java.indexSource? text.toList).getD []
  | .error _ => []

end Disk

namespace Project

/-- The first source root that does not exist. -/
def missingRoot? (d : Disk) (roots : List String) : Option String :=
  roots.find? fun root => !d.isPresent root

/-- The classes below some source roots; the error is a root that does not exist. -/
def ofSources (d : Disk) (roots : List String) : Except String Project :=
  match missingRoot? d roots with
  | some root => .error root
  | none => .ok (Project.ofList ((d.javaFiles roots).flatMap d.classesOf)).reconcile

end Project

end Testwright
