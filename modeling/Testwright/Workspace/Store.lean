import Testwright.Attempt.Report
import Testwright.Disk.Basic
import Testwright.Json.Reader
import Testwright.Json.Writer
import Testwright.Project.Stored
import Testwright.Workspace.IgnoreEntry

/-!
# The workspace of a project

The directory `.unitsmith` at the root of a project holds its settings, its index and the reports
of attempts. Index and reports are JSON texts, an element or member a line.
-/

namespace Testwright

/-- A project as it is stored: also the version of its form and the time it was written. -/
structure StoredProject where
  version : String
  createdAt : Timestamp
  project : Project
  deriving DecidableEq, Repr, Inhabited

namespace StoredProject

/-- The stored form. -/
def toJson (s : StoredProject) : Json :=
  .obj
    [("version", .str s.version), ("created_at", .str s.createdAt.text),
      ("classes", .ofDict ClassInfo.toJson s.project.classes)]

def ofJson? (j : Json) : Option StoredProject := do
  let j ← j.record? ["version", "created_at", "classes"]
  let version ← j.required? "version" Json.str?
  let createdAt ← j.required? "created_at" fun v => v.str?.bind Timestamp.parse?
  let classes ← j.required? "classes" (Json.dict? ClassInfo.ofJson?)
  some { version, createdAt, project := ⟨classes⟩ }

end StoredProject

/-- What failed in a workspace. -/
inductive WorkspaceError where
  | makeDirectory (path : String)
  | makeReports (path : String)
  | readIndex (path : String)
  | parseIndex (path : String)
  | writeIndex (path : String)
  | writeReport (path : String)
  deriving DecidableEq, Repr, Inhabited

/-- The error in words. -/
def WorkspaceError.message : WorkspaceError → String
  | makeDirectory path => "failed to create directory " ++ path
  | makeReports path => "failed to create reports directory " ++ path
  | readIndex path => "failed to read project index from " ++ path
  | parseIndex path => "failed to parse project index " ++ path
  | writeIndex path => "failed to write project index to " ++ path
  | writeReport path => "failed to write report to " ++ path

namespace Workspace

/-! ## Paths -/

/-- The directory of a project's workspace. -/
def directory (root : String) : String := Path.join root ".unitsmith"

/-- The settings of a project. -/
def settingsFile (root : String) : String := Path.join (directory root) "config.toml"

/-- The index of a project. -/
def indexFile (root : String) : String := Path.join (directory root) "project.json"

/-- The reports of attempts. -/
def reportsDirectory (root : String) : String := Path.join (directory root) "reports"

/-- The report of an attempt. -/
def reportFile (root : String) (r : Report) : String :=
  Path.join (reportsDirectory root) (r.stem ++ ".json")

/-- The list of files that stay out of the repository. -/
def ignoreFile (root : String) : String := Path.join root ".gitignore"

/-! ## The index -/

/-- Whether a project has an index. -/
def hasIndex (d : Disk) (root : String) : Bool := d.isPresent (indexFile root)

/-- The index of a project. -/
def load (d : Disk) (root : String) : Except WorkspaceError StoredProject :=
  match d.readText (indexFile root) with
  | .error _ => .error (.readIndex (indexFile root))
  | .ok text =>
    match (Json.parse? text).bind StoredProject.ofJson? with
    | some s => .ok s
    | none => .error (.parseIndex (indexFile root))

/-- Write the index of a project. -/
def save (d : Disk) (root : String) (p : Project) (now : Timestamp) :
    Except WorkspaceError Disk :=
  match d.makeDirectories (directory root) with
  | .error _ => .error (.makeDirectory (directory root))
  | .ok d =>
    let stored : StoredProject := ⟨Project.version, now, p⟩
    match d.writeText (indexFile root) stored.toJson.pretty with
    | .error _ => .error (.writeIndex (indexFile root))
    | .ok d => .ok d

/-! ## Reports -/

def writeReport (d : Disk) (root : String) (r : Report) : Except WorkspaceError Disk :=
  match d.makeDirectories (reportsDirectory root) with
  | .error _ => .error (.makeReports (reportsDirectory root))
  | .ok d =>
    match d.writeText (reportFile root r) r.toJson.pretty with
    | .error _ => .error (.writeReport (reportFile root r))
    | .ok d => .ok d

/-! ## The ignore list -/

/-- Keep the workspace out of the repository; also whether it was so before, in which case nothing
is written. -/
def ensureIgnored (d : Disk) (root : String) : Except DiskError (Bool × Disk) := do
  let path := ignoreFile root
  let list ← if d.isPresent path then (d.readText path).map fun t => some t.toList else .ok none
  match IgnoreEntry.ensure list with
  | (true, _) => return (true, d)
  | (false, list) => return (false, ← d.writeText path (.ofList list))

end Workspace

end Testwright
