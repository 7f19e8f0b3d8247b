import Testwright.Settings.File
import Testwright.Workspace.Store

/-!
# The settings in a workspace

The settings of a project are read from its workspace, if they are there.
-/

namespace Testwright.Workspace

/-- The settings of a project under an environment. -/
def settings (environment : String → Option String) (d : Disk) (root : String) :
    Except SettingsError Settings :=
  let path := settingsFile root
  if d.isPresent path then
    match d.readText path with
    | .ok text => Settings.load environment (some text)
    | .error e => .error (.unreadable e.message)
  else Settings.load environment none

end Testwright.Workspace
