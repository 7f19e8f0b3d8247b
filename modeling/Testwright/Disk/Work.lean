import Testwright.Disk.Basic

/-!
# Work on a disk

Steps that change a disk and may fail. A failure keeps what was changed before it, so temporary
files can be removed after it (`Work.inTemporary`).
-/

namespace Testwright

/-- A step on a disk with errors of a type. -/
abbrev Work (ε α : Type) := Disk → Except ε α × Disk

namespace Work

variable {ε α β : Type}

/-- Give a value. -/
def pure (a : α) : Work ε α := fun d => (.ok a, d)

def fail (e : ε) : Work ε α := fun d => (.error e, d)

/-- One step after another. -/
def bind (w : Work ε α) (next : α → Work ε β) : Work ε β := fun d =>
  match w d with
  | (.ok a, d) => next a d
  | (.error e, d) => (.error e, d)

instance : Monad (Work ε) where
  pure := pure
  bind := bind

/-- Look at the disk, which may fail. -/
def look (f : Disk → Except ε α) : Work ε α := fun d => (f d, d)

/-- A value or an error. -/
def ofExcept (r : Except ε α) : Work ε α := fun d => (r, d)

/-- Change the disk; an error of the disk becomes one of the step. -/
def change (wrap : DiskError → ε) (f : Disk → Except DiskError Disk) : Work ε Unit := fun d =>
  match f d with
  | .ok d => (.ok (), d)
  | .error e => (.error (wrap e), d)

/-- Make a directory for a step in another one, and remove it afterwards. -/
def inTemporary (wrap : DiskError → ε) (directory kind : String) (w : String → Work ε α) :
    Work ε α := fun d =>
  match d.makeTemporary directory kind with
  | .error e => (.error (wrap e), d)
  | .ok (path, d) =>
    let (r, d) := w path d
    (r, d.remove path)

end Work

end Testwright
