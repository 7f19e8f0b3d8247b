import Testwright.Java.Prune
import Testwright.Library.Reconstruction
import Testwright.Project.Overload

/-!
# Resolving classes outside the project

A resolver reconstructs classes that have no source in the project and prunes them to the wanted
methods. What it has learnt is a `Cache`: the result of each search, found or not, under the name
of the class. Of two results stored under one name the first stays (`Cache.store`), so that
searches that run at the same time agree.
-/

namespace Testwright

/-- How classes are reconstructed; without a decompiler none is. -/
structure Resolver where
  locations : List Location := []
  decompiler : Option Decompiler := none
  caching : Bool := false

/-- What a resolver has learnt. -/
structure Cache where
  entries : Dict (Option Reconstruction) := ∅
  /-- The classes searched for, the latest first. -/
  scanned : List String := []
  deriving DecidableEq, Repr, Inhabited

namespace Cache

/-- The result stored for a class. -/
def read (c : Cache) (className : String) : Option (Option Reconstruction) :=
  c.entries.get? className

/-- Note a search. -/
def note (c : Cache) (className : String) : Cache :=
  { c with scanned := className :: c.scanned }

/-- Store a result unless there is one, and give the stored one. -/
def store (c : Cache) (className : String) (found : Option Reconstruction) :
    Option Reconstruction × Cache :=
  match c.read className with
  | some stored => (stored, c)
  | none => (found, { c with entries := c.entries.insert className found })

end Cache

/-- What comes of resolving a class. -/
inductive Resolution where
  /-- The class belongs to the project. -/
  | notApplicable
  /-- The class was reconstructed and pruned. -/
  | found (reconstruction : Reconstruction) (pruned : Java.Pruned)
  /-- No location gives the class. -/
  | notFound
  /-- The reconstructed source is no Java. -/
  | unusable
  deriving DecidableEq, Repr, Inhabited

namespace Resolver

/-- The result of a search for a class. -/
def scan (r : Resolver) (className : String) : Option Reconstruction :=
  r.decompiler.bind fun decompile => Library.scan decompile r.locations className

/-- How often all searches so far ran the decompiler. -/
def decompiled (r : Resolver) (c : Cache) : Nat :=
  match r.decompiler with
  | none => 0
  | some decompile =>
    c.scanned.foldl (fun n name => n + Library.decompilations decompile r.locations name) 0

def reconstruct (r : Resolver) (className : String) (c : Cache) :
    Option Reconstruction × Cache :=
  if r.caching then
    match c.read className with
    | some stored => (stored, c)
    | none => (c.note className).store className (r.scan className)
  else (r.scan className, c.note className)

/-- The source of a reconstruction pruned to wanted methods. Wanted signatures are first related
to those that the source declares. -/
def prune? (reconstruction : Reconstruction) (wanted : Names) : Option Java.Pruned :=
  let source := reconstruction.source.toList
  match Java.declaredSignatures? source with
  | none => none
  | some declared =>
    Java.prune? source (Overload.reconcileWanted (normalizeSignatures wanted) declared)

/-- What a search result means for wanted methods. -/
def conclude (wanted : Names) : Option Reconstruction → Resolution
  | none => .notFound
  | some reconstruction =>
    match prune? reconstruction wanted with
    | some pruned => .found reconstruction pruned
    | none => .unusable

def resolve (r : Resolver) (p : Project) (className : String) (wanted : Names) (c : Cache) :
    Resolution × Cache :=
  if (p.class? className).isSome then (.notApplicable, c)
  else
    let (found, c) := r.reconstruct className c
    (conclude wanted found, c)

end Resolver

end Testwright
