import Testwright.Data.Dict
import Testwright.Disk.Path
import Testwright.Text.Utf8

/-!
# Disks

A `Disk` holds directories and files at places, which are absolute paths in normal form: `/` is the
root, and every other place is the place of its directory followed by a slash and a name. A path is
followed piece by piece (`Disk.place`), each piece from a directory; what is changed is a new disk.
-/

namespace Testwright

/-- What a file holds. -/
inductive Content where
  | bytes (data : Bytes)
  /-- An archive with its entries. -/
  | archive (entries : Dict Bytes)
  deriving DecidableEq, Repr, Inhabited

/-- What lies at a place. -/
inductive Node where
  | directory
  | file (content : Content) (executable : Bool)
  deriving DecidableEq, Repr, Inhabited

/-- Why something cannot be done on a disk. -/
inductive DiskError where
  | missing
  | denied
  | occupied
  | notDirectory
  | isDirectory
  /-- A file is no text. -/
  | notText
  /-- A program is of no known form. -/
  | notProgram
  deriving DecidableEq, Repr, Inhabited

/-- The error in words. -/
def DiskError.message : DiskError → String
  | missing => "No such file or directory (os error 2)"
  | denied => "Permission denied (os error 13)"
  | occupied => "File exists (os error 17)"
  | notDirectory => "Not a directory (os error 20)"
  | isDirectory => "Is a directory (os error 21)"
  | notText => "stream did not contain valid UTF-8"
  | notProgram => "Exec format error (os error 8)"

/-- Directories and files by their places, and the directory where relative paths begin. -/
structure Disk where
  nodes : Dict Node := ∅
  current : String := "/"
  deriving DecidableEq, Repr, Inhabited

namespace Disk

/-! ## Places -/

def childPlace (place name : String) : String :=
  if place == "/" then "/" ++ name else place ++ "/" ++ name

/-- The place of the directory that holds a place. -/
def parentPlace (place : String) : String :=
  match Text.cutAtLast? '/' place.toList with
  | some (c :: front, _) => .ofList (c :: front)
  | _ => "/"

/-- What lies at a place. -/
def node? (d : Disk) (place : String) : Option Node :=
  if place == "/" then some .directory else d.nodes.get? place

def follow (d : Disk) (place piece : String) : Except DiskError String :=
  match d.node? place with
  | none => .error .missing
  | some (.file _ _) => .error .notDirectory
  | some .directory =>
    if Path.isIdle piece then .ok place
    else if piece == ".." then .ok (parentPlace place)
    else .ok (childPlace place piece)

/-- Where a path begins. -/
def start (d : Disk) (path : String) : String := if Path.isAbsolute path then "/" else d.current

/-- The place that a path leads to, whether or not something lies there. -/
def place (d : Disk) (path : String) : Except DiskError String :=
  if path.isEmpty then .error .missing
  else (Path.pieces path).foldlM d.follow (d.start path)

def absolute (d : Disk) (path : String) : String := Path.join d.current path

/-! ## Looking -/

/-- What a path leads to. -/
def find (d : Disk) (path : String) : Except DiskError Node :=
  match d.place path with
  | .error e => .error e
  | .ok place =>
    match d.node? place with
    | some n => .ok n
    | none => .error .missing

/-- Whether a path leads to something. -/
def isPresent (d : Disk) (path : String) : Bool :=
  match d.find path with
  | .ok _ => true
  | .error _ => false

def isDirectory (d : Disk) (path : String) : Bool :=
  match d.find path with
  | .ok .directory => true
  | _ => false

def isFile (d : Disk) (path : String) : Bool :=
  match d.find path with
  | .ok (.file _ _) => true
  | _ => false

/-- What the file at a path holds. -/
def read (d : Disk) (path : String) : Except DiskError Content :=
  match d.find path with
  | .error e => .error e
  | .ok .directory => .error .isDirectory
  | .ok (.file content _) => .ok content

def readText (d : Disk) (path : String) : Except DiskError String :=
  match d.read path with
  | .error e => .error e
  | .ok (.archive _) => .error .notText
  | .ok (.bytes data) =>
    match Utf8.text? data with
    | some text => .ok text
    | none => .error .notText

/-- The name of a place in a directory, if it lies directly in it. -/
def nameIn? (directory place : String) : Option String :=
  let front := if directory == "/" then ['/'] else directory.toList ++ ['/']
  match Text.dropPrefix? front place.toList with
  | some name => if name.isEmpty || name.contains '/' then none else some (.ofList name)
  | none => none

/-- The names in the directory at a path, in order. -/
def list (d : Disk) (path : String) : Except DiskError (List String) :=
  match d.place path with
  | .error e => .error e
  | .ok place =>
    match d.node? place with
    | none => .error .missing
    | some (.file _ _) => .error .notDirectory
    | some .directory => .ok (d.nodes.keys.filterMap (nameIn? place))

/-! ## Changing -/

def put (d : Disk) (place : String) (n : Node) : Disk := { d with nodes := d.nodes.insert place n }

/-- Write a file; one that exists stays executable if it was. -/
def write (d : Disk) (path : String) (content : Content) : Except DiskError Disk :=
  match d.place path with
  | .error e => .error e
  | .ok place =>
    match d.node? place with
    | some .directory => .error .isDirectory
    | some (.file _ executable) => .ok (d.put place (.file content executable))
    | none => .ok (d.put place (.file content false))

def writeText (d : Disk) (path text : String) : Except DiskError Disk :=
  d.write path (.bytes (Utf8.encode text))

/-- Follow one piece of a path and make the directory it leads to if nothing is there. -/
def enter (st : Disk × String) (piece : String) : Except DiskError (Disk × String) :=
  match st.1.follow st.2 piece with
  | .error e => .error e
  | .ok place =>
    match st.1.node? place with
    | none => .ok (st.1.put place .directory, place)
    | some _ => .ok (st.1, place)

/-- Make the directory at a path and all those on the way to it that are missing. -/
def makeDirectories (d : Disk) (path : String) : Except DiskError Disk :=
  if path.isEmpty then .ok d
  else
    match (Path.pieces path).foldlM enter (d, d.start path) with
    | .error e => .error e
    | .ok (d, place) =>
      match d.node? place with
      | some (.file _ _) => .error .occupied
      | _ => .ok d

/-- Whether a place lies at or below another one. -/
def isBelow (top place : String) : Bool :=
  place == top || (Text.dropPrefix? (top.toList ++ ['/']) place.toList).isSome

/-- Remove what a path leads to, with everything below it. -/
def remove (d : Disk) (path : String) : Disk :=
  match d.place path with
  | .error _ => d
  | .ok top => { d with nodes := d.nodes.filter fun place _ => !isBelow top place }

/-- The name of the n-th temporary directory of a kind. -/
def temporaryName (kind : String) (n : Nat) : String :=
  let digits := Nat.toDigits 10 n
  kind ++ .ofList (List.replicate (6 - digits.length) '0' ++ digits)

/-- Make a directory in another one, under a name of a kind that is not in use, and give its
path. -/
def makeTemporary (d : Disk) (directory kind : String) : Except DiskError (String × Disk) :=
  let candidates := (List.range (d.nodes.size + 1)).map fun n =>
    Path.join (d.absolute directory) (temporaryName kind n)
  match candidates.find? fun path => !d.isPresent path with
  | none => .error .occupied
  | some path =>
    match d.makeDirectories path with
    | .error e => .error e
    | .ok d => .ok (path, d)

end Disk

end Testwright
