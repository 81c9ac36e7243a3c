import ClassCompiler.NameMap
import ClassCompiler.Command.Run

/-!
# Directories in memory

A directory of text files that is held in memory, for running the command without a disk. Paths are
followed segment by segment from inside the directory. Of what is around it only the root, the
directory of devices with the null device, and the directory of temporary files are known to exist.
-/

namespace ClassCompiler.Command

inductive PathFault where
  | missing
  | notDirectory
  | isDirectory
  | tooLong
deriving DecidableEq

namespace PathFault

def message : PathFault → String
  | .missing => "No such file or directory (os error 2)"
  | .notDirectory => "Not a directory (os error 20)"
  | .isDirectory => "Is a directory (os error 21)"
  | .tooLong => "File name too long (os error 36)"

end PathFault

/-- A directory that a path leads through: the one whose files are known, the root, the directory of
devices, or one of which nothing is known. -/
inductive Location where
  | inside
  | root
  | devices
  | elsewhere
deriving DecidableEq

/-- The directory around a directory; the root is around itself. -/
def Location.parent : Location → Location
  | .root | .devices => .root
  | .inside | .elsewhere => .elsewhere

/-- What a name in a directory stands for. The null device is empty and forgets what is written. -/
inductive Entry where
  | file (content : String)
  | nullDevice
  | directory (location : Location)
deriving DecidableEq

/-- Where a path leads: to a directory, or to a name in a directory. A slash behind the name says
that it should be the name of a directory. -/
inductive Target where
  | directory
  | name (location : Location) (name : String) (slash : Bool)
deriving DecidableEq

/-- The files of a directory by name. It has no directories inside. -/
structure Directory where
  files : NameMap String
deriving DecidableEq

namespace Directory

def maxName : Nat := 255

def maxPath : Nat := 4095

def entry? (directory : Directory) : Location → String → Option Entry
  | .inside, name => (directory.files.get? name).map .file
  | .root, "dev" => some (.directory .devices)
  | .root, "tmp" => some (.directory .elsewhere)
  | .devices, "null" => some .nullDevice
  | _, _ => none

/-- Looks a name up. A name that no file can have is refused, also where it would be created. -/
def find (directory : Directory) (location : Location) (name : String) :
    Except PathFault (Option Entry) :=
  if maxName < name.utf8ByteSize then .error .tooLong else .ok (directory.entry? location name)

/-- Follows a segment of a path that goes on behind it. -/
def enter (directory : Directory) (location : Location) (segment : String) :
    Except PathFault Location :=
  if segment = "." then .ok location
  else if segment = ".." then .ok location.parent
  else do
    match ← directory.find location segment with
    | some (.directory next) => return next
    | some _ => throw .notDirectory
    | none => throw .missing

/-- Follows a path up to its last segment. -/
def resolve (directory : Directory) (path : String) : Except PathFault Target :=
  let segments := (path.splitOn "/").filter (· ≠ "")
  let start := if path.startsWith "/" then Location.root else .inside
  if maxPath < path.utf8ByteSize then .error .tooLong
  else
    match segments.getLast? with
    | none => .ok .directory
    | some last => do
      let location ← segments.dropLast.foldlM directory.enter start
      if last = "." || last = ".." then return .directory
      else return .name location last (path.endsWith "/")

def read (directory : Directory) (path : String) : Except PathFault String := do
  match ← directory.resolve path with
  | .directory => throw .isDirectory
  | .name location name slash =>
    match ← directory.find location name with
    | none => throw .missing
    | some (.directory _) => throw .isDirectory
    | some (.file content) => if slash then throw .notDirectory else return content
    | some .nullDevice => if slash then throw .notDirectory else return ""

/-- The directory after a file has been given a content. Only files inside are kept. -/
def put (directory : Directory) (location : Location) (name content : String) : Directory :=
  match location with
  | .inside => ⟨directory.files.insert name content⟩
  | _ => directory

/-- Gives the file that a path leads to a content, and creates it if it is not there. A file cannot
be created under a name with a slash behind it, whether there is such a file or not. -/
def write (directory : Directory) (path content : String) : Except PathFault Directory := do
  match ← directory.resolve path with
  | .directory | .name _ _ true => throw .isDirectory
  | .name location name false =>
    match ← directory.find location name with
    | some (.directory _) => throw .isDirectory
    | some .nullDevice => return directory
    | some (.file _) | none => return directory.put location name content

def access : Files (StateM Directory) where
  read path := do return ((← get).read path).mapError PathFault.message
  write path content := do
    match (← get).write path content with
    | .ok directory => do
      set directory
      return .ok ()
    | .error fault => return .error fault.message

/-- The files that are new in a directory, or not as they were. -/
def changedSince (before after : Directory) : List (String × String) :=
  after.files.entries.filter fun entry => before.files.get? entry.1 ≠ some entry.2

end Directory

end ClassCompiler.Command
