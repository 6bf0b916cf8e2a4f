import MacroModules.Path

/-!
# File systems

A file system without links: directories and files, each at a location, which is the list of names
on the way from the root. A path is followed name by name from the working directory or the root,
and everything on the way has to be a directory. Names and paths are bounded in length, and no path
may hold a null character.

The system may refuse to look at what is at a location, to read it or to write it, and what is
written may not get there as a whole. Which of this happens is a part of the file system.

* `FileSystem.node?`: what is at a location.
* `FileSystem.locate`: the location that a path leads to, which need not be taken yet.
* `FileSystem.read`: the content of a file, which is there whether or not the system gives it away.
* `FileSystem.look`, `FileSystem.load`, `FileSystem.write`: what the system does with a path.
* `FileSystem.normalize`: the location a path names by its spelling alone.
-/

namespace MacroModules

/-- The names on the way from the root. -/
abbrev Location := List String

/-- What may be at a location. -/
inductive Node where
  | file (content : List UInt8)
  | directory
  deriving DecidableEq

/-- An error of the system, with its number and its wording. -/
structure SystemError where
  number : Nat
  reason : String
  /-- There are no links, so that there cannot be too many of them on the way. -/
  ne_links : number ≠ 40
  deriving DecidableEq

/-- What can be done with a location. -/
inductive Access where
  /-- To ask what is there. -/
  | look
  /-- To open the file and read all of it. -/
  | read
  /-- To open the file for writing. -/
  | write
  deriving DecidableEq

/-- When it comes out that a file is not written as a whole. -/
inductive Stage where
  /-- While its content is handed over. -/
  | writing
  /-- When it is closed. A failure from before is then not seen any more. -/
  | closing
  deriving DecidableEq

/-- A file that is opened, but not written as a whole. -/
structure Shortfall where
  stage : Stage
  /-- How many bytes the file has got. -/
  kept : Nat
  error : SystemError
  deriving DecidableEq

/-- What a file has got of its content. -/
def Shortfall.delivered (content : List UInt8) : Option Shortfall → List UInt8
  | none => content
  | some s => content.take s.kept

/-- Files and directories by location, and the directory in which relative paths begin. -/
structure FileSystem where
  workingDirectory : Location
  /-- Of several entries for a location, the first counts. -/
  nodes : List (Location × Node)
  /-- What the system refuses. Of several entries for an access, the first counts. -/
  refusals : List ((Location × Access) × SystemError) := []
  /-- What becomes of the files that are written from now on, in order. Those behind the end are
  written as a whole. -/
  deliveries : List (Option Shortfall) := []
  deriving DecidableEq

/-- Why a file cannot be read or written. -/
inductive FileSystem.Fault where
  /-- There is nothing at the location, or on the way to it. -/
  | missing
  /-- There is a directory where a file has to be. -/
  | isDirectory
  /-- There is a file where a directory has to be. -/
  | notDirectory
  /-- The path, or a name on the way, is longer than the system allows. -/
  | tooLong
  /-- The path holds a null character. -/
  | nullCharacter
  /-- The system refuses. -/
  | refused (e : SystemError)
  deriving DecidableEq

namespace FileSystem

/-- The most bytes that a name may have. -/
def maxNameSize : Nat := 255

/-- The most bytes that a path may have. -/
def maxPathSize : Nat := 4095

/-- The wording of a fault. -/
def Fault.message : Fault → String
  | missing => "No such file or directory"
  | isDirectory => "Is a directory"
  | notDirectory => "Not a directory"
  | tooLong => "File name too long"
  | nullCharacter => "embedded null byte"
  | refused e => e.reason

/-- The number of a fault. The system does not get to see a null character. -/
def Fault.number? : Fault → Option Nat
  | missing => some 2
  | isDirectory => some 21
  | notDirectory => some 20
  | tooLong => some 36
  | nullCharacter => none
  | refused e => some e.number

/-- What is at a location. The root and the working directory are always there. -/
def node? (fs : FileSystem) (l : Location) : Option Node :=
  if l <+: fs.workingDirectory then some .directory else fs.nodes.lookup l

/-- The location one name on. Two dots lead back, but not beyond the root. -/
def step (l : Location) (name : String) : Location :=
  if name = ".." then l.dropLast else l ++ [name]

/-- Where a path begins. -/
def base (fs : FileSystem) (p : Path) : Location :=
  if p.anchor = .relative then fs.workingDirectory else []

/-- The location one name on, if the name is not too long. -/
def enter (l : Location) (name : String) : Except Fault Location :=
  if name.utf8ByteSize ≤ maxNameSize then .ok (step l name) else .error .tooLong

/-- The location that names lead to from a directory. -/
def follow (fs : FileSystem) (l : Location) : List String → Except Fault Location
  | [] => .ok l
  | [name] => enter l name
  | name :: names => do
    let l ← enter l name
    match fs.node? l with
    | none => .error .missing
    | some (.file _) => .error .notDirectory
    | some .directory => follow fs l names

/-- The location that a path leads to. -/
def locate (fs : FileSystem) (p : Path) : Except Fault Location :=
  if p.hasNull then .error .nullCharacter
  else if maxPathSize < p.size then .error .tooLong
  else fs.follow (fs.base p) p.names

/-- The content of the file at a path. -/
def read (fs : FileSystem) (p : Path) : Except Fault (List UInt8) := do
  match fs.node? (← fs.locate p) with
  | none => .error .missing
  | some .directory => .error .isDirectory
  | some (.file content) => return content

/-- The location that a path leads to, unless the system refuses what is to be done there. -/
def reach (fs : FileSystem) (access : Access) (p : Path) : Except Fault Location := do
  let l ← fs.locate p
  match fs.refusals.lookup (l, access) with
  | some e => .error (.refused e)
  | none => return l

/-- What the system says is at a path. -/
def look (fs : FileSystem) (p : Path) : Except Fault Node := do
  match fs.node? (← fs.reach .look p) with
  | none => .error .missing
  | some node => return node

/-- The content that the system gives away for a path. -/
def load (fs : FileSystem) (p : Path) : Except Fault (List UInt8) := do
  let _ ← fs.reach .read p
  fs.read p

/-- The file system with a file put at a location, for which one delivery is used up. -/
def put (fs : FileSystem) (l : Location) (content : List UInt8) : FileSystem :=
  { fs with
    nodes := (l, .file content) :: fs.nodes.filter (·.1 != l)
    deliveries := fs.deliveries.tail }

/-- The file system after a file has been created or replaced at a path. -/
def create (fs : FileSystem) (p : Path) (content : List UInt8) : Except Fault FileSystem := do
  let l ← fs.reach .write p
  if fs.node? l = some .directory then .error .isDirectory
  else return fs.put l content

/-- What is lacking of one of the files that are written from now on, by its number. -/
def shortfall? (fs : FileSystem) (i : Nat) : Option Shortfall := fs.deliveries[i]?.join

/-- The file system after some content has been written to a file, and what is lacking of it. If the
file cannot be opened, nothing happens; if it can, what was there before is gone. -/
def write (fs : FileSystem) (p : Path) (content : List UInt8) :
    Except Fault (FileSystem × Option Shortfall) := do
  return (← fs.create p (Shortfall.delivered content (fs.shortfall? 0)), fs.shortfall? 0)

/-- The location that a path names by its spelling, whether or not there is anything on the way. -/
def normalize (fs : FileSystem) (p : Path) : Location :=
  p.names.foldl step (fs.base p)

end FileSystem

end MacroModules
