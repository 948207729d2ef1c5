/-
Files held in memory, and the host that they make: a working folder in which a command line can be run
without a system at hand. A name is followed one part at a time from the working folder, and what it leads
to decides which fault reading or creating it has.
-/
import Constituency.Command.Run

namespace Constituency

/-- The names on the way from the working folder. A path through `..` or `/` leaves that folder. -/
abbrev Path := List String

structure StoredFile where
  path : Path
  content : ByteArray
  /-- Whether it was made after the start. -/
  isNew : Bool

structure Storage where
  files : List StoredFile
  printed : String

inductive Place where
  | folder (path : Path)
  | file (found : StoredFile)
  /-- Nothing yet, but in a folder. -/
  | vacant (path : Path)

namespace Path

def partsOf (name : String) : List String := (Text.separated '/' name.toList).map String.ofList

/-- A part that leads nowhere: an empty one, as between two slashes, or a single dot. -/
def isIdle (part : String) : Bool := part == "" || part == "."

/-- The folder from which a name is followed. -/
def origin (name : String) : Path := if name.toList.head? == some '/' then ["/"] else []

/-- The path of a name that goes down only. -/
def ofName (name : String) : Path := origin name ++ (partsOf name).filter (!isIdle ·)

/-- Whether a path stays in the working folder. -/
def isInside (path : Path) : Bool := path.head? != some "/" && path.head? != some ".."

/-- The folder that holds a folder. The root is in itself, and nothing is known of what holds the working
folder. -/
def parent : Path → Path
  | [] => [".."]
  | [".."] => [".."]
  | ["/"] => ["/"]
  | path => path.dropLast

def toName (path : Path) : String := "/".intercalate path

end Path

namespace Storage

def ofFiles (files : List (String × ByteArray)) : Storage :=
  ⟨files.map fun (name, content) => ⟨Path.ofName name, content, false⟩, ""⟩

/-- The most bytes of a part of a name, and of a whole name. -/
def partLimit : Nat := 255
def nameLimit : Nat := 4095

/-- What stands at a path whose folder exists. There is a folder where files lie deeper. -/
def placeAt (s : Storage) (path : Path) : Place :=
  match s.files.find? (·.path == path) with
  | some found => .file found
  | none => if s.files.any (path.isPrefixOf ·.path) then .folder path else .vacant path

/-- Goes on from a place, which must be a folder, by one part of a name. -/
def follow (s : Storage) (place : Place) (part : String) : Except FileFault Place :=
  match place with
  | .file _ => .error .notFolder
  | .vacant _ => .error .notFound
  | .folder path =>
    if partLimit < part.utf8ByteSize then .error .nameTooLong
    else if Path.isIdle part then .ok (.folder path)
    else if part = ".." then .ok (.folder (Path.parent path))
    else .ok (s.placeAt (path ++ [part]))

def find (s : Storage) (name : String) : Except FileFault Place :=
  if name.isEmpty then .error .notFound
  else if nameLimit < name.utf8ByteSize then .error .nameTooLong
  else (Path.partsOf name).foldlM s.follow (.folder (Path.origin name))

def replace (s : Storage) (file : StoredFile) : Storage :=
  { s with files := s.files.map fun old => if old.path = file.path then file else old }

def read (s : Storage) (name : String) : Except FileFault ByteArray := do
  match ← s.find name with
  | .file found => return found.content
  | .folder _ => throw .isFolder
  | .vacant _ => throw .notFound

/-- Makes an empty file, or empties the one that is there. -/
def create (s : Storage) (name : String) : Except FileFault Storage := do
  match ← s.find name with
  | .file found => return s.replace { found with content := .empty }
  | .folder _ => throw .isFolder
  | .vacant path => return { s with files := ⟨path, .empty, true⟩ :: s.files }

def append (s : Storage) (name text : String) : Storage :=
  match s.find name with
  | .ok (.file found) => s.replace { found with content := found.content ++ text.toUTF8 }
  | _ => s

/-- Name and content of the files made in the working folder since the start, newest first. -/
def created (s : Storage) : List (String × ByteArray) :=
  (s.files.filter fun file => file.isNew && Path.isInside file.path).map fun file =>
    (Path.toName file.path, file.content)

/-- The host that reads the given standard input and works on files in memory. -/
def host (input : ByteArray) : Host (StateM Storage) where
  input := return input
  read name := return (← get).read name
  create name := do
    match (← get).create name with
    | .ok s => set s; return .ok ()
    | .error fault => return .error fault
  write name text := modify (·.append name text)
  print text := modify fun s => { s with printed := s.printed ++ text }

end Storage

end Constituency
